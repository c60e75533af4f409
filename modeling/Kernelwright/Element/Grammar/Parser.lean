import Kernelwright.Element.Grammar.Token
import Kernelwright.Element.Type
import Kernelwright.Memory

/-!
# Reading element types

The second stage: tokens to an `ElementType`.

    type     = name | tuple '<' type (',' type)* '>' | tuple '::' name
    tuple    = 'Tuple' digits

The number of fields has to be the declared arity, and an arity is between one and eleven. The form
`Tuple3::Double` repeats one kind; the copies are made before they are counted, so an arity for
which there is no room is a fault of its own, wherever it stands. One mutual recursion, in which
every call is on a shorter list of tokens; a parse returns what is left together with the proof that
it is shorter.
-/

namespace Kernelwright.Grammar

/-- Why a source text is no element type. -/
inductive Fault where
  /-- Some text begins no token. -/
  | stray (text : String)
  /-- There are no tokens. -/
  | empty
  /-- No type starts here, and the first token is a name. -/
  | unknownName (name : String)
  /-- No type starts here, and the first token is no name. -/
  | noType (found : Token)
  /-- A type is followed by more tokens. -/
  | trailing (found : Token)
  /-- A kind is repeated more often than there is room for. -/
  | noRoom (arity : Nat)
deriving DecidableEq, Repr

def Fault.message : Fault → String
  | .stray text => strayMessage text
  | .empty => "found end of input expected '<type name>'"
  | .unknownName name => "unknown element type `" ++ name ++ "`"
  | .noType found => "found '" ++ found.text ++ "' expected '<type name>'"
  | .trailing found => "found '" ++ found.text ++ "' expected end of input"
  | .noRoom arity => "no room for " ++ toString arity ++ " fields"

/-- Why no type could be read from the front of a list of tokens. -/
inductive Failure where
  /-- The tokens spell none. -/
  | noType
  /-- They repeat a kind more often than there is room for. -/
  | noRoom (arity : Nat)
deriving DecidableEq, Repr

def Failure.ofArity (arity : Nat) : Failure :=
  if Memory.fits arity Memory.typeBytes then .noType else .noRoom arity

mutual

def parseType (input : List Token) :
    Except Failure (ElementType × { r : List Token // r.length < input.length }) :=
  match input with
  | .name text :: rest =>
    match ScalarKind.ofName? text with
    | some k => .ok (.scalar k, ⟨rest, by simp⟩)
    | none => .error .noType
  | .tuple n :: .path :: .name text :: rest =>
    match ScalarKind.ofName? text with
    | some k =>
      if ElementType.arityOk n then
        .ok (.record (List.replicate n (.scalar k)), ⟨rest, by simp; omega⟩)
      else .error (.ofArity n)
    | none => .error .noType
  | .tuple n :: .less :: rest =>
    match parseType rest with
    | .ok (t, r₁) =>
      match parseFields r₁.val with
      | .ok (ts, r₂) =>
        if ts.length + 1 = n ∧ ElementType.arityOk n then
          .ok (.record (t :: ts), ⟨r₂.val, by
            have := r₁.property; have := r₂.property; simp; omega⟩)
        else .error .noType
      | .error e => .error e
    | .error e => .error e
  | _ => .error .noType
termination_by input.length
decreasing_by
  · simp only [List.length_cons]; omega
  · have := r₁.property
    simp only [List.length_cons]
    omega

/-- Read `(',' type)* '>'`, the fields after the first. -/
def parseFields (input : List Token) :
    Except Failure (List ElementType × { r : List Token // r.length < input.length }) :=
  match input with
  | .greater :: rest => .ok ([], ⟨rest, by simp⟩)
  | .comma :: rest =>
    match parseType rest with
    | .ok (t, r₁) =>
      match parseFields r₁.val with
      | .ok (ts, r₂) =>
        .ok (t :: ts, ⟨r₂.val, by have := r₁.property; have := r₂.property; simp; omega⟩)
      | .error e => .error e
    | .error e => .error e
  | _ => .error .noType
termination_by input.length
decreasing_by
  · simp
  · have := r₁.property
    simp
    omega

end

/-- The fault for which tokens that spell no type are refused, by the first of them. -/
def Fault.ofTokens : List Token → Fault
  | [] => .empty
  | .name text :: _ => .unknownName text
  | found :: _ => .noType found

def parseTokens (tokens : List Token) : Except Fault ElementType :=
  match parseType tokens with
  | .ok (t, ⟨[], _⟩) => .ok t
  | .ok (_, ⟨found :: _, _⟩) => .error (.trailing found)
  | .error .noType => .error (.ofTokens tokens)
  | .error (.noRoom n) => .error (.noRoom n)

/-- Read an element type. The first stray text decides over everything else. -/
def parse (source : String) : Except Fault ElementType :=
  let items := scan source
  match items.findSome? Item.stray? with
  | some (text, _) => .error (.stray text)
  | none => parseTokens (items.filterMap fun i => i.token?.map Prod.fst)

end Kernelwright.Grammar
