import Kernelwright.Text.Quoted

/-!
# Tokens of the element-type grammar

The first stage of reading a type such as `Tuple2<Float, Integer>` or `Tuple3::Double`:

    source ──scan──▶ items (tokens and stray texts, each with its span) ──parse──▶ ElementType

Blanks (space, tab, carriage return, line feed) only separate. Everything else is covered: by the
longest token that fits, or by a *stray* item for a text that begins no token. Scanning goes on
after a stray, so a source has a full list of items whatever it holds.
-/

namespace Kernelwright.Grammar

/-- A token of the grammar. A name token carries its text; `tuple` carries the declared arity. -/
inductive Token where
  | tuple (arity : Nat)
  | less
  | greater
  | comma
  | path
  | name (text : String)
deriving DecidableEq, Repr, Inhabited

def Token.text : Token → String
  | .tuple n => "Tuple" ++ toString n
  | .less => "<"
  | .greater => ">"
  | .comma => ","
  | .path => "::"
  | .name _ => "<type name>"

/-- A half-open range of byte offsets into the source. -/
structure Span where
  start : Nat
  stop : Nat
deriving DecidableEq, Repr, Inhabited

/-- A piece of source text that is no blank. -/
inductive Item where
  | token (t : Token) (span : Span)
  | stray (text : String) (span : Span)
deriving DecidableEq, Repr, Inhabited

/-! ### Character classes -/

/-- The blanks between tokens. -/
def isSpace (c : Char) : Bool := c = ' ' || c = '\t' || c = '\r' || c = '\n'

/-- The letters of names: `A` to `Z` and `a` to `z`. -/
def isLetter (c : Char) : Bool := ('A' ≤ c && c ≤ 'Z') || ('a' ≤ c && c ≤ 'z')

def isDigit (c : Char) : Bool := '0' ≤ c && c ≤ '9'

/-- The number written by decimal digits. -/
def decimalValue (ds : List Char) : Nat := ds.foldl (fun n d => 10 * n + (d.toNat - '0'.toNat)) 0

def byteLength (cs : List Char) : Nat := cs.foldr (fun c n => c.utf8Size + n) 0

/-! ### One item -/

/-- The word `Tuple`, which begins an arity token when digits follow it. -/
def tupleWord : List Char := ['T', 'u', 'p', 'l', 'e']

/-- A tuple token for the digits after `Tuple`, or a stray when the arity does not fit a machine
word. -/
def arityItem (digits : List Char) (span : Span) : Item :=
  let n := decimalValue digits
  if n < UInt64.size then .token (.tuple n) span
  else .stray (String.ofList (tupleWord ++ digits)) span

/-- What the source `c :: rest` starts with at byte `pos`, by the longest match, and the characters
left after it. -/
def firstItem (pos : Nat) (c : Char) (rest : List Char) : Item × List Char :=
  if isLetter c then
    let word := c :: rest.takeWhile isLetter
    let after := rest.dropWhile isLetter
    let digits := after.takeWhile isDigit
    if word = tupleWord ∧ digits ≠ [] then
      (arityItem digits ⟨pos, pos + word.length + digits.length⟩, after.dropWhile isDigit)
    else (.token (.name (String.ofList word)) ⟨pos, pos + word.length⟩, after)
  else if c = '<' then (.token .less ⟨pos, pos + 1⟩, rest)
  else if c = '>' then (.token .greater ⟨pos, pos + 1⟩, rest)
  else if c = ',' then (.token .comma ⟨pos, pos + 1⟩, rest)
  else match c, rest with
    | ':', ':' :: rest => (.token .path ⟨pos, pos + 2⟩, rest)
    | c, rest => (.stray (String.ofList [c]) ⟨pos, pos + c.utf8Size⟩, rest)

/-- The end of an item's span. -/
def Item.stop : Item → Nat
  | .token _ s | .stray _ s => s.stop

theorem length_dropWhile_le (p : Char → Bool) :
    ∀ cs : List Char, (cs.dropWhile p).length ≤ cs.length
  | [] => Nat.le_refl _
  | c :: cs => by
    rw [List.dropWhile_cons]
    split
    · exact Nat.le_succ_of_le (length_dropWhile_le p cs)
    · exact Nat.le_refl _

/-- An item consumes at least one character. -/
theorem length_firstItem_le (pos : Nat) (c : Char) (rest : List Char) :
    (firstItem pos c rest).2.length ≤ rest.length := by
  have h₁ := length_dropWhile_le isLetter rest
  have h₂ := length_dropWhile_le isDigit (rest.dropWhile isLetter)
  unfold firstItem
  dsimp only
  repeat' split
  all_goals simp only [List.length_cons]
  all_goals omega

/-! ### The scanner -/

/-- The items of the source `cs`, whose first character stands at byte `pos`. -/
def scanFrom (pos : Nat) : List Char → List Item
  | [] => []
  | c :: rest =>
    if isSpace c then scanFrom (pos + 1) rest
    else
      let item := (firstItem pos c rest).1
      item :: scanFrom item.stop (firstItem pos c rest).2
termination_by cs => cs.length
decreasing_by
  · simp
  · have := length_firstItem_le pos c rest
    simp only [List.length_cons]
    omega

def scan (source : String) : List Item := scanFrom 0 source.toList

/-- The token of an item, with its span. -/
def Item.token? : Item → Option (Token × Span)
  | .token t s => some (t, s)
  | .stray _ _ => none

/-- The text of a stray item, with its span. -/
def Item.stray? : Item → Option (String × Span)
  | .token _ _ => none
  | .stray text s => some (text, s)

def strayMessage (text : String) : String := "unexpected character: " ++ Text.quoted text

end Kernelwright.Grammar
