import Kernelwright.Element.Grammar.Token
import Kernelwright.Proofs.Program.Meaning

/-!
# Reading kernel text

The reader of programs: text is cut into tokens, and tokens are read by recursive descent. Operators
bind as in C, so that of `a + b << c` the sum is shifted. Literals are decimal; one without a suffix
is an `int` where it fits and a `long` else. The number behind the minus of the least `long` is a
`ulong`.
-/

namespace Kernelwright.Program

open Grammar (isLetter isDigit isSpace decimalValue)

/-! ### Tokens -/

/-- A token of kernel text. -/
inductive Token where
  /-- A variable or a literal. -/
  | operand (e : Expr)
  | type (t : Ty)
  | operator (op : Operator)
  | bang
  | tilde
  | question
  | colon
  | assign
  | comma
  | semicolon
  | openParen
  | closeParen
  | openBrace
  | closeBrace
  | ifWord
  | elseWord
  | returnWord
  | globalWord
deriving DecidableEq, Repr

def reservedWords : List (String × Token) :=
  [("if", .ifWord), ("else", .elseWord), ("return", .returnWord), ("__global", .globalWord),
    ("bool", .type .bool), ("char", .type .char), ("uchar", .type .uchar), ("short", .type .short),
    ("int", .type .int), ("uint", .type .uint), ("long", .type .long), ("ulong", .type .ulong),
    ("true", .operand (.literal (.bool true))), ("false", .operand (.literal (.bool false)))]

/-- The literal of a number that is an `int` unless it is marked or too large; a number that does
not fit a `ulong` has none. -/
def literal? (n : Nat) (marked : Bool) : Option Token :=
  if n < 2147483648 ∧ ¬marked then some (.operand (.literal (.int (.ofNat n))))
  else if n < 9223372036854775808 then some (.operand (.literal (.long (.ofNat n))))
  else if n < 18446744073709551616 then some (.operand (.literal (.ulong (.ofNat n))))
  else none

/-- A numeral with or without the mark of a `long`. -/
def numeral? (w : List Char) : Option Token :=
  match w.dropWhile isDigit with
  | [] => literal? (decimalValue (w.takeWhile isDigit)) false
  | ['L'] => literal? (decimalValue (w.takeWhile isDigit)) true
  | _ => none

def isWordChar (c : Char) : Bool := isLetter c || isDigit c || c = '_'

/-- The token of a word: a numeral if it starts with a digit, else a reserved word or a variable. -/
def wordToken? (w : List Char) : Option Token :=
  match w with
  | [] => none
  | c :: _ =>
    if isDigit c then numeral? w
    else some ((reservedWords.lookup (String.ofList w)).getD (.operand (.var (String.ofList w))))

def single? : Char → Option Token
  | '*' => some (.operator .mul)
  | '/' => some (.operator .div)
  | '%' => some (.operator .rem)
  | '+' => some (.operator .add)
  | '-' => some (.operator .sub)
  | '<' => some (.operator .less)
  | '>' => some (.operator .greater)
  | '&' => some (.operator .and)
  | '^' => some (.operator .xor)
  | '|' => some (.operator .or)
  | '!' => some .bang
  | '~' => some .tilde
  | '?' => some .question
  | ':' => some .colon
  | '=' => some .assign
  | ',' => some .comma
  | ';' => some .semicolon
  | '(' => some .openParen
  | ')' => some .closeParen
  | '\x7b' => some .openBrace
  | '\x7d' => some .closeBrace
  | _ => none

def pair? : Char → Char → Option Token
  | '<', '<' => some (.operator .shl)
  | '>', '>' => some (.operator .shr)
  | '<', '=' => some (.operator .lessEqual)
  | '>', '=' => some (.operator .greaterEqual)
  | '=', '=' => some (.operator .equal)
  | '!', '=' => some (.operator .unequal)
  | _, _ => none

/-- Whether two characters belong together in C. Where they are no token here, as in `--` or `&&`,
the text cannot be read. -/
def isPair (c d : Char) : Bool :=
  (c == d && ['<', '>', '=', '&', '|', '+', '-', '/'].contains c)
    || (d == '=' && ['<', '>', '!', '+', '-', '*', '/', '%', '&', '|', '^'].contains c)
    || (c == '-' && d == '>') || (c == '/' && d == '*')

/-- The tokens of a text, each as long as it can be. -/
def tokens? : List Char → Option (List Token)
  | [] => some []
  | c :: cs =>
    if isSpace c then tokens? cs
    else if isWordChar c then do
      let t ← wordToken? (c :: cs.takeWhile isWordChar)
      return t :: (← tokens? (cs.dropWhile isWordChar))
    else
      match cs with
      | [] => do return [← single? c]
      | d :: ds =>
        if isPair c d then do return (← pair? c d) :: (← tokens? ds)
        else do return (← single? c) :: (← tokens? (d :: ds))
termination_by cs => cs.length
decreasing_by
  all_goals simp only [List.length_cons]
  · omega
  · have := (List.dropWhile_sublist isWordChar (l := cs)).length_le
    omega
  · omega
  · omega

/-! ### Expressions -/

/-- How tightly an operator binds. -/
def Operator.level : Operator → Nat
  | mul | div | rem => 7
  | add | sub => 6
  | shl | shr => 5
  | less | greater | lessEqual | greaterEqual => 4
  | equal | unequal => 3
  | and => 2
  | xor => 1
  | or => 0

/-- Pass over a token that has to be there. -/
def expect (t : Token) : List Token → Option (List Token)
  | u :: ts => if u = t then some ts else none
  | [] => none

mutual

/-- Read an operand: a variable, a literal, an operand behind a sign or a cast, or an expression in
parentheses. -/
def operand? : Nat → List Token → Option (Expr × List Token)
  | 0, _ => none
  | n + 1, ts =>
    match ts with
    | .operand e :: ts => some (e, ts)
    | .operator .sub :: ts => do
      let (e, ts) ← operand? n ts
      return (.sign .neg e, ts)
    | .bang :: ts => do
      let (e, ts) ← operand? n ts
      return (.sign .not e, ts)
    | .tilde :: ts => do
      let (e, ts) ← operand? n ts
      return (.sign .complement e, ts)
    | .openParen :: .type t :: .closeParen :: ts => do
      let (e, ts) ← operand? n ts
      return (.cast t e, ts)
    | .openParen :: ts => do
      let (e, ts) ← expr? n ts
      return (e, ← expect .closeParen ts)
    | _ => none

/-- Read operators that bind at least as tightly as `level`, and their right operands, behind the
left operand `a`. -/
def operators? : Nat → Nat → Expr → List Token → Option (Expr × List Token)
  | 0, _, _, _ => none
  | n + 1, level, a, ts =>
    match ts with
    | .operator op :: rest =>
      if op.level < level then some (a, ts)
      else do
        let (b, rest) ← operand? n rest
        let (b, rest) ← operators? n (op.level + 1) b rest
        operators? n level (.binary op a b) rest
    | _ => some (a, ts)

def expr? : Nat → List Token → Option (Expr × List Token)
  | 0, _ => none
  | n + 1, ts => do
    let (a, ts) ← operand? n ts
    let (a, ts) ← operators? n 0 a ts
    match ts with
    | .question :: ts => do
      let (t, ts) ← expr? n ts
      let (f, ts) ← expr? n (← expect .colon ts)
      return (.select a t f, ts)
    | _ => some (a, ts)

end

/-! ### Statements and functions -/

def closedExpr? (n : Nat) (ts : List Token) : Option (Expr × List Token) := do
  let (e, ts) ← expr? n ts
  return (e, ← expect .semicolon ts)

/-- Read a statement that is no branch. -/
def simple? (n : Nat) : List Token → Option (Stmt × List Token)
  | .type t :: .operand (.var x) :: .semicolon :: ts => some (.declare t x none, ts)
  | .type t :: .operand (.var x) :: .assign :: ts => do
    let (e, ts) ← closedExpr? n ts
    return (.declare t x (some e), ts)
  | .operand (.var x) :: .assign :: ts => do
    let (e, ts) ← closedExpr? n ts
    return (.assign x e, ts)
  | .returnWord :: ts => do
    let (e, ts) ← closedExpr? n ts
    return (.ret e, ts)
  | _ => none

/-- Read statements up to the end of their block. -/
def block? : Nat → List Token → Option (List Stmt × List Token)
  | 0, _ => none
  | n + 1, ts =>
    match ts with
    | .closeBrace :: _ => some ([], ts)
    | .ifWord :: .openParen :: ts => do
      let (c, ts) ← expr? n ts
      let (t, ts) ← block? n (← expect .openBrace (← expect .closeParen ts))
      let ts ← expect .closeBrace ts
      if ts.head? = some .elseWord then
        let (f, ts) ← block? n (← expect .openBrace ts.tail)
        let (ss, ts) ← block? n (← expect .closeBrace ts)
        return (.branch c t f :: ss, ts)
      else
        let (ss, ts) ← block? n ts
        return (.branch c t [] :: ss, ts)
    | _ => do
      let (s, ts) ← simple? n ts
      let (ss, ts) ← block? n ts
      return (s :: ss, ts)

/-- Read parameters up to the closing parenthesis; a pointer may stand at the end. -/
def params? : List Token → Option (List Param × List Token)
  | .closeParen :: ts => some ([], ts)
  | .type t :: .operand (.var x) :: .closeParen :: ts => some ([.value t x], ts)
  | .type t :: .operand (.var x) :: .comma :: ts => do
    let (ps, ts) ← params? ts
    return (.value t x :: ps, ts)
  | .globalWord :: .type _ :: .operator .mul :: .operand (.var x) :: .closeParen :: ts =>
    some ([.pointer x], ts)
  | _ => none

/-- Read a function; no expression nests deeper than the fuel reaches. -/
def function? (ts : List Token) : Option Function :=
  match ts with
  | .type t :: .operand (.var f) :: .openParen :: rest => do
    let (ps, rest) ← params? rest
    let (ss, rest) ← block? (4 * ts.length) (← expect .openBrace rest)
    if rest = [.closeBrace] then some ⟨t, f, ps, ss⟩ else none
  | _ => none

def read (text : String) : Option Function := do function? (← tokens? text.toList)

/-- The statements that a text outside of functions holds; no expression nests deeper than the fuel
reaches. -/
def readBlock (text : String) : Option (List Stmt) := do
  let ts := (← tokens? text.toList) ++ [.closeBrace]
  let (ss, rest) ← block? (4 * ts.length + 16) ts
  if rest = [.closeBrace] then some ss else none

/-! ### Reading one statement -/

section

variable {n : Nat} {c : Expr} {s : Stmt} {t f ss : List Stmt} {ts us vs ws xs : List Token}

@[simp] theorem expect_cons (t : Token) (ts : List Token) : expect t (t :: ts) = some ts :=
  if_pos rfl

theorem block?_simple (h : simple? n ts = some (s, us)) (h' : block? n us = some (ss, vs)) :
    block? (n + 1) ts = some (s :: ss, vs) := by
  rw [block?.eq_def]
  simp only
  split
  · cases h
  · cases h
  · simp [h, h']

theorem block?_branch (hc : expr? n ts = some (c, .closeParen :: .openBrace :: us))
    (ht : block? n us = some (t, .closeBrace :: .elseWord :: .openBrace :: vs))
    (hf : block? n vs = some (f, .closeBrace :: ws)) (h : block? n ws = some (ss, xs)) :
    block? (n + 1) (.ifWord :: .openParen :: ts) = some (.branch c t f :: ss, xs) := by
  simp [block?, hc, ht, hf, h]

theorem block?_branch_of_ne (hc : expr? n ts = some (c, .closeParen :: .openBrace :: us))
    (ht : block? n us = some (t, .closeBrace :: vs)) (hne : vs.head? ≠ some .elseWord)
    (h : block? n vs = some (ss, xs)) :
    block? (n + 1) (.ifWord :: .openParen :: ts) = some (.branch c t [] :: ss, xs) := by
  simp [block?, hc, ht, hne, h]

end

end Kernelwright.Program
