import Kernelwright.Json.Value
import Kernelwright.Text.Hex

/-!
# Writing JSON

Two forms: `compact`, without any blanks, and `pretty`, with one member or item a line, indented by
two spaces a level; an empty container is written on one line. Strings escape the quote, the
backslash and the control characters and nothing else.
-/

namespace Kernelwright.Json

/-! ### Strings -/

def escapeChar (c : Char) : List Char :=
  if c = '"' then ['\\', '"']
  else if c = '\\' then ['\\', '\\']
  else if c = '\n' then ['\\', 'n']
  else if c = '\r' then ['\\', 'r']
  else if c = '\t' then ['\\', 't']
  else if c.toNat = 0x08 then ['\\', 'b']
  else if c.toNat = 0x0c then ['\\', 'f']
  else if c.toNat < 0x20 then
    ['\\', 'u', '0', '0', Text.Hex.digit (c.toNat / 16), Text.Hex.digit (c.toNat % 16)]
  else [c]

def quote (s : String) : String := String.ofList ('"' :: s.toList.flatMap escapeChar ++ ['"'])

/-- A string value; one that is no sequence of characters is written as an empty string. -/
def quote? (s : Option String) : String := quote (s.getD "")

/-! ### Compact form -/

mutual

/-- The value without blanks. -/
def compact : Json → String
  | .null => "null"
  | .bool b => if b then "true" else "false"
  | .number lexeme => lexeme
  | .string s => quote? s
  | .array items => "[" ++ compactItems items ++ "]"
  | .object ms => "\x7b" ++ compactMembers ms ++ "\x7d"

def compactItems : List Json → String
  | [] => ""
  | [v] => compact v
  | v :: vs => compact v ++ "," ++ compactItems vs

def compactMembers : List (Option String × Json) → String
  | [] => ""
  | [(k, v)] => quote? k ++ ":" ++ compact v
  | (k, v) :: ms => quote? k ++ ":" ++ compact v ++ "," ++ compactMembers ms

end

/-! ### Pretty form -/

/-- A line break and the indentation of a level. -/
def newline (level : Nat) : String := "\n" ++ String.ofList (List.replicate (2 * level) ' ')

mutual

/-- The value with one item or member a line, standing at a given level. -/
def prettyAt (level : Nat) : Json → String
  | .array items =>
    if items.isEmpty then "[]" else "[" ++ prettyItems (level + 1) items ++ newline level ++ "]"
  | .object ms =>
    if ms.isEmpty then "\x7b\x7d"
    else "\x7b" ++ prettyMembers (level + 1) ms ++ newline level ++ "\x7d"
  | .null => "null"
  | .bool b => if b then "true" else "false"
  | .number lexeme => lexeme
  | .string s => quote? s

/-- Items, each on a line of its own. -/
def prettyItems (level : Nat) : List Json → String
  | [] => ""
  | [v] => newline level ++ prettyAt level v
  | v :: vs => newline level ++ prettyAt level v ++ "," ++ prettyItems level vs

/-- Members, each on a line of its own. -/
def prettyMembers (level : Nat) : List (Option String × Json) → String
  | [] => ""
  | [(k, v)] => newline level ++ quote? k ++ ": " ++ prettyAt level v
  | (k, v) :: ms =>
    newline level ++ quote? k ++ ": " ++ prettyAt level v ++ "," ++ prettyMembers level ms

end

/-- The value with one item or member a line. -/
def pretty (v : Json) : String := prettyAt 0 v

end Kernelwright.Json
