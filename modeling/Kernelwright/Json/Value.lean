/-!
# JSON values

A JSON value as it is read and written. A number keeps its lexeme, since how much of it is kept
depends on what it is read as; members keep their order. A string is `none` when its escapes spell
half of a surrogate pair: such a text is well-formed JSON and no sequence of characters.
-/

namespace Kernelwright

/-- A JSON value. -/
inductive Json where
  | null
  | bool (b : Bool)
  | number (lexeme : String)
  | string (text : Option String)
  | array (items : List Json)
  | object (members : List (Option String × Json))
deriving Repr, Inhabited

namespace Json

def text (s : String) : Json := .string (some s)

/-- An integer. -/
def int (n : Int) : Json := .number (toString n)

def nat (n : Nat) : Json := .number (toString n)

def members (ms : List (String × Json)) : Json := .object (ms.map fun (k, v) => (some k, v))

/-- An object with a single member, the form of a tagged value. -/
def tagged (tag : String) (v : Json) : Json := .object [(some tag, v)]

/-- A value or `null`. -/
def ofOption (f : α → Json) : Option α → Json
  | none => .null
  | some a => f a

end Json

end Kernelwright
