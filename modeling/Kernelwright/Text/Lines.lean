/-!
# Lines of a text

A line ends at a line feed, and a carriage return right before it belongs to the end of the line.
What follows the last line feed is a line only when it is not empty, and it keeps a carriage return
at its end, as no line feed follows.
-/

namespace Kernelwright.Text

/-- A finished line, given reversed: without the carriage return at its end. -/
def closeLine : List Char → List Char
  | '\r' :: rest => rest.reverse
  | line => line.reverse

/-- The lines of `cs`, where `current` is the start of the current line, reversed. -/
def linesFrom (current : List Char) : List Char → List (List Char)
  | [] => if current.isEmpty then [] else [current.reverse]
  | '\n' :: rest => closeLine current :: linesFrom [] rest
  | c :: rest => linesFrom (c :: current) rest

def lines (s : String) : List String := (linesFrom [] s.toList).map String.ofList

/-- The text of a list of lines, each ended by a line feed. -/
def unlines (ls : List String) : String := ls.foldl (fun text line => text ++ line ++ "\n") ""

end Kernelwright.Text
