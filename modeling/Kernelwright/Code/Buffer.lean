import Kernelwright.Text.Blank
import Kernelwright.Text.Lines

/-!
# Code buffers

A code buffer collects kernel text line by line. It knows how deep in blocks it is, and the last
line of code that was written, by which repeated lines and lines after a return are left out.
Comments are written only where they are asked for, and are not remembered as the last line.
-/

namespace Kernelwright.Code

/-- Kernel text under construction. -/
structure Buffer where
  out : String
  depth : Nat
  comments : Bool
  lastLine : String
  atLineStart : Bool
deriving DecidableEq, Repr

namespace Buffer

def empty (comments : Bool) : Buffer := ⟨"", 0, comments, "", true⟩

def indentation (depth : Nat) : String := String.ofList (List.replicate (4 * depth) ' ')

def beginBlock (b : Buffer) : Buffer := { b with depth := b.depth + 1 }

def endBlock (b : Buffer) : Buffer := { b with depth := b.depth - 1 }

/-- Write a comment on a line of its own, where comments are asked for. -/
def comment (b : Buffer) (s : String) : Buffer :=
  if b.comments then
    { b with out := b.out ++ indentation b.depth ++ "/* " ++ s ++ " */\n", atLineStart := true }
  else b

/-- Write a line of code, or complete the line that is open. -/
def line (b : Buffer) (code : String) : Buffer :=
  { b with
    out := b.out ++ (if b.atLineStart then indentation b.depth else " ") ++ code ++ "\n"
    atLineStart := true
    lastLine := code }

def lineUnlessRepeated (b : Buffer) (code : String) : Buffer :=
  if code = b.lastLine then b else b.line code

def lineUnlessReturned (b : Buffer) (code : String) : Buffer :=
  if (Text.trimStart b.lastLine).startsWith "return" then b else b.line code

/-- Write the start of a line, which the next line of code completes. -/
def openLine (b : Buffer) (s : String) : Buffer :=
  { b with
    out := b.out ++ (if b.atLineStart then indentation b.depth else "") ++ s
    atLineStart := false }

def length (b : Buffer) : Nat := b.out.utf8ByteSize

def lineCount (b : Buffer) : Nat := (Text.lines b.out).length

/-- Drop the last `n` lines; the last line that is left counts as the last one written. -/
def removeLast (b : Buffer) (n : Nat) : Buffer :=
  let lines := Text.lines b.out
  let kept := lines.take (lines.length - n)
  { b with
    out := Text.unlines kept
    atLineStart := true
    lastLine := ((Text.lines (Text.unlines kept)).getLast?).elim "" Text.trim }

end Buffer

end Kernelwright.Code
