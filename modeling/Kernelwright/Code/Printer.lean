import Kernelwright.Code.Buffer
import Kernelwright.Code.Statement

/-!
# Printed kernel text

The text of expressions, statements and functions. A function is written through a code buffer, so
that marks become comments where these are asked for, and a branch whose second arm wrote nothing
loses that arm.
-/

namespace Kernelwright.Code

/-- The placeholder for the offset of a device in the index of an element. -/
def offsetDevice : String := "<offsetDevice>"

/-! ### Expressions -/

def Place.text : Place → String
  | name n => n.text
  | field object position => object.text ++ "._" ++ toString position
  | cell array index => array.text ++ "[" ++ index.text ++ "]"
  | offsetCell array metadata index =>
    array.text ++ "[" ++ metadata.metadata ++ "[" ++ metadata.dimension ++ " + 1] + " ++ index.text
      ++ "]"

def Argument.text : Argument → String
  | name n => n.text
  | withMetadata array => array.text ++ ", " ++ array.metadata
  | place p => p.text
  | deoptFlag => "deoptFlag"

def castText (kind : ScalarKind) (operand : String) : String :=
  "(" ++ kind.cName ++ ") " ++ operand

def infixText (x : Name) (op : String) (y : Name) : String := x.text ++ " " ++ op ++ " " ++ y.text

def callText (function : String) (args : List String) : String :=
  function ++ "(" ++ ", ".intercalate args ++ ")"

def IndexRule.text (rule : IndexRule) (index : Name) : String :=
  let offset := "( " ++ index.text ++ " " ++ offsetDevice ++ " )"
  match rule with
  | shift amount => offset ++ " >> " ++ toString amount
  | divide bound => offset ++ " / " ++ toString bound
  | mask bits => offset ++ " & " ++ toString bits
  | modulo bound => offset ++ " % " ++ toString bound

def Expr.text : Expr → String
  | place p => p.text
  | neg x => "-" ++ x.text
  | not x => "!" ++ x.text
  | complement x => "~" ++ x.text
  | binary op x y => infixText x op.symbol y
  | remainder x y => callText "fmod" [x.text, y.text]
  | unsignedShift result wide x y =>
    castText result ("((" ++ (if wide then "ulong" else "uint") ++ ") " ++ infixText x
      ">>" y ++ ")")
  | compare op x y => infixText x op.symbol y
  | sign x y => infixText x "<" y ++ " ? -1 : " ++ infixText x "==" y ++ " ? 0 : 1"
  | select c t f => "(" ++ c.text ++ ") ? " ++ t.text ++ " : " ++ f.text
  | cast target x => castText target x.text
  | math op args => callText op.name (args.map fun (target, x) => match target with
      | some kind => castText kind x.text
      | none => x.text)
  | builtin function args => callText function (args.map Name.text)
  | call function args => callText function (args.map Argument.text)
  | length array => array.metadata ++ "[" ++ array.dimension ++ "]"
  | firstLength array => array.metadata ++ "[0]"
  | globalId => "get_global_id(0)"
  | minimum x capacity => callText "min" [x.text, toString capacity]
  | progressionIndex rule index => rule.text index
  | progression start stride index =>
    start.text ++ " + " ++ stride.text ++ " * " ++ index.text
  | linearProgression start stride index =>
    start.text ++ " + " ++ stride.text ++ " * (" ++ index.text ++ " " ++ offsetDevice ++ ")"

/-! ### Statements -/

def Remark.text : Remark → String
  | none => ""
  | loopBegin => " // LoopBegin"
  | initialValue => " // Initial value"

def raiseText : String := "deoptFlag[0] = get_global_id(0);"

/-- The start of the line that opens a loop, if there is one. -/
def LoopHead.text? : LoopHead → Option String
  | parallel => none
  | forever => some "for ( ; ; )"
  | reduction init bound =>
    let index := Name.reductionIndex.text
    some
      ("for (int " ++ index ++ " = " ++ init.text ++ " ; " ++ index ++ " < " ++ bound.text ++ " ; "
      ++ index ++ "++)")
  | counted index bound =>
    some ("for (int " ++ index.text ++ " = 0; " ++ index.text ++ " < " ++ bound.text ++ "; "
      ++ index.text ++ "++)")

def LoopHead.write (head : LoopHead) (b : Buffer) : Buffer :=
  (head.text?.elim b b.openLine).line "\x7b"

mutual

def Stmt.write (b : Buffer) : Stmt → Buffer
  | mark kind node => b.comment ("visited " ++ kind ++ " " ++ node.text)
  | declare type name value remark =>
    b.line (type.text ++ " " ++ name.text ++ " = " ++ value.text ++ ";" ++ remark.text)
  | reserve type name => b.line (type.text ++ " " ++ name.text ++ ";")
  | reserveArray type name capacity =>
    b.line (type.text ++ " " ++ name.text ++ "[" ++ toString capacity ++ "];")
  | dimension array => b.line ("int " ++ array.dimension ++ " = 0;")
  | globalSize => b.line "int gs = get_global_size(0);"
  | clearFlag => b.line "deoptFlag[0] = 0;"
  | raiseFlag => b.line raiseText
  | guard c negated =>
    b.line ("if (" ++ (if negated then "" else "!") ++ c.text ++ ") \x7b " ++ raiseText ++ " \x7d")
  | assign target value => b.line (target.text ++ " = " ++ value.text ++ ";")
  | ret value => b.line ("return" ++ value.elim "" (" " ++ ·.text) ++ ";")
  | leave => b.line "break;"
  | failed name node =>
    let what := name ++ " (" ++ node.text ++ ")"
    (b.line ("/* #ERROR: no lowering for " ++ what ++ " */")).line ("// #ERROR: " ++ what)
  | branch c onTrue onFalse =>
    let b := (b.line ("if (" ++ c.text ++ ") \x7b")).beginBlock
    let b := ((Stmt.writeAll b onTrue).endBlock).line "\x7d else \x7b"
    let before := b.length
    let b := (Stmt.writeAll b.beginBlock onFalse).endBlock
    (if b.length = before then b.removeLast 1 else b).line "\x7d"
  | loop head body =>
    (Stmt.writeAll (head.write b).beginBlock body).endBlock.line "\x7d"

def Stmt.writeAll (b : Buffer) : List Stmt → Buffer
  | [] => b
  | s :: ss => Stmt.writeAll (s.write b) ss

end

/-! ### Functions -/

def Parameter.text : Parameter → String
  | pointer element name => "__global " ++ element.text ++ " *" ++ name.text
  | metadata array => "__constant int *" ++ array.metadata
  | byValue type name => type.text ++ " " ++ name.text
  | deoptFlag => "__global int *deoptFlag"

/-- The text in front of the parameters of a function. -/
def Entry.text : Entry → String
  | kernel name => "__kernel void " ++ name
  | function result name => result.text ++ " " ++ name

def Function.write (f : Function) (b : Buffer) : Buffer :=
  let b := b.line (callText f.entry.text (f.parameters.map Parameter.text))
  ((Stmt.writeAll (b.line "\x7b").beginBlock f.body).endBlock).line "\x7d"

/-- The text of a function, with or without comments. -/
def Function.text (f : Function) (comments : Bool) : String := (f.write (.empty comments)).out

end Kernelwright.Code
