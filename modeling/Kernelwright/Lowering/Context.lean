import Kernelwright.Code.Diagnostic
import Kernelwright.Code.ExtraArrays
import Kernelwright.Code.Statement
import Kernelwright.Code.Structs
import Kernelwright.Code.Symbols
import Kernelwright.Graph.Skeleton
import Kernelwright.Graph.Typing

/-!
# The context of lowering

Lowering turns a graph into statements. `Site` is what it reads: the graph, what kind of function
the graph becomes, and what its signature has settled. `Progress` is what it carries along: the
names of values, the statements of the block that is being written, and what the function needs
besides. The order of statements is the order in which they are emitted.
-/

namespace Kernelwright.Lowering

open Code

/-! ### What lowering reads -/

/-- A pointer parameter for one field, counted from zero, of an array of tuples. -/
structure FieldPointer where
  name : Name
  field : Nat
  kind : ScalarKind
deriving DecidableEq, Repr

def FieldPointer.extra (p : FieldPointer) : ExtraArray := ⟨p.name.text, p.field, p.kind.cName⟩

/-- What a graph becomes: the body of a kernel, or a function. -/
inductive Mode where
  | kernel (computation : Computation) (sequence : Option SequenceLayout)
  | function
deriving DecidableEq, Repr

namespace Mode

def isKernel : Mode → Bool
  | kernel .. => true
  | function => false

def computation? : Mode → Option Computation
  | kernel c _ => some c
  | function => none

/-- The layout of a kernel's input, where that is a sequence. -/
def sequence? : Mode → Option SequenceLayout
  | kernel _ s => s
  | function => none

end Mode

/-- What the lowering of a graph reads. -/
structure Site where
  graph : Graph
  mode : Mode
  guards : Bool
  /-- The pointers of inputs and outputs that are passed field by field. -/
  inputs : List FieldPointer
  outputs : List FieldPointer
  /-- The input that is passed field by field, and the name of its metadata. -/
  splitInput : Option (NodeId × Name)
  /-- The output that is passed field by field. -/
  splitOutput : Option NodeId
  /-- The arguments that a kernel passes to its lambda ahead of the elements. -/
  scope : List Argument
deriving DecidableEq, Repr

/-! ### What lowering carries along -/

/-- A loop that is being lowered. -/
structure LoopFrame where
  /-- Whether the text has a loop at all. -/
  explicit : Bool
  reduction : Bool
deriving DecidableEq, Repr

/-- What lowering carries along. -/
structure Progress where
  symbols : SymbolTable Name
  structs : Structs
  diagnostics : List Diagnostic
  /-- The functions lowered so far, callees first. -/
  functions : List Function
  /-- The open loops, the innermost first. -/
  loops : List LoopFrame
  /-- The merges that have been lowered. -/
  merges : List NodeId
  /-- The buffers in private memory, with the names of their lengths. -/
  buffers : List (Name × Name)
  /-- The elements that were read field by field, with the names of their indices. -/
  elements : List (NodeId × Name)
  /-- The statements of the current block, the latest first. -/
  block : List Stmt
deriving Repr

abbrev Lower := StateT Progress (Except KernelError)

def Progress.start (symbols : SymbolTable Name) (structs : Structs) : Progress :=
  ⟨symbols, structs, [], [], [], [], [], [], []⟩

/-! ### Steps -/

/-- Add a statement to the current block. -/
def emit (s : Stmt) : Lower Unit := modify fun p => { p with block := s :: p.block }

/-- Lower into a block of its own, and give the statements in order. -/
def inBlock (body : Lower α) : Lower (α × List Stmt) := do
  let outer := (← get).block
  modify fun p => { p with block := [] }
  let result ← body
  let inner := (← get).block.reverse
  modify fun p => { p with block := outer }
  return (result, inner)

def inScope (body : Lower α) : Lower α := do
  modify fun p => { p with symbols := p.symbols.enter }
  let result ← body
  modify fun p => { p with symbols := p.symbols.exit }
  return result

def bind (name : Name) (node : NodeId) (kind : ValueKind) : Lower Unit :=
  modify fun p => { p with symbols := p.symbols.bind name node kind }

def share (node source : NodeId) : Lower Unit :=
  modify fun p => { p with symbols := (p.symbols.share? node source).getD p.symbols }

/-- The name of a node, if it has one. -/
def nameOf? (node : NodeId) : Lower (Option Name) := do
  return (← get).symbols.nameOf? node

def fresh (role : Role) : Lower Name := do
  let (n, symbols) := (← get).symbols.fresh
  modify fun p => { p with symbols := symbols }
  return .fresh role n

def report (d : Diagnostic) : Lower Unit :=
  modify fun p => { p with diagnostics := p.diagnostics ++ [d] }

/-- Leave a value out of the text, with a warning. -/
def suppress (node : NodeId) (what : String) : Lower Name := do
  report (.warning .illegalValue node (what ++ "; emission suppressed"))
  bind .illegal node .illegal
  return .illegal

/-- Mark a node in the text that nothing can be done with. -/
def fail (node : NodeId) (name : String) : Lower Name := do
  emit (.failed name node)
  report { Diagnostic.warning .genericHandler node ("no lowering for `" ++ name ++ "`") with
    hint := some "the kernel is incomplete; run the host fallback" }
  bind .illegal node .illegal
  return .illegal

/-- The type of a kind; its struct is declared on the way. -/
def typeOf? (kind : ValueKind) : Lower (Option CType) := do
  match CType.ofKind? kind with
  | some (.struct t) =>
    modify fun p => { p with structs := p.structs.register t }
    return some (.struct t)
  | type => return type

def declare (node : NodeId) (role : Role) (kind : ValueKind) (value : Expr) : Lower Name := do
  match ← typeOf? kind with
  | none => suppress node "value has no OpenCL type"
  | some type =>
    let name ← fresh role
    emit (.declare type name value .none)
    bind name node kind
    return name

/-- Add a return unless the block just returned the same. -/
def emitReturn (value : Option Name) : Lower Unit := do
  match Stmt.last? (← get).block with
  | some (.ret v) => if v = value then return () else emit (.ret value)
  | _ => emit (.ret value)

/-- Leave the loop unless the block just returned. -/
def emitLeave : Lower Unit := do
  match Stmt.last? (← get).block with
  | some (.ret _) => return ()
  | _ => emit .leave

def bufferLength? (array : Name) : Lower (Option Name) := do
  return (← get).buffers.lookup array

/-- Record a buffer in private memory. -/
def addBuffer (array length : Name) : Lower Unit :=
  modify fun p => { p with buffers := (array, length) :: p.buffers }

end Kernelwright.Lowering
