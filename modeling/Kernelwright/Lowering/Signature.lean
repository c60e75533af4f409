import Kernelwright.Lowering.Context

/-!
# Signatures

The parameters of a function or kernel, and what follows from them: the names of the parameter
nodes, the dimension variables of arrays, and the structs that the parameters need. An array travels
with its index metadata. A kernel may take an array of tuples as one pointer a field; the pointers
of an input share one piece of metadata, named after the last of them, and those of the output have
none.
-/

namespace Kernelwright.Lowering

open Code

/-- A signature under construction. -/
structure Signature where
  parameters : List Parameter
  /-- The arrays that need a dimension variable. -/
  dimensions : List Name
  symbols : SymbolTable Name
  structs : Structs
  inputs : List FieldPointer
  outputs : List FieldPointer
  splitInput : Option (NodeId × Name)
  splitOutput : Option NodeId
  scope : List Argument
  /-- The number of the next kernel parameter. -/
  next : Nat
deriving DecidableEq, Repr

namespace Signature

def empty (structs : Structs) : Signature :=
  ⟨[], [], .empty, structs, [], [], none, none, [], 0⟩

def push (s : Signature) (p : Parameter) : Signature := { s with parameters := s.parameters ++ [p] }

/-- Declare the struct of a type. -/
def needs (s : Signature) : CType → Signature
  | .struct t => { s with structs := s.structs.register t }
  | _ => s

def bind (s : Signature) (name : Name) (node : NodeId) (kind : ValueKind) : Signature :=
  { s with symbols := s.symbols.bind name node kind }

def declare (s : Signature) (name : Name) (type : ParameterType) : Except KernelError Signature :=
  match type with
  | .array element =>
    match CType.ofKind? (.ofType element) with
    | none => .error (.missingType ("element type " ++ element.text))
    | some c =>
      let s := ((s.needs c).push (.pointer c name)).push (.metadata name)
      .ok { s with dimensions := s.dimensions ++ [name] }
  | type =>
    match CType.ofKind? type.valueKind with
    | none => .error (.missingType ("parameter " ++ name.text))
    | some c => .ok ((s.needs c).push (.byValue c name))

/-- Take the name of the next kernel parameter. -/
def takeName (s : Signature) : Name × Signature :=
  (.parameter s.next, { s with next := s.next + 1 })

/-! ### Functions -/

/-- Add a parameter of a function; it is named by its index. -/
def addParameter (s : Signature) (p : Graph.Parameter) : Except KernelError Signature := do
  let name := Name.parameter p.index.toNat
  return (← s.declare name p.type).bind name p.node p.type.valueKind

/-- Add the deoptimization flag, where guards are written. -/
def addFlag (s : Signature) (guards : Bool) : Signature :=
  if guards then s.push .deoptFlag else s

def ofFunction (g : Graph) (structs : Structs) (guards : Bool) : Except KernelError Signature := do
  let s ← g.parameters.foldlM addParameter (empty structs)
  return s.addFlag guards

/-! ### Kernels -/

def addFieldPointer (s : Signature) (isOutput : Bool) (kind : ScalarKind) (field : Nat) :
    FieldPointer × Signature :=
  let (name, s) := s.takeName
  let p : FieldPointer := ⟨name, field, kind⟩
  let s := s.push (.pointer (.scalar kind) name)
  (p, if isOutput then { s with outputs := s.outputs ++ [p] } else
    { s with inputs := s.inputs ++ [p] })

/-- Add the pointers for the fields of an array of tuples, from a field on. -/
def addFieldPointers (s : Signature) (isOutput : Bool) (element : ElementType) (field : Nat) :
    List ElementType → Except KernelError (List Name × Signature)
  | [] => .ok ([], s)
  | t :: ts => do
    match t.scalarKind? with
    | none => .error (.missingType ("structure-of-arrays field " ++ toString field ++ " of "
        ++ element.text ++ " is not scalar"))
    | some kind =>
      let (p, s) := s.addFieldPointer isOutput kind field
      let (names, s) ← s.addFieldPointers isOutput element (field + 1) ts
      return (p.name :: names, s)

/-- Add an array of tuples that is passed field by field. -/
def addSplit (s : Signature) (p : Graph.Parameter) (element : ElementType) :
    Except KernelError Signature := do
  let isOutput : Bool := p.index = Skeleton.outputParameter
  let (names, s) ← s.addFieldPointers isOutput element 0 element.fields
  match names.head?, names.getLast? with
  | some first, some last =>
    if isOutput then
      return { s with splitOutput := some p.node }.bind first p.node (.array element)
    else
      let s := s.push (.metadata last)
      return { s with
        dimensions := s.dimensions ++ [last]
        splitInput := some (p.node, last) }.bind last p.node (.array element)
  | _, _ => .error (.missingType ("empty tuple " ++ element.text))

/-- Add a parameter of a kernel; kernel parameters are named in order. -/
def addKernelParameter (soa : Bool) (s : Signature) (p : Graph.Parameter) :
    Except KernelError Signature := do
  match p.type with
  | .array element => if element.needsStruct ∧ soa then return ← s.addSplit p element
  | _ => pure ()
  let (name, s) := s.takeName
  return (← s.declare name p.type).bind name p.node p.type.valueKind

/-- Add a parameter for a value of the lambda's scope, which is passed on to the lambda. -/
def addScope (s : Signature) (p : Graph.Parameter) : Except KernelError Signature := do
  let (name, s) := s.takeName
  let s ← s.declare name p.type
  let arg := if p.type.isArray then Argument.withMetadata name else .name name
  return { s with scope := s.scope ++ [arg] }

/-- The parameters of a lambda that come from its scope: all but the elements that the computation
passes. -/
def scopeParameters (lambda : Graph) (computation : Computation) :
    Except KernelError (List Graph.Parameter) :=
  let ps := lambda.parameters
  let arity := computation.lambdaArity
  if ps.length < arity then
    .error (.missingType ("lambda `" ++ lambda.name ++ "` takes " ++ toString ps.length
      ++ " parameters, expected at least " ++ toString arity))
  else .ok (ps.take (ps.length - arity))

def ofKernel (skeleton lambda : Graph) (computation : Computation) (structs : Structs)
    (soa guards : Bool) : Except KernelError Signature := do
  let s ← skeleton.parameters.foldlM (addKernelParameter soa) (empty structs)
  let s ← (← scopeParameters lambda computation).foldlM addScope s
  return s.addFlag guards

def site (s : Signature) (graph : Graph) (mode : Mode) (guards : Bool) : Site where
  graph := graph
  mode := mode
  guards := guards
  inputs := s.inputs
  outputs := s.outputs
  splitInput := s.splitInput
  splitOutput := s.splitOutput
  scope := s.scope

def extra (s : Signature) : ExtraArrays :=
  ⟨s.inputs.map FieldPointer.extra, s.outputs.map FieldPointer.extra⟩

end Signature

end Kernelwright.Lowering
