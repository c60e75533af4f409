import Kernelwright.Graph.Typing
import Kernelwright.Host.Machine

/-!
# Evaluating operations

The value of one operation, given how operands are evaluated and how lambdas are called. Each
operand is evaluated when it is needed, in order; only the chosen side of a conditional is.
-/

namespace Kernelwright.Host

/-- The lambda of a name; of several, the last. -/
def lambda? (lambdas : List Graph) (name : String) : Option Graph :=
  lambdas.reverse.find? (·.name == name)

/-- The lambda of a name, which has to be there. -/
def findLambda (lambdas : List Graph) (name : String) : Run Graph :=
  .ofOption (lambda? lambdas name) (.noLambda name)

/-- How nodes are evaluated and lambdas are called. -/
structure Semantics where
  lambdas : List Graph
  eval : NodeId → Run Slot
  call : Graph → List Slot → Run Slot

namespace Semantics

def value (sem : Semantics) (id : NodeId) : Run Value := do
  match ← sem.eval id with
  | .value v => return v
  | _ => .fail (.noValue id)

def array (sem : Semantics) (id : NodeId) : Run Nat := do
  match ← sem.eval id with
  | .array handle => return handle
  | _ => .fail (.noArray id)

/-- Nodes as element values, in order. -/
def values (sem : Semantics) : List NodeId → Run (List Value)
  | [] => return []
  | id :: ids => do
    let v ← sem.value id
    return v :: (← sem.values ids)

/-- Nodes, in order. -/
def slots (sem : Semantics) : List NodeId → Run (List Slot)
  | [] => return []
  | id :: ids => do
    let s ← sem.eval id
    return s :: (← sem.slots ids)

def load (sem : Semantics) (id array index : NodeId) : Run Value := do
  let handle ← sem.array array
  let i := (← sem.value index).asInt64
  let vs ← Run.items handle
  .ofOption ((position? i).bind (vs[·]?)) (.loadOutOfRange i id)

/-- An invocation. The results of lambdas and built-in functions are converted to the type that the
invocation declares. -/
def invoke (sem : Semantics) (id : NodeId) (args : List NodeId) (result : ElementType) :
    CallTarget → Run Slot
  | .tupleField _ component => do
    let f ← Run.frame
    let object ← Run.ofOption args.head? (.graph (f.graph.misplaced id))
    let v ← sem.value object
    let c ← Run.ofOption (v.field? component.toNat) (.componentOutOfRange component id)
    return .value c
  | .lambda name => do
    let callee ← findLambda sem.lambdas name
    match ← sem.call callee (← sem.slots args) with
    | .value v => return .value (v.castTo result)
    | s => return s
  | .builtin name => do
    let v ← Run.ofOption (builtin? name (← sem.values args)) (.unknownBuiltin name id)
    return .value (v.castTo result)

/-- A lambda applied to elements of an array, from a position on. -/
def mapFrom (sem : Semantics) (callee : Graph) (lambda : String) (element : ElementType)
    (handle : Nat) : Nat → Nat → Run (List Value)
  | _, 0 => return []
  | i, count + 1 => do
    let v ← Run.ofOption (← Run.items handle)[i]? (.dangling handle)
    match ← sem.call callee [.value v] with
    | .value r => return r.castTo element ::
      (← sem.mapFrom callee lambda element handle (i + 1) count)
    | _ => .fail (.fusedResult lambda)

def operation (sem : Semantics) (id : NodeId) : Operation → Run Slot
  | .parameter index _ => do
    let f ← Run.frame
    .ofOption f.args[index.toNat]? (.missingArgument index f.graph.name)
  | .phi _ _ => do .ofOption ((← Run.frame).phis.get? id) (.unassignedPhi id)
  | .constant v => return .value v
  | .unary op x => return .value (unary op (← sem.value x))
  | .binary op x y => do
    let kind ← Run.ofOption ((← Run.frame).graph.valueKind id).scalar? (.noScalarKind id)
    let a ← sem.value x
    let b ← sem.value y
    match binary op kind a b with
    | .ok v => return .value v
    | .error e => .fail (.arithmetic e id)
  | .compare op x y => do
    let a ← sem.value x
    let b ← sem.value y
    return .value (.scalar (.boolean (satisfies op a b)))
  | .normalizeCompare x y => do
    let a ← sem.value x
    let b ← sem.value y
    return .value (.scalar (.int (sign a b)))
  | .conditional c t e => do
    let c ← sem.value c
    if c.asBool then sem.eval t else sem.eval e
  | .convert target v => return .value ((← sem.value v).cast target)
  | .relabel _ v => sem.eval v
  | .math op args => do
    let kind := ((← Run.frame).graph.valueKind id).scalar?.getD .double
    let xs := (← sem.values args).map Value.asFloat
    return .value (.scalar ((Scalar.double (math op xs)).cast kind))
  | .arrayLength array => do
    let vs ← Run.items (← sem.array array)
    return .value (.scalar (.int (Int32.ofNat vs.size)))
  | .loadIndexed array index => return .value (← sem.load id array index)
  | .loadField object field => do
    let v ← sem.value object
    return .value (← .ofOption (v.field? field.toNat) (.fieldOutOfRange field id))
  | .newInstance type fields => do
    match type.needsStruct, ← sem.values fields with
    | false, [v] => return .value v
    | _, vs => return .value (.tuple vs)
  | .newArray element length =>
    if Memory.fits length.toNat Memory.valueBytes then
      .allocate (Array.replicate length.toNat (.scalar (.zero element)))
    else .fail (.noRoom length id)
  | .invoke target args result => sem.invoke id args result target
  | .mapChain lambda array capacity element => do
    let callee ← findLambda sem.lambdas lambda
    let handle ← sem.array array
    let size := (← Run.items handle).size
    let vs ← sem.mapFrom callee lambda element handle 0 (min size capacity.toNat)
    .allocate vs.toArray

/-- Whether an operation makes an array of its own. -/
def allocates : Operation → Bool
  | .newArray .. | .mapChain .. => true
  | _ => false

/-- The value of a node, evaluated only if it is not known yet. -/
def node (sem : Semantics) (id : NodeId) : Run Slot := do
  let f ← Run.frame
  match f.known? id with
  | some s => return s
  | none =>
    match ← Run.ofGraph (f.graph.kind id) with
    | .operation o =>
      let s ← sem.operation id o
      if allocates o then Run.keep id s else Run.remember id s
      return s
    | .unsupported name _ _ => .fail (.noSemantics name id)
    | .control _ => .fail (.graph (f.graph.misplaced id))

end Semantics

end Kernelwright.Host
