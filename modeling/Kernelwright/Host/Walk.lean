import Kernelwright.Host.Operation

/-!
# The control walk on the host

A call walks the control nodes of its graph from the start. Phis are assigned where branches join
and where a loop is entered or continued. All values of a join are computed before the first of them
is assigned; on entry to a loop each phi is assigned before the next is computed.
-/

namespace Kernelwright.Host

/-- Where a step of the walk leads. -/
inductive Next where
  /-- To a node; `back` says that a back edge was taken and no loop head was passed since. -/
  | goto (node : NodeId) (back : Bool)
  | done (result : Slot)
deriving DecidableEq, Repr

namespace Semantics

/-- The slots that phis take when their merge is reached through an end. -/
def incoming (sem : Semantics) (g : Graph) (stop : NodeId) :
    List NodeId → Run (List (NodeId × Slot))
  | [] => return []
  | phi :: phis => do
    let s ← sem.eval (← Run.ofGraph (g.phiValueAt phi stop))
    return (phi, s) :: (← sem.incoming g stop phis)

def assignAll : List (NodeId × Slot) → Run PUnit
  | [] => return ⟨⟩
  | (phi, s) :: rest => do
    Run.assign phi s
    assignAll rest

/-- Assign the phis of a merge that is reached through an end. -/
def join (sem : Semantics) (g : Graph) (merge stop : NodeId) : Run PUnit := do
  assignAll (← sem.incoming g stop (g.phisOf merge))

/-- Assign the phis of a loop head that is entered. -/
def enterLoop (sem : Semantics) (g : Graph) : List NodeId → Run PUnit
  | [] => return ⟨⟩
  | phi :: phis => do
    match ← Run.ofGraph (g.kind phi) with
    | .operation (.phi _ values) =>
      let first ← Run.ofOption values.head? (.graph (g.misplaced phi))
      Run.assign phi (← sem.eval first)
      sem.enterLoop g phis
    | _ => .fail (.graph (g.misplaced phi))

def storeIndexed (sem : Semantics) (id array index value : NodeId) : Run PUnit := do
  let handle ← sem.array array
  let i := (← sem.value index).asInt64
  let v ← sem.value value
  let vs ← Run.items handle
  match position? i with
  | some p => if p < vs.size then Run.write handle p v else .fail (.storeOutOfRange i id)
  | none => .fail (.storeOutOfRange i id)

/-- Store a value in a field of a tuple. Only the remembered value of the tuple's node changes. -/
def storeField (sem : Semantics) (id object : NodeId) (field : UInt64) (value : NodeId) :
    Run PUnit := do
  let v ← sem.value value
  match ← sem.value object with
  | .tuple vs =>
    if field.toNat < vs.length then Run.remember object (.value (.tuple (vs.set field.toNat v)))
    else .fail (.fieldOutOfRange field id)
  | .scalar _ => .fail (.storeOnScalar id)

def control (sem : Semantics) (g : Graph) (id : NodeId) (back : Bool) : Control → Run Next
  | .start next | .region next | .merge next | .loopExit _ next => return .goto next back
  | .branch c t e => do
    let c ← sem.value c
    return .goto (if c.asBool then t else e) back
  | .join m => do
    sem.join g m id
    return .goto m back
  | .loopHead next _ => do
    if !back then sem.enterLoop g (g.phisOf id)
    return .goto next false
  | .backEdge head => do
    sem.join g head id
    Run.forget
    return .goto head true
  | .storeIndexed array index value next => do
    sem.storeIndexed id array index value
    return .goto next back
  | .storeField object field value next => do
    sem.storeField id object field value
    return .goto next back
  | .guard c negated next => do
    let c ← sem.value c
    if c.asBool = negated then .fail (.guardFailed id)
    return .goto next back
  | .ret none => return .done .void
  | .ret (some v) => return .done (← sem.eval v)
  | .deoptimize => .fail (.deoptimized id)

def step (sem : Semantics) (g : Graph) (id : NodeId) (back : Bool) : Run Next := do
  match ← Run.ofGraph (g.kind id) with
  | .control c => sem.control g id back c
  | .unsupported name _ _ => .fail (.noSemantics name id)
  | .operation _ => .fail (.graph (g.misplaced id))

/-- The walk from a node on, with at most `fuel` steps. -/
def walk (sem : Semantics) (g : Graph) : Nat → NodeId → Bool → Run Slot
  | 0, _, _ => .fail .outOfFuel
  | fuel + 1, id, back => do
    match ← sem.step g id back with
    | .done s => return s
    | .goto next back => sem.walk g fuel next back

end Semantics

end Kernelwright.Host
