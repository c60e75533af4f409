import Kernelwright.Lowering.Value

/-!
# Lowering control flow

Control nodes are lowered in the order of the walk. The lowering of a node and of everything after
it gives the merge at which the path ended, if it ended at one; the branch around it continues
there. A merge is lowered once.
-/

namespace Kernelwright.Lowering

open Code

/-- The lowering of a control node and of everything after it. -/
abbrev Walk := NodeId → Lower (Option NodeId)

/-! ### Merges and loops -/

/-- The names of the phis of a merge, paired with the names of their values through an end. -/
def phiValues (site : Site) (value : Values) (merge stop : NodeId) : Lower (List (NodeId × Name)) :=
  (site.graph.phisOf merge).mapM fun phi => do
    let v ← value (← site.graph.phiValueAt phi stop)
    return (phi, v)

/-- Assign values to phis. What has no legal name on either side is passed over. -/
def assignPhis : List (NodeId × Name) → Lower Unit
  | [] => return ()
  | (phi, v) :: rest => do
    match ← nameOf? phi with
    | some target =>
      if v ≠ .illegal ∧ target ≠ .illegal then
        emit (.assign (.name target) (.place (.name v)))
    | none => pure ()
    assignPhis rest

def lowerJoin (site : Site) (value : Values) (id merge : NodeId) : Lower (Option NodeId) := do
  assignPhis (← phiValues site value merge id)
  return some merge

/-- Lower a branch, and go on at the merge of its arms. -/
def lowerBranch (site : Site) (value : Values) (walk : Walk)
    (id condition onTrue onFalse : NodeId) :
    Lower (Option NodeId) := do
  let c ← value condition
  if c = .illegal then throw (site.graph.misplaced id)
  let (t, trueArm) ← inBlock (walk onTrue)
  let (f, falseArm) ← inBlock (walk onFalse)
  emit (.branch c trueArm falseArm)
  match t, f with
  | some a, some b => if a = b then walk a else throw (site.graph.misplaced b)
  | some a, none => walk a
  | none, some b => walk b
  | none, none => return none

/-- What kind of loop the text gets. The outermost loop of a kernel is its computation. -/
inductive LoopSort where
  | parallel
  | reduction
  | explicit
deriving DecidableEq, Repr

def loopSort (site : Site) (outer : List LoopFrame) : LoopSort :=
  match outer, site.mode.computation? with
  | [], some .map => .parallel
  | [], some .reduce => .reduction
  | _, _ => .explicit

def loopVariable (site : Site) (sort : LoopSort) (type : CType) (name init : Name) : Stmt :=
  match sort with
  | .parallel => .declare type name .globalId .initialValue
  | _ =>
    .declare type name (.place (.name init)) (if site.mode.isKernel then .none else .loopBegin)

/-- Declare the variables of a loop. The first phi of a reduction becomes the index of the
reduction, and its entry value is given back. -/
def lowerLoopPhis (site : Site) (value : Values) (sort : LoopSort) (first : Bool) :
    List NodeId → Lower (Option Name)
  | [] => return none
  | phi :: phis => do
    let g := site.graph
    match ← g.kind phi with
    | .operation (.phi _ (entry :: _)) =>
      let kind := g.valueKind phi
      let init ← value entry
      if sort = .reduction ∧ first then
        bind .reductionIndex phi kind
        let _ ← lowerLoopPhis site value sort false phis
        return some init
      match ← typeOf? kind with
      | none => let _ ← suppress phi "loop variable of undetermined kind"
      | some type =>
        let name ← fresh .loop
        emit (loopVariable site sort type name init)
        bind name phi kind
      lowerLoopPhis site value sort false phis
    | _ => throw (g.misplaced phi)

def loopHead (site : Site) (value : Values) (id : NodeId) (sort : LoopSort) (init : Option Name)
    (bound : Option NodeId) : Lower LoopHead := do
  match sort with
  | .parallel => return .parallel
  | .explicit => return .forever
  | .reduction =>
    match bound with
    | none => throw (site.graph.misplaced id)
    | some bound => return .reduction (init.getD (.literal (.int 1))) (← value bound)

/-- Lower a loop; a path never goes on after it. -/
def lowerLoop (site : Site) (value : Values) (walk : Walk) (id next : NodeId)
    (bound : Option NodeId) : Lower (Option NodeId) := do
  let outer := (← get).loops
  let sort := loopSort site outer
  let init ← lowerLoopPhis site value sort true (site.graph.phisOf id)
  let head ← loopHead site value id sort init bound
  let frame : LoopFrame := ⟨sort ≠ .parallel, sort = .reduction⟩
  modify fun p => { p with loops := frame :: outer }
  let (_, body) ← inBlock (inScope (walk next))
  modify fun p => { p with loops := outer }
  emit (.loop head body)
  return none

/-- Lower a back edge. The updates are computed before the first one is assigned. -/
def lowerBackEdge (site : Site) (value : Values) (id head : NodeId) : Lower Unit := do
  match (← get).loops with
  | [] => throw (site.graph.misplaced id)
  | frame :: _ =>
    if frame.explicit ∧ ¬ frame.reduction then
      assignPhis (← phiValues site value head id)

/-! ### Effects -/

def storeFields (cell : FieldPointer → Place) (v : Name) : List FieldPointer → Lower Unit
  | [] => return ()
  | p :: ps => do
    emit (.assign (cell p) (.place (.field v (p.field + 1))))
    storeFields cell v ps

def lowerStore (site : Site) (value : Values) (array index v : NodeId) : Lower Unit := do
  let arr ← value array
  let idx ← value index
  let v ← value v
  if arr = .illegal ∨ idx = .illegal ∨ v = .illegal then return ()
  if site.splitOutput = some array then
    return ← storeFields (fun p => .cell p.name idx) v site.outputs
  match site.splitInput with
  | some (input, metadata) =>
    if input = array then
      return ← storeFields (fun p => .offsetCell p.name metadata idx) v site.inputs
  | none => pure ()
  emit (.assign (← elementPlace arr idx) (.place (.name v)))

/-- Lower a return; a kernel has none. -/
def lowerReturn (site : Site) (value : Values) (v : Option NodeId) : Lower Unit := do
  if site.mode.isKernel then return ()
  match v with
  | none => emitReturn none
  | some v =>
    let name ← value v
    if name ≠ .illegal then emitReturn (some name)

/-- Lower a deoptimization: raise the flag and return, from a function with a zero. -/
def lowerDeoptimize (site : Site) (id : NodeId) : Lower Unit := do
  report (.warning .deoptPoint id "deoptimization point lowered to a flag write")
  if site.guards then emit .raiseFlag
  if site.mode.isKernel then emitReturn none
  else
    match site.graph.returnKind.scalar? with
    | some kind => emitReturn (some (.literal (.ofScalar (.zero kind))))
    | none => return ()

/-! ### Control nodes -/

def lowerControl (site : Site) (value : Values) (walk : Walk) (id : NodeId) :
    Control → Lower (Option NodeId)
  | .start next => walk next
  | .region next => inScope (walk next)
  | .join merge => lowerJoin site value id merge
  | .merge next => do
    if id ∈ (← get).merges then return none
    modify fun p => { p with merges := id :: p.merges }
    walk next
  | .branch condition onTrue onFalse => lowerBranch site value walk id condition onTrue onFalse
  | .loopHead next bound => lowerLoop site value walk id next bound
  | .backEdge head => do
    lowerBackEdge site value id head
    return none
  | .loopExit _ next => do
    let flow ← walk next
    match (← get).loops with
    | frame :: _ => if frame.explicit then emitLeave
    | [] => pure ()
    return flow
  | .storeIndexed array index v next => do
    lowerStore site value array index v
    walk next
  | .storeField object field v next => do
    let obj ← value object
    let v ← value v
    if obj ≠ .illegal ∧ v ≠ .illegal then
      emit (.assign (.field obj (field.toNat + 1)) (.place (.name v)))
    walk next
  | .guard condition negated next => do
    if site.guards then
      let c ← value condition
      if c ≠ .illegal then emit (.guard c negated)
    walk next
  | .ret v => do
    lowerReturn site value v
    return none
  | .deoptimize => do
    lowerDeoptimize site id
    return none

def lowerStep (site : Site) (value : Values) (walk : Walk) (id : NodeId) :
    Lower (Option NodeId) := do
  let kind ← site.graph.kind id
  emit (.mark kind.name id)
  match kind with
  | .control c => lowerControl site value walk id c
  | .unsupported name inputs next =>
    inputs.forM fun input => discard (value input)
    let _ ← fail id name
    match next with
    | some next => walk next
    | none => return none
  | .operation _ => throw (site.graph.misplaced id)

/-- Lower a walk of at most `length` nodes one inside the other. -/
def lowerWalk (site : Site) (value : Values) : Nat → Walk
  | 0 => fun _ => throw .endless
  | length + 1 => lowerStep site value (lowerWalk site value length)

end Kernelwright.Lowering
