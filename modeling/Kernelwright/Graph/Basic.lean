import Kernelwright.Graph.Error

/-!
# Kernel graphs

A graph is a named table of nodes. A node is found under its identity only if it also carries that
identity, so a table that is out of order hides nodes rather than confusing them.
-/

namespace Kernelwright

/-- A kernel graph. -/
structure Graph where
  name : String
  nodes : Array Node
deriving DecidableEq, Repr, Inhabited

/-! ### Graphs that are written out -/

namespace NodeKind

abbrev start (next : NodeId) : NodeKind := .control (.start next)
abbrev region (next : NodeId) : NodeKind := .control (.region next)
abbrev join (merge : NodeId) : NodeKind := .control (.join merge)
abbrev merge (next : NodeId) : NodeKind := .control (.merge next)
abbrev branch (c t f : NodeId) : NodeKind := .control (.branch c t f)
abbrev loopHead (next : NodeId) (n : Option NodeId) : NodeKind := .control (.loopHead next n)
abbrev backEdge (head : NodeId) : NodeKind := .control (.backEdge head)
abbrev loopExit (head next : NodeId) : NodeKind := .control (.loopExit head next)
abbrev ret (v : Option NodeId) : NodeKind := .control (.ret v)
abbrev parameter (i : UInt64) (k : ScalarKind) : NodeKind := .operation (.parameter i (.scalar k))
abbrev int (n : Int32) : NodeKind := .operation (.constant (.scalar (.int n)))
abbrev phi (merge : NodeId) (vs : List NodeId) : NodeKind := .operation (.phi merge vs)
abbrev binary (op : BinaryOp) (x y : NodeId) : NodeKind := .operation (.binary op x y)
abbrev compare (op : CompareOp) (x y : NodeId) : NodeKind := .operation (.compare op x y)

end NodeKind

namespace Graph

/-- The graph with the given nodes, numbered in order. -/
def ofKinds (name : String) (kinds : List NodeKind) : Graph where
  name := name
  nodes := (kinds.zipIdx.map fun (kind, i) => ⟨.ofPosition i, kind⟩).toArray

/-- The graph that returns the last of the given operations. The first one is node 1. -/
def ofOperations (name : String) (os : List Operation) : Graph :=
  .ofKinds name (.control (.start (.ofPosition (os.length + 1))) :: os.map .operation ++
    [.control (.ret (some (.ofPosition os.length)))])

/-! ### Looking up nodes -/

def kind? (g : Graph) (id : NodeId) : Option NodeKind :=
  match g.nodes[id.position]? with
  | some n => if n.id = id then some n.kind else none
  | none => none

/-- The kind of a node, which has to be there. -/
def kind (g : Graph) (id : NodeId) : Except KernelError NodeKind :=
  match g.kind? id with
  | some k => .ok k
  | none => .error (.missingNode id)

/-- The fault of a node that stands in the wrong place. -/
def misplaced (g : Graph) (id : NodeId) : KernelError :=
  .misplaced id ((g.kind? id).elim "?" NodeKind.name)

def isStart : NodeKind → Bool
  | .control (.start _) => true
  | _ => false

def start (g : Graph) : Except KernelError NodeId :=
  match g.nodes.find? fun n => isStart n.kind with
  | some n => .ok n.id
  | none => .error (.missingStart g.name)

/-! ### Parameters -/

/-- A parameter of a graph. -/
structure Parameter where
  node : NodeId
  index : UInt64
  type : ParameterType
deriving DecidableEq, Repr

def parameter? (n : Node) : Option Parameter :=
  match n.kind with
  | .operation (.parameter index type) => some ⟨n.id, index, type⟩
  | _ => none

/-- The parameters by index; those of one index in table order. -/
def parameters (g : Graph) : List Parameter :=
  (g.nodes.toList.filterMap parameter?).mergeSort fun a b => a.index ≤ b.index

/-! ### Merges and their phis -/

def isPhiOf (merge : NodeId) : NodeKind → Bool
  | .operation (.phi m _) => m = merge
  | _ => false

/-- Whether a node leads to a merge, or back to a loop head. -/
def isEndOf (merge : NodeId) : NodeKind → Bool
  | .control (.join m) => m = merge
  | .control (.backEdge m) => m = merge
  | _ => false

/-- The phis of a merge or loop head, in table order. -/
def phisOf (g : Graph) (merge : NodeId) : List NodeId :=
  (g.nodes.toList.filter fun n => isPhiOf merge n.kind).map (·.id)

/-- The ends of a merge or the back edges of a loop head, in table order. -/
def endsOf (g : Graph) (merge : NodeId) : List NodeId :=
  (g.nodes.toList.filter fun n => isEndOf merge n.kind).map (·.id)

def isMerge (g : Graph) (id : NodeId) : Bool :=
  match g.kind? id with
  | some (.control (.merge _)) => true
  | _ => false

def isLoopHead (g : Graph) (id : NodeId) : Bool :=
  match g.kind? id with
  | some (.control (.loopHead ..)) => true
  | _ => false

/-- The phis that merge branches, in table order. -/
def mergePhis (g : Graph) : List NodeId :=
  (g.nodes.toList.filter fun n => match n.kind with
    | .operation (.phi m _) => g.isMerge m
    | _ => false).map (·.id)

/-- Every phi with each end of its merge, in table order. -/
def phiEnds (g : Graph) : List (NodeId × NodeId) :=
  g.nodes.toList.flatMap fun n => match n.kind with
    | .operation (.phi m _) => (g.endsOf m).map (n.id, ·)
    | _ => []

/-- The position of an end in the values of a phi: at a loop head the value on entry comes first. -/
def phiSlot? (g : Graph) (merge : NodeId) (stop : NodeId) : Option Nat :=
  let slot := (g.endsOf merge).idxOf? stop
  if g.isLoopHead merge then slot.map (· + 1) else slot

/-- The value of a phi when its merge is reached through an end. -/
def phiValueAt (g : Graph) (phi stop : NodeId) : Except KernelError NodeId := do
  match ← g.kind phi with
  | .operation (.phi merge values) =>
    let _ ← g.kind merge
    match (g.phiSlot? merge stop).bind (values[·]?) with
    | some v => .ok v
    | none => .error (.missingNode stop)
  | _ => .error (g.misplaced phi)

end Graph

end Kernelwright
