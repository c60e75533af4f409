import Kernelwright.Graph.Basic

/-!
# Validation

A valid graph numbers its nodes in order, has a start, and every edge of it leads to a node of the
sort that the edge asks for.
-/

namespace Kernelwright.Graph

/-- Every node carries its own position. -/
def checkOrder (g : Graph) : Except KernelError Unit :=
  g.nodes.toList.zipIdx.forM fun (n, i) =>
    if n.id.position = i then .ok () else .error (.missingNode (.ofPosition i))

def checkEdge (g : Graph) (sort : NodeKind → Bool) (target : NodeId) : Except KernelError Unit := do
  if sort (← g.kind target) then .ok () else .error (g.misplaced target)

def mergeSort : NodeKind → Bool
  | .control (.merge _) => true
  | _ => false

def loopHeadSort : NodeKind → Bool
  | .control (.loopHead ..) => true
  | _ => false

/-- The edges that tie a node to its merge or loop head. -/
def checkAnchor (g : Graph) : NodeKind → Except KernelError Unit
  | .control (.join merge) => g.checkEdge mergeSort merge
  | .control (.backEdge head) => g.checkEdge loopHeadSort head
  | .control (.loopExit head _) => g.checkEdge loopHeadSort head
  | .operation (.phi merge _) => g.checkEdge (fun k => mergeSort k || loopHeadSort k) merge
  | _ => .ok ()

/-- Every edge of a node leads to a node of the right sort. -/
def checkNode (g : Graph) (n : Node) : Except KernelError Unit := do
  n.kind.inputs.forM (g.checkEdge NodeKind.isValue)
  n.kind.successors.forM (g.checkEdge NodeKind.isStep)
  g.checkAnchor n.kind

/-- Check a graph; the first fault is reported. -/
def validate (g : Graph) : Except KernelError Unit := do
  g.checkOrder
  let _ ← g.start
  g.nodes.toList.forM g.checkNode

end Kernelwright.Graph
