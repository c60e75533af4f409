import Kernelwright.Element.Error
import Kernelwright.Graph.Node

/-!
# Kernel errors

The causes for which a graph is refused or a kernel is not generated.
-/

namespace Kernelwright

/-- Why no kernel was generated. -/
inductive KernelError where
  /-- A node stands where its kind cannot be used. -/
  | misplaced (node : NodeId) (kind : String)
  | missingNode (node : NodeId)
  | missingStart (graph : String)
  | missingType (what : String)
  | missingLambda (name : String)
  | type (cause : TypeError)
  /-- The walk through a graph does not end. -/
  | endless
deriving DecidableEq, Repr

def KernelError.message : KernelError → String
  | .misplaced node kind =>
    "node " ++ node.text ++ " (" ++ kind ++ ") cannot be lowered in this position"
  | .missingNode node => "node " ++ node.text ++ " is not part of the graph"
  | .missingStart graph => "graph `" ++ graph ++ "` has no start node"
  | .missingType what => "missing type metadata: " ++ what
  | .missingLambda name => "nested lambda `" ++ name ++ "` is referenced but not supplied"
  | .type cause => cause.message
  | .endless => "the control walk does not end"

end Kernelwright
