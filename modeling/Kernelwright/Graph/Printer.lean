import Kernelwright.Graph.Basic

/-!
# Printed graphs

A graph is shown with one node a line: its identity, its kind, its operands and its successors.
-/

namespace Kernelwright

/-- Identities with commas between them. -/
def NodeId.listText (ids : List NodeId) : String := ", ".intercalate (ids.map NodeId.text)

def Node.text (n : Node) : String :=
  let inputs := n.kind.inputs
  let successors := n.kind.successors
  "  " ++ n.id.text ++ " = " ++ n.kind.name
    ++ (if inputs.isEmpty then "" else "(" ++ NodeId.listText inputs ++ ")")
    ++ (if successors.isEmpty then "" else " -> " ++ NodeId.listText successors)

def Graph.text (g : Graph) : String :=
  "graph " ++ g.name ++ " (" ++ toString g.nodes.size ++ " nodes)\n"
    ++ String.join (g.nodes.toList.map fun n => n.text ++ "\n")

end Kernelwright
