import Kernelwright.Graph.Validate

/-!
# Building graphs

A builder hands out identities in order. A node whose edges are not known yet is reserved and set
later; a graph is finished when every reserved node was set and the result is valid.
-/

namespace Kernelwright

/-- A graph under construction. -/
structure Builder where
  name : String
  slots : Array (Option NodeKind)
deriving Repr

namespace Builder

def empty (name : String) : Builder := ⟨name, #[]⟩

def reserve (b : Builder) : NodeId × Builder :=
  (.ofPosition b.slots.size, { b with slots := b.slots.push none })

/-- Set a reserved node; an identity that was not handed out is ignored. -/
def set (b : Builder) (id : NodeId) (kind : NodeKind) : Builder :=
  { b with slots := b.slots.setIfInBounds id.position (some kind) }

def add (b : Builder) (kind : NodeKind) : NodeId × Builder :=
  let (id, b) := b.reserve
  (id, b.set id kind)

def operation (b : Builder) (o : Operation) : NodeId × Builder := b.add (.operation o)

def tupleField (b : Builder) (tuple : NodeId) (arity component : UInt64) (result : ElementType) :
    NodeId × Builder :=
  b.operation (.invoke (.tupleField arity component) [tuple] result)

/-- The nodes of a builder, all of which have to be set. -/
def nodes (b : Builder) : Except KernelError (List Node) :=
  b.slots.toList.zipIdx.mapM fun (slot, i) => match slot with
    | some kind => .ok ⟨.ofPosition i, kind⟩
    | none => .error (.missingNode (.ofPosition i))

def finish (b : Builder) : Except KernelError Graph := do
  let g : Graph := ⟨b.name, (← b.nodes).toArray⟩
  g.validate
  return g

end Builder

end Kernelwright
