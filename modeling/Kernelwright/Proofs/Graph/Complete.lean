import Kernelwright.Proofs.Graph.Kinds

/-!
# Complete graphs

A walk looks up nodes and phi values all the time, and any of these may be missing. In valid graphs
none of them is, if only every phi has a value for each way to its merge and every accessor of a
component has an operand. Such graphs are complete.
-/

namespace Kernelwright

variable {head : NodeId} {args : List NodeId} {result : ElementType}

namespace Graph

variable {g : Graph} {id x phi merge stop : NodeId} {k : NodeKind}

/-- Whether a node has the operands that are looked for by position: a phi those of all ends of its
merge, and of the way in at the head of a loop, and an accessor the tuple. -/
def hasOperands (g : Graph) : NodeKind → Bool
  | .operation (.phi merge values) =>
    (if g.isLoopHead merge then 1 else 0) + (g.endsOf merge).length ≤ values.length
  | .operation (.invoke (.tupleField ..) args _) => !args.isEmpty
  | _ => true

/-- A valid graph that has all operands that are looked for by position. -/
structure Complete (g : Graph) : Prop where
  validate : g.validate = .ok ()
  operands : ∀ n ∈ g.nodes.toList, g.hasOperands n.kind = true

/-- A node that can be evaluated. -/
def IsOperand (g : Graph) (id : NodeId) : Prop := ∃ k, g.kind? id = some k ∧ k.isValue = true

/-- A node that the control walk can pass. -/
def IsStation (g : Graph) (id : NodeId) : Prop := ∃ k, g.kind? id = some k ∧ k.isStep = true

/-- The control walk may go from the first node to the second, forward or back to the head of a
loop. -/
def LeadsTo (g : Graph) (id next : NodeId) : Prop :=
  ∃ c, g.kind? id = some (.control c) ∧ (next ∈ c.successors ∨ c = .backEdge next)

namespace Valid

variable (hg : g.Valid)
include hg

theorem station (h : g.kind? id = some k) (hx : x ∈ k.successors) : g.IsStation x := by
  obtain ⟨_, _, hrest⟩ := bind_eq_ok.1 (hg.node _ (mem_of_kind? h))
  obtain ⟨_, hsuccessors, _⟩ := bind_eq_ok.1 hrest
  exact checkEdge_eq_ok (forM_eq_ok hsuccessors x hx)

theorem loopHead_of_backEdge (h : g.kind? id = some (.control (.backEdge head))) :
    ∃ next bound, g.kind? head = some (.control (.loopHead next bound)) := by
  obtain ⟨k, hk, hs⟩ := checkEdge_eq_ok (hg.checks h).2
  unfold loopHeadSort at hs
  split at hs
  · exact ⟨_, _, hk⟩
  · cases hs

theorem station_of_start (h : g.start = .ok id) : g.IsStation id := by
  unfold start at h
  split at h
  · rename_i n hn
    cases h
    have hstart := Array.find?_some hn
    refine ⟨n.kind, hg.kind n (Array.mem_toList_iff.2 (Array.mem_of_find?_eq_some hn)), ?_⟩
    unfold isStart at hstart
    split at hstart
    · rename_i hkind
      rw [hkind]
      rfl
    · cases hstart
  · cases h

end Valid

namespace Complete

variable (hg : g.Complete)
variable {values : List NodeId}

include hg

theorem valid : g.Valid := valid_of_validate hg.validate

theorem operand (h : g.kind? id = some k) (hx : x ∈ k.inputs) : g.IsOperand x := hg.valid.input h hx

theorem exists_start : ∃ id, g.start = .ok id ∧ g.IsStation id := by
  obtain ⟨_, _, h⟩ := bind_eq_ok.1 hg.validate
  obtain ⟨id, hstart, _⟩ := bind_eq_ok.1 h
  exact ⟨id, hstart, hg.valid.station_of_start hstart⟩

theorem phi_values (h : g.kind? phi = some (.operation (.phi merge values))) :
    (if g.isLoopHead merge then 1 else 0) + (g.endsOf merge).length ≤ values.length := by
  have := hg.operands _ (mem_of_kind? h)
  simpa only [hasOperands, decide_eq_true_eq] using this

theorem head_accessor {arity component : UInt64}
    (h : g.kind? id = some (.operation (.invoke (.tupleField arity component) args result))) :
    ∃ object, args.head? = some object ∧ g.IsOperand object := by
  have hargs := hg.operands _ (mem_of_kind? h)
  cases args with
  | nil => cases hargs
  | cons object args => exact ⟨object, rfl, hg.operand h (.head _)⟩

theorem head_phi (h : g.kind? phi = some (.operation (.phi merge values)))
    (hloop : g.isLoopHead merge = true) :
    ∃ first, values.head? = some first ∧ g.IsOperand first := by
  have hlength := hg.phi_values h
  rw [if_pos hloop] at hlength
  cases values with
  | nil => simp at hlength
  | cons first values => exact ⟨first, rfl, hg.operand h (.head _)⟩

theorem phiValueAt (hphi : phi ∈ g.phisOf merge) (hstop : stop ∈ g.endsOf merge) :
    ∃ value, g.phiValueAt phi stop = .ok value ∧ g.IsOperand value := by
  obtain ⟨values, hk⟩ := hg.valid.mem_phisOf.1 hphi
  obtain ⟨anchor, hanchor, -⟩ := hg.valid.anchor_of_phi hk
  obtain ⟨i, hi, hslot⟩ : ∃ i, i < values.length ∧ g.phiSlot? merge stop = some i := by
    have hlength := hg.phi_values hk
    obtain ⟨i, hi⟩ := Option.isSome_iff_exists.1 (List.isSome_idxOf?.2 hstop)
    obtain ⟨hlt, -⟩ := List.idxOf?_eq_some_iff.1 hi
    unfold phiSlot?
    rw [hi]
    split at hlength
    · rename_i hloop
      rw [if_pos hloop]
      exact ⟨i + 1, by omega, rfl⟩
    · rename_i hloop
      rw [if_neg hloop]
      exact ⟨i, by omega, rfl⟩
  refine ⟨values[i], ?_, hg.operand hk (List.getElem_mem hi)⟩
  rw [Graph.phiValueAt, kind_eq_ok_iff.2 hk]
  simp only [bind, Except.bind, kind_eq_ok_iff.2 hanchor, hslot, Option.bind,
    List.getElem?_eq_getElem hi]

end Complete

end Graph

end Kernelwright
