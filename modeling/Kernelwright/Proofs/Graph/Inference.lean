import Mathlib.Logic.Relation
import Kernelwright.Proofs.Graph.Kinds

/-!
# Inference of kinds

Inference goes down the operands of a node, and they may lead back to it. So a node that is met
again on the way down is illegal. A run of the inference is a derivation of `Infers`, a finite tree.
There is one for every node of every graph.
-/

namespace Kernelwright

open Relation

/-- The operands whose kinds decide the kind of an operation. A phi has the kind of its first
value. -/
def Operation.deciding : Operation → List NodeId
  | .unary _ x | .convert _ x | .relabel _ x => [x]
  | .arrayLength array | .loadIndexed array _ => [array]
  | .loadField object _ => [object]
  | .binary _ x y | .compare _ x y | .normalizeCompare x y | .conditional _ x y => [x, y]
  | .math _ args => args
  | .phi _ values => values.take 1
  | _ => []

def NodeKind.deciding : NodeKind → List NodeId
  | .operation o => o.deciding
  | _ => []

theorem NodeKind.valueKind_congr {infer infer' : NodeId → ValueKind} (k : NodeKind)
    (h : ∀ x ∈ k.deciding, infer' x = infer x) : k.valueKind infer' = k.valueKind infer := by
  cases k with
  | control | unsupported => rfl
  | operation o =>
    simp only [deciding, NodeKind.valueKind] at h ⊢
    cases o with
    | math op args => exact congrArg (mathKind .float) (List.map_congr_left h)
    | phi merge values =>
      cases values with
      | nil => rfl
      | cons v vs => exact h v (.head _)
    | _ => simp_all [Operation.deciding, Operation.valueKind]

namespace Graph

variable {g : Graph} {id : NodeId} {extend : NodeId → List NodeId → List NodeId}
  {visiting fresh : List NodeId} {κ κ' : ValueKind}

/-- The kind of the second node is asked for that of the first. -/
def Asks (g : Graph) (id x : NodeId) : Prop := ∃ k, g.kind? id = some k ∧ x ∈ k.deciding

/-- What recursion on the rules ends with, where a node among those that are being visited is
illegal. On the way down they change as `extend` says. -/
inductive Infers (g : Graph) (extend : NodeId → List NodeId → List NodeId) :
    List NodeId → NodeId → ValueKind → Prop
  | again {visiting : List NodeId} {id : NodeId} :
    id ∈ visiting → Infers g extend visiting id .illegal
  | missing {visiting : List NodeId} {id : NodeId} : g.kind? id = none →
      Infers g extend visiting id .illegal
  | node {visiting : List NodeId} {id : NodeId} {k : NodeKind} {infer : NodeId → ValueKind} :
      id ∉ visiting → g.kind? id = some k →
      (∀ x ∈ k.deciding, Infers g extend (extend id visiting) x (infer x)) →
        Infers g extend visiting id (k.valueKind infer)

/-- Recursion on the rules alone: no node is ever being visited. -/
abbrev InfersPlainly (g : Graph) : NodeId → ValueKind → Prop :=
  g.Infers (fun _ visiting => visiting) []

theorem Infers.unique (h : g.Infers extend visiting id κ) (h' : g.Infers extend visiting id κ') :
    κ' = κ := by
  induction h generalizing κ' with
  | again hmem =>
    cases h' with
    | again | missing => rfl
    | node hnew => exact absurd hmem hnew
  | missing hk =>
    cases h' with
    | again | missing => rfl
    | node _ hk' => cases hk.symm.trans hk'
  | node hnew hk _ ih =>
    cases h' with
    | again hmem => exact absurd hmem hnew
    | missing hk' => cases hk.symm.trans hk'
    | node _ hk' hx' =>
      cases hk.symm.trans hk'
      exact NodeKind.valueKind_congr _ fun x hx => ih x hx (hx' x hx)

theorem nodup_ids (g : Graph) : g.ids.Nodup := by
  rw [ids, List.Nodup, List.pairwise_map]
  refine List.nodup_range.imp_of_mem fun {i j} hi hj hne heq => hne ?_
  rw [List.mem_range, Nat.lt_min] at hi hj
  have hword := congrArg (·.index.toNat) heq
  simpa only [NodeId.ofPosition, UInt32.toNat_ofNat_of_lt' hi.2,
    UInt32.toNat_ofNat_of_lt' hj.2] using hword

theorem mem_ids {k : NodeKind} (hk : g.kind? id = some k) : id ∈ g.ids := by
  have hlt := (Array.getElem?_eq_some_iff.1 (kind?_eq_some_iff.1 hk)).1
  refine List.mem_map.2 ⟨id.position, List.mem_range.2 (Nat.lt_min.2 ⟨hlt, id.index.toNat_lt⟩), ?_⟩
  exact congrArg NodeId.mk UInt32.ofNat_toNat

theorem infers_valueKindIn (g : Graph) (id : NodeId) (hfresh : fresh.Nodup)
    (h : ∀ x k, g.kind? x = some k → (x ∈ fresh ↔ x ∉ visiting)) :
    g.Infers .cons visiting id (g.valueKindIn fresh id) := by
  -- along the list of nodes that may still be asked
  fun_induction valueKindIn g fresh id generalizing visiting with
  | case1 fresh id hid k hk ih =>
    refine .node ((h id k hk).1 hid) hk fun x _ => ih x (hfresh.erase id) fun y k' hk' => ?_
    rw [hfresh.mem_erase_iff, h y k' hk', List.mem_cons, not_or]
  | case2 fresh id hid hk => exact .missing hk
  | case3 fresh id hid =>
    cases hk : g.kind? id with
    | none => exact .missing hk
    | some k => exact .again (not_not.1 fun hnew => hid ((h id k hk).2 hnew))

theorem Infers.plainly (h : g.Infers .cons visiting id κ)
    (hacyclic : ∀ x, ReflTransGen g.Asks id x → ¬ TransGen g.Asks x x)
    (hvisiting : ∀ p ∈ visiting, TransGen g.Asks p id) : g.InfersPlainly id κ := by
  induction h with
  | again hmem => exact absurd (hvisiting _ hmem) (hacyclic _ .refl)
  | missing hk => exact .missing hk
  | @node visiting id k infer _ hk _ ih =>
    refine .node List.not_mem_nil hk fun x hx => ?_
    have hasks : g.Asks id x := ⟨k, hk, hx⟩
    refine ih x hx (fun y hy => hacyclic y (.head hasks hy))
      (List.forall_mem_cons.2 ⟨.single hasks, ?_⟩)
    exact fun p hp => (hvisiting p hp).tail hasks

/-- Inference ends at every node of every graph, whatever is being visited, and gives one kind.
Where no cycle is reached the kind is that of recursion on the rules alone. -/
theorem inference_ends_and_is_exact (g : Graph) (id : NodeId) :
    (∀ visiting x, ∃! κ, g.Infers .cons visiting x κ) ∧ g.Infers .cons [] id (g.valueKind id) ∧
    ((∀ x, ReflTransGen g.Asks id x → ¬ TransGen g.Asks x x) →
      ∀ κ, g.InfersPlainly id κ ↔ κ = g.valueKind id) := by
  have hends (visiting : List NodeId) (x : NodeId) :
      g.Infers .cons visiting x (g.valueKindIn (g.ids.filter (· ∉ visiting)) x) := by
    refine infers_valueKindIn g x (g.nodup_ids.filter _) fun y k hk => ?_
    simp [mem_ids hk]
  have hroot : g.Infers .cons [] id (g.valueKind id) :=
    infers_valueKindIn g id g.nodup_ids fun y k hk => by simp [mem_ids hk]
  refine ⟨fun visiting x => ⟨_, hends visiting x, fun κ => (hends visiting x).unique⟩, hroot, ?_⟩
  intro hacyclic κ
  have hplain : g.InfersPlainly id (g.valueKind id) :=
    hroot.plainly hacyclic (List.forall_mem_nil _)
  constructor
  · exact hplain.unique
  · rintro rfl
    exact hplain

end Graph

end Kernelwright
