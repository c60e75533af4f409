import Kernelwright.Proofs.Graph.Kinds

/-!
# Structured graphs

A structured graph can be walked like the text of a program: after the two arms of a branch the walk
goes on at the merge where they end, and each merge is met once. `Flow` is such a walk. It keeps the
merges that it has met, since a phi may be used only after its merge: `Ready` says so of a value.
-/

namespace Kernelwright

/-- The operands that are evaluated with an operation. The values of a phi are not among them, as
they are evaluated on the way to its merge. -/
def Operation.needs : Operation → List NodeId
  | .phi .. => []
  | o => o.inputs

def Operation.isPhi : Operation → Bool
  | .phi .. => true
  | _ => false

theorem Operation.mem_inputs_of_mem_needs {o : Operation} {x : NodeId} (h : x ∈ o.needs) :
    x ∈ o.inputs := by
  cases o with
  | phi => cases h
  | _ => exact h

namespace Graph

variable {g : Graph}

/-- A node is a phi. -/
def IsPhi (g : Graph) (id : NodeId) : Prop := ∃ m vs, g.kind? id = some (.operation (.phi m vs))

theorem not_isPhi {id : NodeId} {o : Operation} (hk : g.kind? id = some (.operation o))
    (ho : o.isPhi = false) : ¬ g.IsPhi id := by
  rintro ⟨m, vs, hphi⟩
  cases hk.symm.trans hphi
  cases ho

/-! ### Values and the phis that they use -/

/-- A value uses a phi. -/
inductive Uses (g : Graph) (phi : NodeId) : NodeId → Prop
  | self : g.IsPhi phi → Uses g phi phi
  | operand {id x o} : g.kind? id = some (.operation o) → x ∈ o.needs → Uses g phi x → Uses g phi id

theorem Uses.isPhi {phi id : NodeId} (h : g.Uses phi id) : g.IsPhi phi := by
  induction h with
  | self hphi => exact hphi
  | operand _ _ _ ih => exact ih

theorem Uses.eq_of_isPhi {phi id : NodeId} (h : g.Uses phi id) (hid : g.IsPhi id) : id = phi := by
  cases h with
  | self _ => rfl
  | operand hk hx _ =>
    obtain ⟨m, vs, hid⟩ := hid
    cases hk.symm.trans hid
    cases hx

/-- The merges of all phis that a value uses have been met. -/
def Ready (g : Graph) (seen : List NodeId) (id : NodeId) : Prop :=
  ∀ phi m vs, g.kind? phi = some (.operation (.phi m vs)) → g.Uses phi id → m ∈ seen

namespace Ready

variable {seen seen' : List NodeId} {id x : NodeId} {o : Operation}

theorem mono (h : seen ⊆ seen') (hid : g.Ready seen id) : g.Ready seen' id :=
  fun phi m vs hphi huses => h (hid phi m vs hphi huses)

theorem operand (hid : g.Ready seen id) (ho : g.kind? id = some (.operation o)) (hx : x ∈ o.needs) :
    g.Ready seen x :=
  fun phi m vs hphi huses => hid phi m vs hphi (.operand ho hx huses)

theorem phi {m : NodeId} {vs : List NodeId} (hk : g.kind? id = some (.operation (.phi m vs)))
    (hm : m ∈ seen) : g.Ready seen id := by
  intro phi m' vs' hphi huses
  cases huses.eq_of_isPhi ⟨m, vs, hk⟩
  cases hk.symm.trans hphi
  exact hm

theorem of_needs (hk : g.kind? id = some (.operation o)) (ho : o.isPhi = false)
    (h : ∀ x ∈ o.needs, g.Ready seen x) : g.Ready seen id := by
  intro phi m vs hphi huses
  cases huses with
  | self hself => exact absurd hself (not_isPhi hk ho)
  | operand hk' hx huses =>
    cases hk.symm.trans hk'
    exact h _ hx phi m vs hphi huses

theorem of_needs_eq_nil (hk : g.kind? id = some (.operation o)) (ho : o.isPhi = false)
    (h : o.needs = []) : g.Ready seen id := by
  refine of_needs hk ho fun x hx => ?_
  rw [h] at hx
  cases hx

end Ready

/-! ### Walks -/

/-- Whether a node begins an arm of a branch. -/
def isRegion : NodeKind → Bool
  | .control (.region _) => true
  | _ => false

/-- A walk like that of a program's text, from a node and the merges met before it. It ends with
returns, or at an end of the merge `exit`; `seen'` are the merges met by then. -/
inductive Flow (g : Graph) : (seen : List NodeId) → NodeId → (exit : Option NodeId) →
    (seen' : List NodeId) → Prop
  | start {seen id next exit seen'} : g.kind? id = some (.control (.start next)) →
      Flow g seen next exit seen' → Flow g seen id exit seen'
  | region {seen id next exit seen'} : g.kind? id = some (.control (.region next)) →
      Flow g seen next exit seen' → Flow g seen id exit seen'
  | merge {seen id next exit seen'} : g.kind? id = some (.control (.merge next)) → id ∉ seen →
      Flow g (id :: seen) next exit seen' → Flow g seen id exit seen'
  /-- The values that its phis take are evaluated on the way to the merge. -/
  | join {seen id m} : g.kind? id = some (.control (.join m)) →
      (∀ phi ∈ g.phisOf m, ∀ v, g.phiValueAt phi id = .ok v → g.Ready seen v) →
      Flow g seen id (some m) seen
  | ret {seen id v} : g.kind? id = some (.control (.ret (some v))) → g.Ready seen v →
      Flow g seen id none seen
  /-- Both arms return. -/
  | branch {seen id c t f seen₁ seen₂} : g.kind? id = some (.control (.branch c t f)) →
      g.Ready seen c → (g.kind? t).any isRegion → (g.kind? f).any isRegion →
      Flow g seen t none seen₁ → Flow g seen₁ f none seen₂ → Flow g seen id none seen₂
  /-- At least one arm ends at a merge, and the other one nowhere else. -/
  | branchMerge {seen id c t f a b m exit seen₁ seen₂ seen₃} :
      g.kind? id = some (.control (.branch c t f)) →
      g.Ready seen c → (g.kind? t).any isRegion → (g.kind? f).any isRegion →
      Flow g seen t a seen₁ → Flow g seen₁ f b seen₂ →
      a.or b = some m → (∀ m', b = some m' → m' = m) →
      Flow g seen₂ m exit seen₃ → Flow g seen id exit seen₃

/-- The whole graph is one walk, which ends with returns. -/
def Structured (g : Graph) : Prop := ∃ s seen, g.start = .ok s ∧ g.Flow [] s none seen

namespace Flow

variable {seen seen' : List NodeId} {id : NodeId} {exit : Option NodeId}

theorem subset (h : g.Flow seen id exit seen') : seen ⊆ seen' := by
  induction h with
  | start _ _ ih | region _ _ ih => exact ih
  | merge _ _ _ ih => exact List.subset_of_cons_subset ih
  | join | ret => exact List.Subset.refl _
  | branch _ _ _ _ _ _ iht ihf => exact List.Subset.trans iht ihf
  | branchMerge _ _ _ _ _ _ _ _ _ iht ihf ih =>
    exact List.Subset.trans iht (List.Subset.trans ihf ih)

theorem not_mem_of_merge (h : g.Flow seen id exit seen') {next : NodeId}
    (hk : g.kind? id = some (.control (.merge next))) : id ∉ seen := by
  cases h with
  | merge _ hid _ => exact hid
  | start hk' | region hk' | join hk' | ret hk' | branch hk' | branchMerge hk' =>
    cases hk.symm.trans hk'

theorem isMerge_exit (hg : g.Valid) (h : g.Flow seen id exit seen') {m : NodeId}
    (hm : exit = some m) : ∃ next, g.kind? m = some (.control (.merge next)) := by
  induction h with
  | start _ _ ih | region _ _ ih | merge _ _ _ ih => exact ih hm
  | join hk =>
    cases hm
    exact hg.merge_of_join hk
  | ret | branch => cases hm
  | branchMerge _ _ _ _ _ _ _ _ _ _ _ ih => exact ih hm

theorem exists_return (h : g.Flow seen id exit seen') (hexit : exit = none) :
    ∃ id' v, g.kind? id' = some (.control (.ret (some v))) := by
  induction h with
  | start _ _ ih | region _ _ ih | merge _ _ _ ih => exact ih hexit
  | join => cases hexit
  | ret hk => exact ⟨_, _, hk⟩
  | branch _ _ _ _ _ _ iht => exact iht rfl
  | branchMerge _ _ _ _ _ _ _ _ _ _ _ ih => exact ih hexit

section Arms

variable {t f m : NodeId} {a b : Option NodeId} {seen₁ seen₂ : List NodeId}

/-- The merge after a branch is not met in an arm. -/
theorem not_mem_of_arms (hg : g.Valid) (ht : g.Flow seen t a seen₁) (hf : g.Flow seen₁ f b seen₂)
    (hm : a.or b = some m) (hflow : g.Flow seen₂ m exit seen') : m ∉ seen₂ := by
  have hmerge : ∃ next, g.kind? m = some (.control (.merge next)) := by
    obtain ha | ⟨-, hb⟩ := Option.or_eq_some_iff.1 hm
    · exact ht.isMerge_exit hg ha
    · exact hf.isMerge_exit hg hb
  obtain ⟨next, hmerge⟩ := hmerge
  exact hflow.not_mem_of_merge hmerge

end Arms

end Flow

theorem Structured.returnKind_word (h : g.Structured) (hg : g.Valid) (hwords : g.OnWords) :
    ∃ k, g.returnKind = .scalar k ∧ k.isWord = true := by
  obtain ⟨s, seen, -, hflow⟩ := h
  obtain ⟨id, v, hret⟩ := hflow.exists_return rfl
  obtain ⟨o, ho⟩ := hwords.input hg hret (.head _)
  rw [← hwords.valueKind_returned hret]
  exact hwords.valueKind_word hg ho

end Graph

end Kernelwright
