import Kernelwright.Proofs.Graph.Flow

/-!
# The course of a walk

A text is laid out along a walk of its graph: after the arms of a branch it goes on at the merge
where they end, the first time the merge is met, and the text of a loop ends with its body. `Course`
follows this layout. It asks of the graph that a back edge stands where the text around it goes back
to the head of its loop.
-/

namespace Kernelwright

/-- The node after a control node that has one way on, and does nothing about the layout. -/
def Control.onward? : Control → Option NodeId
  | .start next | .region next | .storeIndexed _ _ _ next | .storeField _ _ _ next
  | .guard _ _ next => some next
  | _ => none

def Control.isLoop : Control → Bool
  | .loopHead .. | .backEdge _ | .loopExit .. => true
  | _ => false

def NodeKind.isLoop : NodeKind → Bool
  | .control c => c.isLoop
  | _ => false

namespace Graph

variable {id : NodeId} {home away : Option NodeId} {seen seen' : List NodeId}

/-- Where the walk of a text has got to at its end. -/
inductive Exit where
  /-- All paths have returned. -/
  | returns
  /-- The walk goes on nowhere, though a path may not have returned. -/
  | stops
  /-- The walk goes on at a merge. -/
  | merge (m : NodeId)
deriving DecidableEq, Repr

namespace Exit

variable {a b : Exit}

/-- The merge at which the walk goes on. -/
def merge? : Exit → Option NodeId
  | merge m => some m
  | _ => none

/-- The exit of two arms that end at no merge. -/
def both : Exit → Exit → Exit
  | returns, returns => returns
  | _, _ => stops

theorem both_eq_returns : a.both b = returns ↔ a = returns ∧ b = returns := by
  cases a <;> cases b <;> simp [both]

theorem merge?_both : (a.both b).merge? = none := by
  cases a <;> cases b <;> rfl

end Exit

/-- A walk from a node and the merges met before it; `seen'` are those met by the end. The text of
the walk leads back to the loop `home` where it ends, and to the loop `away` where it leaves a
loop. -/
inductive Course (g : Graph) : (home away : Option NodeId) → (seen : List NodeId) → NodeId → Exit →
    (seen' : List NodeId) → Prop
  | pass {home away seen id c next exit seen'} : g.kind? id = some (.control c) →
      c.onward? = some next → Course g home away seen next exit seen' →
      Course g home away seen id exit seen'
  | merge {home away seen id next exit seen'} : g.kind? id = some (.control (.merge next)) →
      id ∉ seen → Course g home away (id :: seen) next exit seen' →
      Course g home away seen id exit seen'
  /-- A merge that has been met is not laid out again. -/
  | met {home away seen id next} : g.kind? id = some (.control (.merge next)) → id ∈ seen →
      Course g home away seen id .stops seen
  | join {home away seen id m} : g.kind? id = some (.control (.join m)) →
      Course g home away seen id (.merge m) seen
  | ret {home away seen id v} : g.kind? id = some (.control (.ret v)) →
      Course g home away seen id .returns seen
  | branch {home away seen id c t f a b seen₁ seen₂} :
    g.kind? id = some (.control (.branch c t f)) →
      Course g home away seen t a seen₁ → Course g home away seen₁ f b seen₂ → a.merge? = none →
      b.merge? = none → Course g home away seen id (a.both b) seen₂
  /-- After arms with a merge in them comes the text of the merge, so none of them leads home. -/
  | branchMerge {home away seen id c t f a b m exit seen₁ seen₂ seen₃} :
      g.kind? id = some (.control (.branch c t f)) → Course g none away seen t a seen₁ →
      Course g none away seen₁ f b seen₂ → a.merge?.or b.merge? = some m →
      (∀ m', b.merge? = some m' → m' = m) → Course g home away seen₂ m exit seen₃ →
      Course g home away seen id exit seen₃
  /-- What comes after a loop is laid out in its body. -/
  | loop {home away seen id next bound exit seen'} :
      g.kind? id = some (.control (.loopHead next bound)) →
      Course g (some id) home seen next exit seen' → Course g home away seen id .stops seen'
  | backEdge {away seen id head} : g.kind? id = some (.control (.backEdge head)) →
      Course g (some head) away seen id .stops seen
  | loopExit {home away seen id head next exit seen'} :
      g.kind? id = some (.control (.loopExit head next)) →
      Course g away away seen next exit seen' → Course g home away seen id exit seen'

/-- The text of the whole graph is laid out so that every back edge leads to its loop. -/
def Orderly (g : Graph) : Prop :=
  ∃ start exit seen, g.start = .ok start ∧ g.Course none none [] start exit seen

/-- The text of the whole graph is laid out so that all paths return. -/
def Settled (g : Graph) : Prop :=
  ∃ start seen, g.start = .ok start ∧ g.Course none none [] start .returns seen

/-- The graph has no loops. -/
def LoopFree (g : Graph) : Prop := ∀ n ∈ g.nodes.toList, n.kind.isLoop = false

variable {g : Graph}

theorem LoopFree.isLoop (h : g.LoopFree) {c : Control} (hk : g.kind? id = some (.control c)) :
    c.isLoop = false := h _ (mem_of_kind? hk)

theorem Course.control {exit : Exit} (h : g.Course home away seen id exit seen') :
    ∃ c, g.kind? id = some (.control c) := by
  cases h with
  | pass hk | merge hk | met hk | join hk | ret hk | branch hk | branchMerge hk | loop hk
  | backEdge hk | loopExit hk => exact ⟨_, hk⟩

/-- Where a walk ends depends on the graph only, not on the loops around it. -/
theorem Course.unique {home' away' : Option NodeId} {seen₁ seen₂ : List NodeId} {exit₁ exit₂ : Exit}
    (h₁ : g.Course home away seen id exit₁ seen₁) (h₂ : g.Course home' away' seen id exit₂ seen₂) :
    exit₁ = exit₂ ∧ seen₁ = seen₂ := by
  -- the kind of the node says by which rule both walks went on
  induction h₁ generalizing home' away' exit₂ seen₂ with
  | pass hk hnext _ ih =>
    cases h₂ with
    | pass hk' hnext' h =>
      cases hk.symm.trans hk'
      cases hnext.symm.trans hnext'
      exact ih h
    | _ => grind [Control.onward?]
  | branch hk _ _ ha hb iht ihf =>
    cases h₂ with
    | branch hk' ht hf =>
      cases hk.symm.trans hk'
      obtain ⟨rfl, rfl⟩ := iht ht
      obtain ⟨rfl, rfl⟩ := ihf hf
      exact ⟨rfl, rfl⟩
    | branchMerge hk' ht hf hm =>
      cases hk.symm.trans hk'
      obtain ⟨rfl, rfl⟩ := iht ht
      obtain ⟨rfl, rfl⟩ := ihf hf
      simp [ha, hb] at hm
    | _ => grind [Control.onward?]
  | branchMerge hk _ _ hm _ _ iht ihf ih =>
    cases h₂ with
    | branch hk' ht hf ha hb =>
      cases hk.symm.trans hk'
      obtain ⟨rfl, rfl⟩ := iht ht
      obtain ⟨rfl, rfl⟩ := ihf hf
      simp [ha, hb] at hm
    | branchMerge hk' ht hf hm' _ h =>
      cases hk.symm.trans hk'
      obtain ⟨rfl, rfl⟩ := iht ht
      obtain ⟨rfl, rfl⟩ := ihf hf
      cases hm.symm.trans hm'
      exact ih h
    | _ => grind [Control.onward?]
  | _ => cases h₂ <;> grind [Control.onward?]

/-- A structured walk takes its course without loops. -/
theorem Flow.course {exit : Option NodeId} (h : g.Flow seen id exit seen') :
    g.Course none none seen id (exit.elim .returns .merge) seen' := by
  have hmerge (a : Option NodeId) : (a.elim Exit.returns Exit.merge).merge? = a := by
    cases a <;> rfl
  induction h with
  | start hk _ ih | region hk _ ih => exact .pass hk rfl ih
  | merge hk hid _ ih => exact .merge hk hid ih
  | join hk => exact .join hk
  | ret hk => exact .ret hk
  | branch hk _ _ _ _ _ iht ihf => exact .branch hk iht ihf rfl rfl
  | branchMerge hk _ _ _ _ _ hm hsame _ iht ihf ih =>
    refine .branchMerge hk iht ihf ?_ ?_ ih
    · rw [hmerge, hmerge, hm]
    · rw [hmerge]
      exact hsame

theorem Structured.settled (h : g.Structured) : g.Settled := by
  obtain ⟨start, seen, hstart, hflow⟩ := h
  exact ⟨start, seen, hstart, hflow.course⟩

end Graph

end Kernelwright
