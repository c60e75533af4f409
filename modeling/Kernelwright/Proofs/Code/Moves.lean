import Kernelwright.Proofs.Code.Running

/-!
# Moves

Variables that are to change at once are assigned in some order. That comes to the same if no
assignment reads a variable that an earlier one has changed.
-/

namespace Kernelwright.Code

variable {s : State} {ms : List (Name × Name)} {x : Name} {w : Scalar}

/-- Assign to each variable its source, one after the other. -/
def moves (ms : List (Name × Name)) : List Stmt :=
  ms.map fun m => .assign (.name m.1) (.place (.name m.2))

/-- No source is a variable that an earlier move has changed. A move of a variable to itself changes
nothing. -/
def Unspoiled (ms : List (Name × Name)) : Prop := ms.Pairwise fun m m' => m'.2 = m.1 → m.2 = m.1

instance (ms : List (Name × Name)) : Decidable (Unspoiled ms) :=
  inferInstanceAs (Decidable (ms.Pairwise _))

/-- The targets are different variables. -/
structure Targets (ms : List (Name × Name)) : Prop where
  nodup : (ms.map Prod.fst).Nodup
  assignable : ∀ m ∈ ms, ∀ l, m.1 ≠ .literal l

namespace State

/-- All that the moves need has a value. -/
def Ready (s : State) (ms : List (Name × Name)) : Prop :=
  ∀ m ∈ ms, (s.value? m.1).isSome ∧ (s.value? m.2).isSome

/-- Each variable has, in its own kind, the value that its source had in another state. -/
def Gets (s s' : State) (ms : List (Name × Name)) : Prop :=
  ∀ m ∈ ms, ∀ v w, s.value? m.2 = some v → s.value? m.1 = some w →
    s'.value? m.1 = some (v.cast w.kind)

/-- The moves do one after the other what they would do at once: each variable ends with the value
that its source had before the first of them. -/
def MovesAtOnce (s : State) (ms : List (Name × Name)) : Prop :=
  ∀ d rounds, ∃ s', execAll d rounds s (moves ms) = some (.next, s') ∧ s.Gets s' ms

theorem exists_assignVar {vars : List (Name × Scalar)} (v : Scalar) (hx : vars.lookup x = some w) :
    ∃ vars', assignVar x v vars = some vars' ∧
      ∀ y, vars'.lookup y = if y = x then some (v.cast w.kind) else vars.lookup y := by
  induction vars with
  | nil => cases hx
  | cons e vars ih =>
    obtain ⟨z, u⟩ := e
    by_cases hz : z = x
    · subst hz
      cases (List.lookup_cons_self ..).symm.trans hx
      refine ⟨(z, v.cast w.kind) :: vars, if_pos rfl, fun y => ?_⟩
      by_cases hy : y = z
      · simp [hy]
      · simp [List.lookup_cons, beq_false_of_ne hy, hy]
    · rw [List.lookup_cons, beq_false_of_ne (Ne.symm hz)] at hx
      obtain ⟨vars', hassign, hlookup⟩ := ih hx
      refine ⟨(z, u) :: vars', by simp [assignVar, hz, hassign], fun y => ?_⟩
      by_cases hy : y = z
      · simp [hy, hz]
      · simp [List.lookup_cons, beq_false_of_ne hy, hlookup]

theorem exists_write (d : Device) (v : Scalar) (hx : ∀ l, x ≠ .literal l)
    (hw : s.value? x = some w) :
    ∃ s', s.write d (.name x) v = some s' ∧
      ∀ y, s'.value? y = if y = x then some (v.cast w.kind) else s.value? y := by
  have hlookup : s.vars.lookup x = some w := by
    cases x with
    | literal l => exact absurd rfl (hx l)
    | _ => exact hw
  obtain ⟨vars, hassign, hvars⟩ := exists_assignVar v hlookup
  refine ⟨{ s with vars := vars }, by rw [write, hassign]; rfl, fun y => ?_⟩
  cases y with
  | literal l => rw [if_neg (Ne.symm (hx l))]; rfl
  | _ => exact hvars _

/-- Moves one after the other, none of which has a source that is spoiled. -/
theorem exec_moves (hms : Targets ms) (hready : s.Ready ms) (h : Unspoiled ms) (d : Device)
    (rounds : Nat) :
    ∃ s', execAll d rounds s (moves ms) = some (.next, s') ∧ s.Gets s' ms ∧
      ∀ y, y ∉ ms.map Prod.fst → s'.value? y = s.value? y := by
  induction ms generalizing s with
  | nil => exact ⟨s, rfl, List.forall_mem_nil _, fun _ _ => rfl⟩
  | cons m ms ih =>
    obtain ⟨hm, hnodup⟩ := List.nodup_cons.1 hms.nodup
    obtain ⟨hx, hassignable⟩ := List.forall_mem_cons.1 hms.assignable
    obtain ⟨⟨htarget, hsource⟩, hready⟩ := List.forall_mem_cons.1 hready
    obtain ⟨hfirst, h⟩ := List.pairwise_cons.1 h
    obtain ⟨v, hv⟩ := Option.isSome_iff_exists.1 hsource
    obtain ⟨w, hw⟩ := Option.isSome_iff_exists.1 htarget
    obtain ⟨t, hwrite, hmove⟩ := exists_write d v hx hw
    have hstays (y : Name) (hy : (s.value? y).isSome) : (t.value? y).isSome := by
      rw [hmove]
      split
      · rfl
      · exact hy
    obtain ⟨s', hexec, hgets, hothers⟩ := ih ⟨hnodup, hassignable⟩
      (fun m hm => ⟨hstays _ (hready m hm).1, hstays _ (hready m hm).2⟩) h
    refine ⟨s', by simpa [moves, Expr.eval, hv, hwrite] using hexec,
      List.forall_mem_cons.2 ⟨fun v' w' hv' hw' => ?_, fun m' hm' v' w' hv' hw' => ?_⟩,
        fun y hy => ?_⟩
    · cases hv.symm.trans hv'
      cases hw.symm.trans hw'
      rw [hothers _ hm, hmove, if_pos rfl]
    · have hne : m'.1 ≠ m.1 := fun heq => hm (heq ▸ List.mem_map_of_mem hm')
      refine hgets m' hm' v' w' ?_ ((hmove _).trans ((if_neg hne).trans hw'))
      rw [hmove]
      split
      · -- the source is a variable that the first move leaves as it was
        rename_i heq
        rw [hfirst m' hm' heq, ← heq, hv'] at hv
        rw [heq] at hv'
        cases hv
        cases hv'.symm.trans hw
        rw [Scalar.cast_kind]
      · exact hv'
    · obtain ⟨hne, hy⟩ := not_or.1 (mt List.mem_cons.2 hy)
      rw [hothers y hy, hmove, if_neg hne]

end State

end Kernelwright.Code
