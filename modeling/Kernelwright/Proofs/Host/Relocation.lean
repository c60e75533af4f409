import Kernelwright.Host.MapReduce
import Kernelwright.Proofs.Host.Comparison

/-!
# Calls among the arrays of others

A call sees only the arrays that it is given and those that it allocates. So a call that ends in an
arena of its own ends in the same way behind the arrays of its callers, with every handle shifted by
their number. Starting deeper does not change this, unless the limit on the depth of calls is
passed.
-/

namespace Kernelwright.Host

variable {fuel fuel' : Nat} {lambdas : List Graph} {name : String} {vs : List Value} {g : Graph}

/-! ### Behind other arrays -/

theorem getElem?_behind (p arena : Arena) (handle : Nat) :
    (p ++ arena)[p.size + handle]? = arena[handle]? := by
  rw [Array.getElem?_append_right (Nat.le_add_right _ _), Nat.add_sub_cancel_left]

theorem modify_behind (p arena : Arena) (handle : Nat) (f : Array Value → Array Value) :
    (p ++ arena).modify (p.size + handle) f = p ++ arena.modify handle f := by
  apply Array.ext_getElem?
  intro i
  rw [Array.getElem?_modify]
  by_cases hi : i < p.size
  · have hne : ¬ p.size + handle = i := by omega
    rw [if_neg hne, Array.getElem?_append_left hi, Array.getElem?_append_left hi]
  · obtain ⟨j, rfl⟩ := Nat.exists_eq_add_of_le (Nat.le_of_not_lt hi)
    rw [getElem?_behind, getElem?_behind, Array.getElem?_modify]
    simp only [Nat.add_left_cancel_iff]

/-- The second evaluation finds its arrays behind the arrays `p`, and starts `deeper`, so it may
pass the limit. -/
def behind (p : Arena) (deeper : Nat) : Pairing where
  World := Unit
  Later _ _ := True
  Arenas _ a b := b = p ++ a
  Handles _ i j := j = p.size + i
  Stops _ := True
  Stops' e := 0 < deeper ∧ ∃ name, e = .callDepth name
  refl _ := trivial
  trans _ _ := trivial
  handles _ h := h
  stops _ := trivial
  get := by
    rintro _ a _ i _ rfl rfl
    exact getElem?_behind p a i
  push := by
    rintro _ a _ vs rfl
    exact ⟨(), trivial, Array.push_append, Array.size_append⟩
  modify := by
    rintro _ a _ i _ k v rfl rfl
    exact ⟨(), trivial, modify_behind p a i _⟩
  stays _ _ _ _ := .inr trivial

/-- A call that gives a value gives it behind other arrays and from deeper on too, unless it passes
the limit there. -/
theorem run_behind (p : Arena) (deeper : Nat) (hfuel : fuel ≤ fuel') (depth : Nat) {a : Arena}
    {r : Value} {m : Machine} (h : run lambdas fuel depth g (vs.map .value)
      ⟨.enter g (vs.map .value), a⟩ = .ok (.value r, m)) :
    let result := run lambdas fuel' (depth + deeper) g (vs.map .value)
      ⟨.enter g (vs.map .value), p ++ a⟩
    (∃ n, result = .ok (.value r, n) ∧ n.arena = p ++ m.arena) ∨
      0 < deeper ∧ ∃ name, result = .error (.callDepth name) := by
  have hvs : List.Forall₂ (Slot.Like fun i j => j = p.size + i) (vs.map .value)
      (vs.map .value) := by
    refine List.forall₂_same.2 fun s hs => ?_
    obtain ⟨v, -, rfl⟩ := List.mem_map.1 hs
    exact .value v
  have hrelated := (Pairing.related (H := behind p deeper) (G := fun _ => True) lambdas deeper
    (fun g _ => Comparison.Lax.admits (fun _ => trivial) (fun _ _ => trivial) g)
      (fun _ _ _ => trivial)
    hfuel trivial (fun hpos name => ⟨hpos, name, rfl⟩) depth).2 g g trivial () _ _ hvs
    ⟨.enter g (vs.map .value), a⟩ ⟨.enter g (vs.map .value), p ++ a⟩ ⟨rfl, .enter g hvs, rfl⟩
  rcases hrelated with ⟨s, s', m', n, _, hm, hn, -, hmachines, hs⟩ | ⟨e, he, -⟩ | ⟨e, he,
    hpos, name, rfl⟩
  · cases h.symm.trans hm
    cases hs
    exact .inl ⟨n, hn, hmachines.2.2⟩
  · cases h.symm.trans he
  · exact .inr ⟨hpos, name, he⟩

/-! ### Calls from deeper on -/

/-- A call of a lambda on values nests at most `levels` deep: it does not pass the limit when only
that many levels are left below it. -/
def NestsWithin (lambdas : List Graph) (fuel levels : Nat) (name : String) (vs : List Value) :
    Prop :=
  ∀ g, lambda? lambdas name = some g → ∀ passed,
    run lambdas fuel (maxCallDepth - levels) g (vs.map .value)
      ⟨.enter g (vs.map .value), #[]⟩ ≠ .error (.callDepth passed)

theorem nestsWithin_of_isOk {levels : Nat} (hg : lambda? lambdas name = some g)
    (h : (run lambdas fuel (maxCallDepth - levels) g (vs.map .value)
      ⟨.enter g (vs.map .value), #[]⟩).isOk = true) :
    NestsWithin lambdas fuel levels name vs := by
  intro g' hg' passed hrun
  obtain rfl : g = g' := Option.some.inj (hg.symm.trans hg')
  rw [hrun] at h
  cases h

theorem place_values (vs : List Value) (arena : Arena) :
    place (vs.map .value) arena = (vs.map .value, arena) := by
  induction vs with
  | nil => rfl
  | cons v vs ih => simp only [List.map_cons, place, ih]

/-- A call works in a frame of its own, so it does not matter from which frame it is made. -/
theorem run_from {depth : Nat} {args : List Slot} {m m' : Machine} {s : Slot}
    (h : run lambdas fuel depth g args m = .ok (s, m')) (f : Frame) :
    run lambdas fuel depth g args ⟨f, m.arena⟩ = .ok (s, ⟨f, m'.arena⟩) := by
  cases fuel with
  | zero =>
    simp only [run] at h
    cases h
  | succ fuel =>
    simp only [run] at h ⊢
    split at h
    · cases h
    · rename_i hdepth
      rw [if_neg hdepth]
      simp only [Run.within] at h ⊢
      split at h
      · cases h
        rfl
      · cases h

/-- A call that gives an element and does not nest too deep gives it one level deeper too, behind
whatever arrays. What it allocates stands behind them. -/
theorem callElement_deeper {r : Value} (h : callElement lambdas fuel name (vs.map .value) = .ok r)
    (hnest : NestsWithin lambdas fuel 63 name vs) :
    ∃ g, lambda? lambdas name = some g ∧ ∀ fuel', fuel ≤ fuel' → ∀ m, ∃ extra,
      run lambdas fuel' 1 g (vs.map .value) m = .ok (.value r, ⟨m.frame, m.arena ++ extra⟩) := by
  obtain ⟨result, hcall, hr⟩ := bind_eq_ok.1 h
  cases hg : lambda? lambdas name with
  | none =>
    rw [call, hg] at hcall
    cases hcall
  | some g =>
    refine ⟨g, rfl, fun fuel' hfuel m => ?_⟩
    simp only [call, hg, place_values] at hcall
    split at hcall
    · rename_i s m₀ hrun
      cases hcall
      cases s with
      | array handle => cases hr
      | void => cases hr
      | value v =>
        cases hr
        -- first one level deeper, in an arena of its own
        rcases run_behind #[] 1 (Nat.le_refl fuel) 0 hrun with ⟨n, hdeeper, hn⟩ | ⟨-, passed, he⟩
        · -- then behind the arrays that are there, with more fuel
          rcases run_behind m.arena 0 hfuel 1 hdeeper with ⟨n', hbehind, hn'⟩ | ⟨hpos, -⟩
          · have := run_from hbehind m.frame
            simp only [hn', hn, Array.empty_append, Array.append_empty] at this
            exact ⟨m₀.arena, this⟩
          · exact absurd hpos (Nat.lt_irrefl 0)
        · exact absurd he (hnest g hg passed)
    · cases hcall

end Kernelwright.Host
