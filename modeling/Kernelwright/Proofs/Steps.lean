/-!
# Steps that may fail

Checks, lowering and evaluation are all steps that end in a result or in an error, most of them with
a state besides. The lemmas here take a sequence of steps apart that ended in a result.
-/

namespace Kernelwright

variable {ε σ α β : Type}
variable {x : Except ε α} {l : List α}
variable {f : α → Except ε β} {b : β} {s' : σ}

theorem bind_eq_ok : (x >>= f) = .ok b ↔ ∃ a, x = .ok a ∧ f a = .ok b := by
  cases x <;> simp [Bind.bind, Except.bind]

theorem map_eq_ok {f : α → β} : x.map f = .ok b ↔ ∃ a, x = .ok a ∧ f a = b := by
  cases x <;> simp [Except.map]

theorem mapError_eq_ok {δ : Type} {f : ε → δ} : x.mapError f = .ok a ↔ x = .ok a := by
  cases x <;> constructor <;> intro h <;> cases h <;> rfl

/-- A step can be run to see what holds of its result. -/
instance decidableOk {P : α → Prop} [DecidablePred P] : Decidable (∃ a, x = .ok a ∧ P a) :=
  match x with
  | .ok a => decidable_of_iff (P a) (by simp)
  | .error _ => isFalse (by simp)

instance decidableOne {P : α → Prop} [DecidablePred P] : Decidable (∃ a, l = [a] ∧ P a) :=
  match l with
  | [a] => decidable_of_iff (P a) (by simp)
  | [] | _ :: _ :: _ => isFalse (by simp)

instance decidableTwo {P : α → α → Prop} [∀ a b, Decidable (P a b)] :
    Decidable (∃ a b, l = [a, b] ∧ P a b) :=
  match l with
  | [a, b] => decidable_of_iff (P a b) (by simp [and_assoc])
  | [] | [_] | _ :: _ :: _ :: _ => isFalse (by simp)

theorem exists_ok_and {P Q : α → Prop} (h : ∃ a, x = .ok a ∧ P a)
    (hQ : ∀ a, x = .ok a → P a → Q a) : ∃ a, x = .ok a ∧ P a ∧ Q a := by
  obtain ⟨a, ha, hP⟩ := h
  exact ⟨a, ha, hP, hQ a ha hP⟩

theorem mem_of_lookup [BEq α] [LawfulBEq α] {l : List (α × β)} {a : α} (h : l.lookup a = some b) :
    (a, b) ∈ l := by
  obtain ⟨before, rest, rfl, -⟩ := List.lookup_eq_some_iff.1 h
  exact List.mem_append_right _ (.head _)

theorem forM_eq_ok {f : α → Except ε Unit} (h : l.forM f = .ok ()) : ∀ a ∈ l, f a = .ok () := by
  induction l with
  | nil => simp
  | cons a l ih =>
    rw [List.forM_eq_forM, List.forM_cons] at h
    obtain ⟨_, ha, hl⟩ := bind_eq_ok.1 h
    exact List.forall_mem_cons.2 ⟨ha, ih hl⟩

theorem mapM_eq_ok {bs : List β} (h : l.mapM f = .ok bs) :
    bs.length = l.length ∧ ∀ (k : Nat) a b, l[k]? = some a → bs[k]? = some b → f a = .ok b := by
  induction l generalizing bs with
  | nil =>
    cases h
    exact ⟨rfl, nofun⟩
  | cons a l ih =>
    rw [List.mapM_cons] at h
    obtain ⟨b, hb, h⟩ := bind_eq_ok.1 h
    obtain ⟨bs, hbs, h⟩ := bind_eq_ok.1 h
    cases h
    obtain ⟨hlen, hall⟩ := ih hbs
    refine ⟨congrArg Nat.succ hlen, fun k a' b' ha hb' => ?_⟩
    cases k with
    | zero =>
      cases ha
      cases hb'
      exact hb
    | succ k => exact hall k a' b' ha hb'

namespace Step

variable {f : α → StateT σ (Except ε) β} {s : σ} {r : β × σ} {a : α}
variable {x : StateT σ (Except ε) α}

theorem bind_eq_ok : (x >>= f) s = .ok r ↔ ∃ a s', x s = .ok (a, s') ∧ f a s' = .ok r := by
  change (x s >>= fun (a, s') => f a s') = .ok r ↔ _
  rw [Kernelwright.bind_eq_ok]
  exact Prod.exists

theorem bind_of_ok (h : x s = .ok (a, s')) : (x >>= f) s = f a s' := by
  change (x s >>= fun (a, s') => f a s') = _
  rw [h]
  rfl

/-- A step that always ends alike is passed over. -/
theorem after_ok (hx : x s = .ok (a, s')) (h : (x >>= f) s = .ok r) :
    f a s' = .ok r := (bind_of_ok hx).symm.trans h

theorem bind_of_error {e : ε} (h : x s = .error e) : (x >>= f) s = .error e := by
  change (x s >>= fun (a, s') => f a s') = _
  rw [h]
  rfl

theorem pure_eq_ok {r : α × σ} : (pure a : StateT σ (Except ε) α) s = .ok r ↔ r = (a, s) := by
  change Except.ok (a, s) = .ok r ↔ _
  rw [Except.ok.injEq, eq_comm]

theorem bind_pure_eq_ok {g : α → β} :
    (x >>= fun a => pure (g a)) s = .ok r ↔ ∃ a s', x s = .ok (a, s') ∧ r = (g a, s') := by
  simp only [bind_eq_ok, pure_eq_ok]

theorem get_bind {f : σ → StateT σ (Except ε) β} : (get >>= f) s = f s s := rfl

theorem lift_bind_eq_ok {x : Except ε α} :
    ((liftM x : StateT σ (Except ε) α) >>= f) s = .ok r ↔ ∃ a, x = .ok a ∧ f a s = .ok r := by
  rw [← Kernelwright.bind_eq_ok]
  cases x <;> rfl

end Step

end Kernelwright
