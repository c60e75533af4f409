import Kernelwright.Proofs.Host.Comparison

/-!
# What calls can stop for

An evaluation looks up nodes, phi values, arrays and lambdas all the time, and in complete graphs
none of them is missing. So a call gives a result or stops for a cause that the evaluation itself
knows, with one exception: a new array may be longer than there is room for. For this an evaluation
is compared with itself.
-/

namespace Kernelwright

/-- What evaluations in complete graphs may stop for. -/
def HostError.Admitted (lambdas : List Graph) : HostError → Prop
  | noRoom length node => ∃ g ∈ lambdas, ∃ element,
    g.kind? node = some (.operation (.newArray element length)) ∧
      Memory.fits length.toNat Memory.valueBytes = false
  | e => e.isEvaluation = true ∨ e = outOfFuel

namespace Host

variable {handle : Nat} {lambdas : List Graph}

/-! ### Arrays that stay -/

/-- Every array of the first arena is in the second under the same handle, with the same length. -/
def Extends (a b : Arena) : Prop :=
  ∀ (handle : Nat) vs, a[handle]? = some vs → ∃ ws, b[handle]? = some ws ∧ ws.size = vs.size

namespace Extends

variable {a b c : Arena}

theorem refl (a : Arena) : Extends a a := fun _ vs h => ⟨vs, h, rfl⟩

theorem trans (h : Extends a b) (h' : Extends b c) : Extends a c := by
  intro handle vs hvs
  obtain ⟨ws, hws, hsize⟩ := h handle vs hvs
  obtain ⟨us, hus, hsize'⟩ := h' handle ws hws
  exact ⟨us, hus, hsize'.trans hsize⟩

theorem push (a : Arena) (items : Array Value) : Extends a (a.push items) := by
  intro handle vs hvs
  obtain ⟨hlt, rfl⟩ := Array.getElem?_eq_some_iff.1 hvs
  exact ⟨a[handle], by rw [Array.getElem?_push_lt hlt], rfl⟩

theorem modify (a : Arena) (handle index : Nat) (v : Value) :
    Extends a (a.modify handle fun vs => vs.setIfInBounds index v) := by
  intro other vs hvs
  rw [Array.getElem?_modify, hvs]
  split
  · exact ⟨_, rfl, by simp⟩
  · exact ⟨vs, rfl, rfl⟩

theorem lt (h : Extends a b) (hlt : handle < a.size) : handle < b.size := by
  obtain ⟨ws, hws, -⟩ := h handle _ (Array.getElem?_eq_getElem hlt)
  exact (Array.getElem?_eq_some_iff.1 hws).1

end Extends

/-- Every array is paired with itself, as long as it is known. -/
def kept (Stops : HostError → Prop) (hstops : ∀ {e : HostError}, e.isEvaluation = true → Stops e) :
    Pairing where
  World := Arena
  Later := Extends
  Arenas w a b := a = w ∧ b = w
  Handles w i j := j = i ∧ i < w.size
  Stops := Stops
  Stops' _ := False
  refl := .refl
  trans := .trans
  handles hext h := ⟨h.1, hext.lt h.2⟩
  stops := hstops
  get := by
    rintro w _ _ i _ ⟨rfl, rfl⟩ ⟨rfl, -⟩
    rfl
  push := by
    rintro _ _ a vs ⟨rfl, rfl⟩
    exact ⟨_, .push a vs, ⟨rfl, rfl⟩, rfl, by simp⟩
  modify := by
    rintro _ _ a _ i k v ⟨rfl, rfl⟩ ⟨rfl, -⟩
    exact ⟨_, .modify a i k v, ⟨rfl, rfl⟩⟩
  stays := by
    rintro _ _ _ _ _ _ i _ hext ⟨rfl, rfl⟩ ⟨rfl, rfl⟩ ⟨rfl, hi⟩
    have hvs := Array.getElem?_eq_getElem hi
    obtain ⟨ws, hws, hsize⟩ := hext _ _ hvs
    exact .inl ⟨_, ws, hvs, hws, hsize⟩

/-- The arrays of evaluations in complete graphs. -/
def known (lambdas : List Graph) : Pairing :=
  kept (HostError.Admitted lambdas) fun {e} he => by
    cases e with
    | noRoom => cases he
    | _ => exact .inl he

/-! ### Calls -/

theorem place_known (args : List HostValue) (a : Arena) :
    Extends a (place args a).2 ∧ ∀ s ∈ (place args a).1,
      s.Like (fun i j => j = i ∧ i < (place args a).2.size) s := by
  induction args generalizing a with
  | nil => exact ⟨.refl a, nofun⟩
  | cons arg args ih =>
    cases arg with
    | value v => exact ⟨(ih a).1, List.forall_mem_cons.2 ⟨.value v, (ih a).2⟩⟩
    | void => exact ⟨(ih a).1, List.forall_mem_cons.2 ⟨.void, (ih a).2⟩⟩
    | array vs =>
      obtain ⟨hext, hslots⟩ := ih (a.push vs.toArray)
      refine ⟨(Extends.push a _).trans hext, List.forall_mem_cons.2 ⟨.array ⟨rfl, ?_⟩, hslots⟩⟩
      exact hext.lt (by simp)

theorem mem_of_lambda? {name : String} {g : Graph} (h : lambda? lambdas name = some g) :
    g ∈ lambdas :=
  List.mem_reverse.1 (List.mem_of_find?_eq_some h)

/-- A call that can be compared with itself gives a result, or stops for one of the causes. -/
theorem call_ends {fuel : Nat} {Stops : HostError → Prop}
    (hstops : ∀ {e : HostError}, e.isEvaluation = true → Stops e)
    (h : ∀ g, ∀ callee ∈ lambdas, ∀ w args args',
      List.Forall₂ (((kept Stops hstops).within g).Slots w) args args' →
      ((kept Stops hstops).within g).Relates w (run lambdas fuel 0 callee args)
      (run lambdas fuel 0 callee args')
        ((kept Stops hstops).within g).Slots) (name : String) (args : List HostValue) :
    (∃ v, call lambdas fuel name args = .ok v) ∨ ∃ e, call lambdas fuel name args = .error e ∧
    Stops e := by
  unfold call
  cases hg : lambda? lambdas name with
  | none => exact .inr ⟨_, rfl, hstops rfl⟩
  | some g =>
    have hslots := List.forall₂_same.2 (place_known args #[]).2
    rcases h g g (mem_of_lambda? hg) (place args #[]).2 _ _ hslots
      ⟨.enter g (place args #[]).1, (place args #[]).2⟩ ⟨.enter g (place args #[]).1, _⟩
      ⟨rfl, .enter g hslots, rfl, rfl⟩ with ⟨s, s', m, n, w, hrun, -⟩ | ⟨e, hrun, he⟩ | ⟨e, -, he⟩
    · simp only [hrun]
      exact .inl ⟨_, rfl⟩
    · simp only [hrun]
      exact .inr ⟨e, rfl, he⟩
    · exact he.elim

/-- A call in complete graphs that ends gives a result, or stops for a cause that the evaluation
knows, or meets a new array that there is no room for. -/
theorem call_ends_well (hlambdas : ∀ g ∈ lambdas, g.Complete) (fuel : Nat) (name : String)
    (args : List HostValue) (hends : call lambdas fuel name args ≠ .error .outOfFuel) :
    (∃ v, call lambdas fuel name args = .ok v) ∨
    (∃ e, call lambdas fuel name args = .error e ∧ e.isEvaluation = true) ∨
    ∃ length node, call lambdas fuel name args = .error (.noRoom length node) ∧
      ∃ g ∈ lambdas, ∃ element, g.kind? node = some (.operation (.newArray element length)) ∧
        Memory.fits length.toNat Memory.valueBytes = false := by
  have hcalls := (Pairing.related (H := known lambdas) (G := (· ∈ lambdas)) lambdas 0
    (fun g hg => ⟨.inl (hlambdas g hg), fun hk hroom => ⟨g, hg, _, hk, hroom⟩⟩)
      (fun _ _ => mem_of_lambda?)
    (Nat.le_refl fuel) (.inr rfl) nofun 0).2
  refine (call_ends (known lambdas).stops hcalls name args).imp_right ?_
  rintro ⟨e, he, hadmitted⟩
  change e.Admitted lambdas at hadmitted
  unfold HostError.Admitted at hadmitted
  split at hadmitted
  · exact .inr ⟨_, _, he, hadmitted⟩
  · exact .inl ⟨e, he, hadmitted.resolve_right fun hfuel => hends (hfuel ▸ he)⟩

/-- The first component of a pair. -/
def stride : Graph := .ofOperations "stride" [
  .parameter 0 (.tuple (.record [.scalar .int, .scalar .int])),
  .invoke (.tupleField 2 0) [1] (.scalar .int)]

/-- The first multiple of a stride that is not below a limit. -/
def climb : Graph := .ofKinds "climb" [
  .start 1,
  .loopHead 2 none,
  .branch 9 3 4,
  .region 5,
  .loopExit 1 6,
  .backEdge 1,
  .ret (some 7),
  .phi 1 [8, 10],
  .int 0,
  .compare .lt 7 11,
  .binary .add 7 12,
  .parameter 0 .int,
  .operation (.invoke (.lambda "stride") [13] (.scalar .int)),
  .operation (.parameter 1 (.tuple (.record [.scalar .int, .scalar .int])))]

theorem climb_ends_well :
    (∀ g ∈ [climb, stride], g.Complete) ∧
    let result := call [climb, stride] 20 "climb"
      [.value (.scalar (.int 5)), .value (.tuple [.scalar (.int 2), .scalar (.int 0)])]
    result = .ok (.value (.scalar (.int 6))) ∧ result ≠ .error .outOfFuel ∧
    ((∃ v, result = .ok v) ∨ (∃ e, result = .error e ∧ e.isEvaluation = true) ∨
      ∃ length node, result = .error (.noRoom length node) ∧
        ∃ g ∈ [climb, stride], ∃ element,
          g.kind? node = some (.operation (.newArray element length)) ∧
            Memory.fits length.toNat Memory.valueBytes = false) := by
  have hcomplete : ∀ g ∈ [climb, stride], g.Complete := by
    have hvalid : ∀ g ∈ [climb, stride], g.validate = .ok () := by decide +kernel
    have hoperands : ∀ g ∈ [climb, stride], ∀ n ∈ g.nodes.toList, g.hasOperands n.kind = true := by
      decide +kernel
    exact fun g hg => ⟨hvalid g hg, hoperands g hg⟩
  refine ⟨hcomplete, ?_⟩
  intro result
  have hends : result = .ok (.value (.scalar (.int 6))) := by decide +kernel
  have hne : result ≠ .error .outOfFuel := by
    rw [hends]
    exact nofun
  exact ⟨hends, hne, call_ends_well hcomplete 20 "climb" _ hne⟩

/-- An array of as many elements as there are words. -/
def vast : Graph := .ofOperations "vast" [.newArray .int 18446744073709551615]

/-- A new array for which there is no room ends a call without a result and without a cause that the
evaluation knows. -/
theorem vast_has_no_room :
    vast.Complete ∧ ¬ ((∃ v, call [vast] 3 "vast" [] = .ok v) ∨
      ∃ e, call [vast] 3 "vast" [] = .error e ∧ (e.isEvaluation = true ∨ e = .outOfFuel)) := by
  have hcall : call [vast] 3 "vast" [] = .error (.noRoom 18446744073709551615 1) := by
    decide +kernel
  refine ⟨⟨by decide +kernel, by decide +kernel⟩, ?_⟩
  rw [hcall]
  rintro (⟨v, hv⟩ | ⟨e, he, hcause⟩)
  · cases hv
  · cases he
    rcases hcause with hcause | hcause <;> cases hcause

end Host

end Kernelwright
