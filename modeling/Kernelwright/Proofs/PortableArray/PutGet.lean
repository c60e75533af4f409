import Kernelwright.Bounded
import Kernelwright.Proofs.Storage.Column

/-!
# Storing and reading elements

An array of records is a tree of columns, and storing a tuple fans out over that tree. The fan-out
cannot be seen: a value is taken exactly if it has the shape of the element type, it is read back
with its leaves converted to the kinds of the columns, and every other element is as it was. The law
of one step gives the law of a run.
-/

namespace Kernelwright

/-! ### Shapes of values -/

namespace Value

mutual

/-- The value has the shape of the type: a scalar at every leaf, and at every record a tuple with as
many components as there are fields. -/
def HasShape : ElementType → Value → Prop
  | .scalar _, .scalar _ => True
  | .record ts, .tuple vs => HaveShapes ts vs
  | _, _ => False

/-- The values have the shapes of the types, position by position. -/
def HaveShapes : List ElementType → List Value → Prop
  | [], [] => True
  | t :: ts, v :: vs => HasShape t v ∧ HaveShapes ts vs
  | _, _ => False

end

mutual

/-- The value with each scalar leaf converted to the kind that the type has there. -/
def castLeaves : ElementType → Value → Value
  | .scalar k, v => v.cast k
  | .record ts, .tuple vs => .tuple (castLeavesAll ts vs)
  | .record _, v => v

/-- The values with their leaves converted, position by position. -/
def castLeavesAll : List ElementType → List Value → List Value
  | t :: ts, v :: vs => castLeaves t v :: castLeavesAll ts vs
  | _, vs => vs

end

mutual

/-- The value is one of the type: it has its shape, and its leaves have the kinds of the type. -/
def IsOf : ElementType → Value → Prop
  | .scalar k, .scalar s => s.kind = k
  | .record ts, .tuple vs => AreOf ts vs
  | _, _ => False

/-- The values are of the types, position by position. -/
def AreOf : List ElementType → List Value → Prop
  | [], [] => True
  | t :: ts, v :: vs => IsOf t v ∧ AreOf ts vs
  | _, _ => False

end

mutual

/-- A value is of a type if it has its shape and conversion to the type leaves it as it is. -/
theorem isOf_iff : {t : ElementType} → {v : Value} → (IsOf t v ↔ HasShape t v ∧ castLeaves t v = v)
  | .scalar k, .scalar s => by
    have hkind : s.kind = k ↔ s.cast k = s :=
      ⟨fun h => by simp [← h], fun h => by rw [← h, Scalar.kind_cast]⟩
    simpa [IsOf, HasShape, castLeaves, cast] using hkind
  | .record ts, .tuple vs => by simpa [IsOf, HasShape, castLeaves] using areOf_iff
  | .scalar _, .tuple _ => by simp [IsOf, HasShape]
  | .record _, .scalar _ => by simp [IsOf, HasShape]

theorem areOf_iff : {ts : List ElementType} → {vs : List Value} →
    (AreOf ts vs ↔ HaveShapes ts vs ∧ castLeavesAll ts vs = vs)
  | [], [] => by simp [AreOf, HaveShapes, castLeavesAll]
  | t :: ts, v :: vs => by
    simp only [AreOf, HaveShapes, castLeavesAll, List.cons.injEq, @isOf_iff t, @areOf_iff ts]
    exact and_and_and_comm
  | [], _ :: _ => by simp [AreOf, HaveShapes]
  | _ :: _, [] => by simp [AreOf, HaveShapes]

end

theorem HaveShapes.length_eq : {ts : List ElementType} → {vs : List Value} → HaveShapes ts vs →
    vs.length = ts.length
  | [], [], _ => rfl
  | _ :: _, _ :: _, h => by rw [List.length_cons, List.length_cons, HaveShapes.length_eq h.2]
  | [], _ :: _, h => h.elim
  | _ :: _, [], h => h.elim

end Value

namespace PortableArray

open Value

/-! ### Arrays with their storage in place -/

mutual

/-- The array follows the type in mode and size, with a column of `size` elements at every leaf. -/
def Allocated (mode : StorageMode) (size : Nat) : ElementType → PortableArray → Prop
  | .scalar k, flat h s =>
    h.type = .scalar k ∧ h.mode = mode ∧ h.size = size ∧ s.IsColumn k mode size
  | .record ts, fields h cs =>
    h.type = .record ts ∧ h.mode = mode ∧ h.size = size ∧ AllocatedAll mode size ts cs
  | _, _ => False

/-- The arrays follow the types, position by position. -/
def AllocatedAll (mode : StorageMode) (size : Nat) :
    List ElementType → List PortableArray → Prop
  | [], [] => True
  | t :: ts, c :: cs => Allocated mode size t c ∧ AllocatedAll mode size ts cs
  | _, _ => False

end

mutual

/-- What each level of an array knows of itself, the outermost first. -/
def headers : PortableArray → List ArrayHeader
  | flat h _ => [h]
  | fields h cs => h :: headersAll cs

def headersAll : List PortableArray → List ArrayHeader
  | [] => []
  | c :: cs => headers c ++ headersAll cs

end

variable {mode : StorageMode} {size : Nat}
variable {t : ElementType} {a : PortableArray} {i : Nat}

theorem Allocated.size_eq (h : Allocated mode size t a) : a.size = size := by
  cases t <;> cases a
  · exact h.2.2.1
  · exact h.elim
  · exact h.elim
  · exact h.2.2.1

theorem AllocatedAll.length_eq : {ts : List ElementType} → {cs : List PortableArray} →
    AllocatedAll mode size ts cs → cs.length = ts.length
  | [], [], _ => rfl
  | _ :: _, _ :: _, h => by rw [List.length_cons, List.length_cons, AllocatedAll.length_eq h.2]
  | [], _ :: _, h => h.elim
  | _ :: _, [], h => h.elim

/-! ### One store -/

/-- What storing `v` at index `i` makes of an array `a` that follows the type `t`. -/
structure Stored (mode : StorageMode) (size : Nat) (t : ElementType) (i : Nat) (v : Value)
    (a b : PortableArray) : Prop where
  allocated : Allocated mode size t b
  get?_self : get? i b = some (castLeaves t v)
  get?_other : ∀ j, j ≠ i → get? j b = get? j a
  headers_eq : b.headers = a.headers

/-- The same for the arrays of several fields. -/
structure StoredAll (mode : StorageMode) (size : Nat) (ts : List ElementType) (i : Nat)
    (vs : List Value) (cs ds : List PortableArray) : Prop where
  allocated : AllocatedAll mode size ts ds
  getAll?_self : getAll? i ds = some (castLeavesAll ts vs)
  getAll?_other : ∀ j, j ≠ i → getAll? j ds = getAll? j cs
  headersAll_eq : headersAll ds = headersAll cs

mutual

/-- A value of the right shape is stored, and any other one is refused. -/
theorem put_spec {i : Nat} (hi : i < size) : (t : ElementType) → (v : Value) → (a : PortableArray) →
    Allocated mode size t a → ((put i v a).2 = none ↔ HasShape t v) ∧
      (HasShape t v → Stored mode size t i v a (put i v a).1)
  | .scalar k, .scalar x, flat h s, ha => by
    obtain ⟨htype, hmode, hsize, hs⟩ := ha
    have hput : put i (.scalar x) (flat h s) = (flat h (s.put i (.scalar x)), none) := by
      rw [put, htype, fits, ElementType.isRecord, putFlat, hs.accepts hi]
      rfl
    rw [hput]
    refine ⟨⟨fun _ => trivial, fun _ => rfl⟩,
      fun _ => ⟨⟨htype, hmode, hsize, hs.put x⟩, ?_, ?_, rfl⟩⟩
    · rw [get?, hs.get?_put_self hi, castLeaves]
      rfl
    · intro j hj
      rw [get?, get?, hs.get?_put_of_ne hi x hj]
  | .record ts, .tuple vs, fields h cs, ha => by
    obtain ⟨htype, hmode, hsize, hcs⟩ := ha
    by_cases hlen : vs.length = cs.length
    · obtain ⟨hnone, hstored⟩ := putAll_spec hi ts vs cs hcs hlen
      rw [put, if_pos hlen]
      refine ⟨hnone, fun hv => ⟨⟨htype, hmode, hsize, (hstored hv).allocated⟩, ?_, ?_, ?_⟩⟩
      · rw [get?, (hstored hv).getAll?_self, castLeaves]
        rfl
      · intro j hj
        rw [get?, get?, (hstored hv).getAll?_other j hj]
      · rw [headers, headers, (hstored hv).headersAll_eq]
    · have hv : ¬HaveShapes ts vs :=
        fun hv => hlen ((HaveShapes.length_eq hv).trans hcs.length_eq.symm)
      rw [put, if_neg hlen]
      exact ⟨⟨by simp, fun h => absurd h hv⟩, fun h => absurd h hv⟩
  | .scalar k, .tuple vs, flat h s, ha => by
    rw [put, ha.1, fits, ElementType.isRecord]
    exact ⟨⟨by simp, False.elim⟩, False.elim⟩
  | .record ts, .scalar x, fields h cs, _ => ⟨⟨by simp [put], False.elim⟩, False.elim⟩
  | .scalar _, _, fields _ _, ha => ha.elim
  | .record _, _, flat _ _, ha => ha.elim

/-- As many values as there are fields are stored if each has the shape of its field. -/
theorem putAll_spec {i : Nat} (hi : i < size) : (ts : List ElementType) → (vs : List Value) →
    (cs : List PortableArray) → AllocatedAll mode size ts cs → vs.length = cs.length →
      ((putAll i vs cs).2 = none ↔ HaveShapes ts vs) ∧
        (HaveShapes ts vs → StoredAll mode size ts i vs cs (putAll i vs cs).1)
  | [], [], [], _,
    _ => ⟨⟨fun _ => trivial, fun _ => rfl⟩, fun _ => ⟨trivial, rfl, fun _ _ => rfl, rfl⟩⟩
  | t :: ts, v :: vs, c :: cs, ha, hlen => by
    obtain ⟨hnone, hstored⟩ := put_spec hi t v c ha.1
    obtain ⟨hnones, hstoreds⟩ := putAll_spec hi ts vs cs ha.2 (by simpa using hlen)
    rw [putAll]
    cases hput : put i v c with
    | mk d e =>
      rw [hput] at hnone hstored
      cases e with
      | some e =>
        have hv : ¬HasShape t v := fun h => by simpa using hnone.2 h
        exact ⟨⟨by simp, fun h => absurd h.1 hv⟩, fun h => absurd h.1 hv⟩
      | none =>
        -- the first field takes its value, so it depends on the others
        have hfirst := hstored (hnone.1 rfl)
        refine ⟨hnones.trans ⟨fun h => ⟨hnone.1 rfl, h⟩, fun h => h.2⟩, fun hv => ?_⟩
        have hrest := hstoreds hv.2
        refine ⟨⟨hfirst.allocated, hrest.allocated⟩, ?_, fun j hj => ?_, ?_⟩
        · rw [getAll?, hfirst.get?_self, hrest.getAll?_self, castLeavesAll]
        · rw [getAll?, getAll?, hfirst.get?_other j hj, hrest.getAll?_other j hj]
        · rw [headersAll, headersAll, hfirst.headers_eq, hrest.headersAll_eq]
  | [], _ :: _, [], _, hlen => by simp at hlen
  | _ :: _, [], _ :: _, _, hlen => by simp at hlen
  | [], _, _ :: _, ha, _ => ha.elim
  | _ :: _, _, [], ha, _ => ha.elim

end

theorem put_of_hasShape (hi : i < size) (t : ElementType) (v : Value) (a : PortableArray)
    (ha : Allocated mode size t a) (hv : HasShape t v) :
    ∃ b, put i v a = (b, none) ∧ Stored mode size t i v a b := by
  obtain ⟨hnone, hstored⟩ := put_spec hi t v a ha
  exact ⟨_, Prod.ext rfl (hnone.2 hv), hstored hv⟩

/-- With storage in place, a value is taken exactly if it has the shape of the element type. -/
theorem put_eq_none_iff (ha : Allocated mode size t a) (hi : i < size) (v : Value) :
    (put i v a).2 = none ↔ HasShape t v :=
  (put_spec hi t v a ha).1

/-! ### New arrays -/

mutual

/-- An array of a type whose leaves all have a backend is made with its storage in place and the
zero of the type in it. -/
theorem build_eq_ok (hmode : mode ≠ .object) : (t : ElementType) →
    (∀ k ∈ Bounded.kinds t, ∃ b, Backend.select k mode = .ok b) →
      ∃ a, build (newColumn mode size) mode size t = .ok a ∧ Allocated mode size t a ∧
        ∀ i < size, get? i a = some (Value.zero t)
  | .scalar k, h => by
    obtain ⟨b, hb⟩ := h k (by simp [Bounded.kinds])
    obtain ⟨s, hs, hcolumn, hzero⟩ := Storage.allocate_eq_ok hmode hb size
    refine ⟨flat (newHeader (.scalar k) mode size) s, ?_, ⟨rfl, rfl, rfl, hcolumn⟩, ?_⟩
    · rw [build, newColumn, hs]
      rfl
    · intro i hi
      rw [get?, hzero i hi, Value.zero]
  | .record ts, h => by
    obtain ⟨cs, hcs, hall, hzeros⟩ := buildAll_eq_ok hmode ts (by simpa [Bounded.kinds] using h)
    refine ⟨fields (newHeader (.record ts) mode size) cs, ?_, ⟨rfl, rfl, rfl, hall⟩, ?_⟩
    · rw [build, if_neg hmode, hcs]
      rfl
    · intro i hi
      rw [get?, hzeros i hi, Value.zero]
      rfl

theorem buildAll_eq_ok (hmode : mode ≠ .object) : (ts : List ElementType) →
    (∀ k ∈ Bounded.kindsAll ts, ∃ b, Backend.select k mode = .ok b) →
      ∃ cs, buildAll (newColumn mode size) mode size ts = .ok cs ∧ AllocatedAll mode size ts cs ∧
        ∀ i < size, getAll? i cs = some (Value.zeros ts)
  | [], _ => ⟨[], rfl, trivial, fun _ _ => rfl⟩
  | t :: ts, h => by
    have hfirst : ∀ k ∈ Bounded.kinds t, ∃ b, Backend.select k mode = .ok b := fun k hk =>
      h k (by simp [Bounded.kindsAll, hk])
    have hrest : ∀ k ∈ Bounded.kindsAll ts, ∃ b, Backend.select k mode = .ok b := fun k hk =>
      h k (by simp [Bounded.kindsAll, hk])
    obtain ⟨c, hc, hallocated, hzero⟩ := build_eq_ok hmode t hfirst
    obtain ⟨cs, hcs, hall, hzeros⟩ := buildAll_eq_ok hmode ts hrest
    refine ⟨c :: cs, ?_, ⟨hallocated, hall⟩, ?_⟩
    · rw [buildAll, hc, hcs]
      rfl
    · intro i hi
      rw [getAll?, hzero i hi, hzeros i hi, Value.zeros]

end

/-! ### Runs of stores -/

/-- Store values one after the other, each at an index of its own. -/
def putEach (a : PortableArray) : List (Nat × Value) → Except ArrayError PortableArray
  | [] => .ok a
  | (i, v) :: ps =>
    match put i v a with
    | (b, none) => putEach b ps
    | (_, some e) => .error e

/-- The value that was last stored at an index. -/
def lastPut? (ps : List (Nat × Value)) (i : Nat) : Option Value :=
  (ps.reverse.find? fun p => p.1 = i).map Prod.snd

theorem lastPut?_cons (p : Nat × Value) (ps : List (Nat × Value)) (i : Nat) :
    lastPut? (p :: ps) i = (lastPut? ps i).or (if p.1 = i then some p.2 else none) := by
  rw [lastPut?, lastPut?, List.reverse_cons, List.find?_append]
  cases ps.reverse.find? fun p => p.1 = i with
  | some q => rfl
  | none =>
    by_cases h : p.1 = i <;> simp [h]

/-- After a run of stores of values of the element type, an element is the value last stored there,
or what it was. -/
theorem putEach_eq_ok (ps : List (Nat × Value)) (ha : Allocated mode size t a)
    (hps : ∀ p ∈ ps, p.1 < size ∧ IsOf t p.2) :
    ∃ b, putEach a ps = .ok b ∧ Allocated mode size t b ∧
      ∀ i, get? i b = (lastPut? ps i).or (get? i a) := by
  induction ps generalizing a with
  | nil => exact ⟨a, rfl, ha, fun i => rfl⟩
  | cons p ps ih =>
    obtain ⟨i, v⟩ := p
    obtain ⟨hi, hv⟩ := hps (i, v) List.mem_cons_self
    obtain ⟨hshape, hcast⟩ := isOf_iff.1 hv
    obtain ⟨b, hput, hstored⟩ := put_of_hasShape hi t v a ha hshape
    obtain ⟨c, hrun, hc, hget⟩ := ih hstored.allocated fun q hq => hps q (List.mem_cons_of_mem _ hq)
    refine ⟨c, ?_, hc, ?_⟩
    · rw [putEach, hput]
      exact hrun
    · intro j
      rw [hget j, lastPut?_cons]
      by_cases hj : i = j
      · subst hj
        rw [hstored.get?_self, hcast, if_pos rfl, Option.or_assoc]
        rfl
      · rw [hstored.get?_other j (Ne.symm hj), if_neg hj, Option.or_none]

theorem mapM_eq_some_map {α β : Type} {f : α → Option β} {g : α → β} {l : List α}
    (h : ∀ x ∈ l, f x = some (g x)) : l.mapM f = some (l.map g) := by
  induction l with
  | nil => rfl
  | cons x l ih =>
    rw [List.mapM_cons, h x List.mem_cons_self, ih fun y hy => h y (List.mem_cons_of_mem _ hy)]
    rfl

theorem toList?_of_get? {f : Nat → Value} (h : ∀ i < a.size, get? i a = some (f i)) :
    a.toList? = some ((List.range a.size).map f) := by
  rw [toList?_eq_mapM]
  exact mapM_eq_some_map fun i hi => h i (List.mem_range.1 hi)

theorem exists_toList? (h : ∀ i < a.size, (get? i a).isSome) : ∃ vs, a.toList? = some vs ∧
    vs.length = a.size ∧ ∀ i, (hi : i < vs.length) → get? i a = some vs[i] := by
  have hread (i : Nat) (hi : i < a.size) : get? i a = some ((get? i a).getD default) := by
    obtain ⟨v, hv⟩ := Option.isSome_iff_exists.1 (h i hi)
    rw [hv]
    rfl
  refine ⟨_, toList?_of_get? hread, by simp, fun i hi => ?_⟩
  rw [List.getElem_map, List.getElem_range]
  exact hread i (by simpa using hi)

/-! ### The law -/

/-- The law of storing and reading. Let the mode store all leaves of a valid type, but not whole
values. A value is taken at an index below the size exactly if it has the shape of the type. It is
read back with its leaves converted, and all else is as it was. After any run of stores a new array
holds at every index the value last stored there, or the zero of the type. -/
theorem put_get_law (t : ElementType) (mode : StorageMode) (hvalid : t.validate = .ok ())
    (hmode : mode ≠ .object)
    (hbackend : ∀ k ∈ Bounded.kinds t, ∃ b, Backend.select k mode = .ok b) :
    (∀ a size, Allocated mode size t a → ∀ i < a.size, ∀ v,
      ((put i v a).2 = none ↔ HasShape t v) ∧
      ((put i v a).2 = none →
        get? i (put i v a).1 = some (castLeaves t v) ∧
        (∀ j, j ≠ i → get? j (put i v a).1 = get? j a) ∧
        (put i v a).1.headers = a.headers ∧ (put i v a).1.header = a.header ∧
        Allocated mode size t (put i v a).1)) ∧
    (∀ size, ∃ a, construct size t mode true = .ok a ∧ a.size = size ∧ Allocated mode size t a ∧
      ∀ ps : List (Nat × Value), (∀ p ∈ ps, p.1 < size ∧ IsOf t p.2) →
        ∃ b, putEach a ps = .ok b ∧
          b.toList? = some
            ((List.range size).map fun i => (lastPut? ps i).getD (Value.zero t))) := by
  constructor
  · intro a size ha i hi v
    rw [ha.size_eq] at hi
    have hiff := put_eq_none_iff ha hi v
    refine ⟨hiff, fun h => ?_⟩
    obtain ⟨b, hput, hstored⟩ := put_of_hasShape hi t v a ha (hiff.mp h)
    rw [hput]
    refine ⟨hstored.get?_self, hstored.get?_other, hstored.headers_eq, ?_, hstored.allocated⟩
    have := congrArg List.head? hstored.headers_eq
    cases a <;> cases b <;> simpa [headers, header] using this
  · intro size
    obtain ⟨a, hnew, ha, hzero⟩ := @build_eq_ok mode size hmode t hbackend
    refine ⟨a, ?_, ha.size_eq, ha, fun ps hps => ?_⟩
    · rw [construct, hvalid]
      exact hnew
    · obtain ⟨b, hrun, hb, hget⟩ := putEach_eq_ok ps ha hps
      refine ⟨b, hrun, ?_⟩
      rw [← hb.size_eq]
      apply toList?_of_get?
      intro i hi
      rw [hget i, hzero i (hb.size_eq ▸ hi)]
      cases lastPut? ps i <;> rfl

/-- Three elements of a nested record as bytes, stored out of order and one of them twice. -/
theorem put_get_law_nested :
    let t := ElementType.record [.scalar .int, .record [.scalar .byte, .scalar .long]]
    let v := fun n : Int32 => Value.tuple [.scalar (.int n),
      .tuple [.scalar (.byte 7), .scalar (.long (-1))]]
    t.validate = .ok () ∧
    (∀ k ∈ Bounded.kinds t, ∃ b, Backend.select k .plainBytes = .ok b) ∧
    ∃ a b, construct 3 t .plainBytes true = .ok a ∧
      putEach a [(1, v 5), (0, v (-2)), (1, v 6)] = .ok b ∧
      b.toList? = some [v (-2), v 6, Value.zero t] := by
  intro t v
  have hbackend : ∀ k ∈ [ScalarKind.int, .byte, .long],
      ∃ b, Backend.select k .plainBytes = .ok b := by
    intro k hk
    refine ⟨.bytes false, ?_⟩
    revert k
    simp [Backend.select, StorageMode.isPinned]
  have hof : ∀ n, IsOf t (v n) := fun n => ⟨rfl, ⟨rfl, rfl, trivial⟩, trivial⟩
  obtain ⟨a, hnew, -, -, hrun⟩ := (put_get_law t .plainBytes rfl (by decide) hbackend).2 3
  obtain ⟨b, hb, hlist⟩ := hrun [(1, v 5), (0, v (-2)), (1, v 6)] (by simp [hof])
  exact ⟨rfl, hbackend, a, b, hnew, hb, hlist⟩

end PortableArray

end Kernelwright
