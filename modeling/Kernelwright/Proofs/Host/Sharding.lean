import Kernelwright.Proofs.Host.Results
import Kernelwright.Proofs.PortableArray.Windows

/-!
# Map and reduce on parts of an array

A map looks at one element at a time, so an array may be cut into chunks that are mapped one by one.
A fold hands on nothing but its accumulator, so it may be cut in two. Neither is free: a chunk is an
array of its own that has to hold just the elements of a window, and the result of the first part is
converted, stored and read back before it becomes the identity of the second.
-/

namespace Kernelwright

/-- A step can be made at each member of a list, with a result as wanted, exactly if it can be made
at all of them. -/
theorem mapM_isOk_iff {ε α β : Type} {f : α → Except ε β} {P : β → Prop} {l : List α} :
    (∃ bs, l.mapM f = .ok bs ∧ ∀ b ∈ bs, P b) ↔ ∀ a ∈ l, ∃ b, f a = .ok b ∧ P b := by
  induction l with
  | nil => exact ⟨fun _ => List.forall_mem_nil _, fun _ => ⟨[], rfl, List.forall_mem_nil _⟩⟩
  | cons a l ih =>
    rw [List.forall_mem_cons, ← ih]
    constructor
    · rintro ⟨bs, hbs, hall⟩
      rw [List.mapM_cons] at hbs
      obtain ⟨b, hb, hbs⟩ := bind_eq_ok.1 hbs
      obtain ⟨bs', hbs', hbs⟩ := bind_eq_ok.1 hbs
      cases hbs
      rw [List.forall_mem_cons] at hall
      exact ⟨⟨b, hb, hall.1⟩, bs', hbs', hall.2⟩
    · rintro ⟨⟨b, hb, hP⟩, bs, hbs, hall⟩
      refine ⟨b :: bs, ?_, List.forall_mem_cons.2 ⟨hP, hall⟩⟩
      rw [List.mapM_cons]
      exact bind_eq_ok.2 ⟨b, hb, bind_eq_ok.2 ⟨bs, hbs, rfl⟩⟩

/-! ### Values and their types -/

namespace Value

mutual

theorem isOf_of_typeOf : {v : Value} → {t : ElementType} → v.typeOf = .ok t → IsOf t v
  | .scalar s, t, h => by
    cases h
    rfl
  | .tuple vs, t, h => by
    rw [typeOf] at h
    split at h
    · cases h
    · next hts =>
      split at h
      · cases h
        exact areOf_of_typesOf hts
      · cases h

theorem areOf_of_typesOf : {vs : List Value} → {ts : List ElementType} → typesOf vs = .ok ts →
    AreOf ts vs
  | [], ts, h => by
    cases h
    trivial
  | v :: vs, ts, h => by
    rw [typesOf] at h
    split at h
    · cases h
    · next hv =>
      split at h
      · cases h
      · next hvs =>
        cases h
        exact ⟨isOf_of_typeOf hv, areOf_of_typesOf hvs⟩

end

mutual

theorem typeOf_of_isOf : {t : ElementType} → {v : Value} → t.badArity? = none → IsOf t v →
    v.typeOf = .ok t
  | .scalar k, .scalar s, _, h => by
    obtain rfl : s.kind = k := h
    rfl
  | .record ts, .tuple vs, hvalid, h => by
    rw [ElementType.badArity?] at hvalid
    split at hvalid
    · rename_i harity
      rw [typeOf, typesOf_of_areOf hvalid h]
      exact if_pos harity
    · cases hvalid
  | .scalar _, .tuple _, _, h => h.elim
  | .record _, .scalar _, _, h => h.elim

theorem typesOf_of_areOf : {ts : List ElementType} → {vs : List Value} →
    ElementType.badArityIn? ts = none → AreOf ts vs → typesOf vs = .ok ts
  | [], [], _, _ => rfl
  | t :: ts, v :: vs, hvalid, h => by
    rw [ElementType.badArityIn?] at hvalid
    split at hvalid
    · cases hvalid
    · rename_i hfirst
      rw [typesOf, typeOf_of_isOf hfirst h.1, typesOf_of_areOf hvalid h.2]
  | [], _ :: _, _, h => h.elim
  | _ :: _, [], _, h => h.elim

end

mutual

theorem castTo_of_isOf : {t : ElementType} → {v : Value} → IsOf t v → v.castTo t = v
  | .scalar k, .scalar s, h => by
    obtain rfl : s.kind = k := h
    simp [castTo, cast]
  | .record ts, .tuple vs, h => by
    have hlen : vs.length = ts.length := HaveShapes.length_eq (areOf_iff.1 h).1
    rw [castTo_of_length hlen.symm, castAll_of_areOf h]
  | .scalar _, .tuple _, h => h.elim
  | .record _, .scalar _, h => h.elim

theorem castAll_of_areOf : {ts : List ElementType} → {vs : List Value} → AreOf ts vs →
    castAll vs ts = vs
  | [], [], _ => rfl
  | t :: ts, v :: vs, h => by rw [castAll, castTo_of_isOf h.1, castAll_of_areOf h.2]
  | [], _ :: _, h => h.elim
  | _ :: _, [], h => h.elim

end

end Value

namespace Host

open PortableArray Value

variable {lambdas : List Graph} {fuel : Nat} {name : String} {scope : List HostValue}
  {a b : PortableArray} {vs : List Value} {t : ElementType}

theorem logicalValues_of_toList? (hplain : a.isSequence = false) (hvs : a.toList? = some vs) :
    logicalValues a = .ok vs := by
  rw [logicalValues, hplain]
  simp only [Bool.false_eq_true, if_false, hvs]

/-! ### Map -/

section Map

/-- What a map makes of an element: the result of the lambda, converted to the type of the
results. -/
def image (lambdas : List Graph) (fuel : Nat) (name : String) (scope : List HostValue)
    (t : ElementType) (v : Value) : Except HostError Value :=
  (callElement lambdas fuel name (scope ++ [.value v])).map (·.castTo t)

theorem mapM_image_eq_ok {rs : List Value}
    (h : vs.mapM (image lambdas fuel name scope t) = .ok rs) :
    ∀ r ∈ rs, ∃ w : Value, r = w.castTo t := by
  obtain ⟨hlength, hall⟩ := mapM_eq_ok h
  intro r hr
  obtain ⟨k, hk⟩ := List.mem_iff_getElem?.1 hr
  obtain ⟨v, hv⟩ : ∃ v, vs[k]? = some v := by
    obtain ⟨hlt, -⟩ := List.getElem?_eq_some_iff.1 hk
    exact ⟨vs[k], List.getElem?_eq_getElem (hlength ▸ hlt)⟩
  obtain ⟨w, -, rfl⟩ := map_eq_ok.1 (hall k v r hv hk)
  exact ⟨w, rfl⟩

theorem map_eq_ok_iff (hplain : a.isSequence = false) (hvs : a.toList? = some vs) :
    map lambdas fuel name scope a t = .ok b ↔
      ∃ rs, vs.mapM (image lambdas fuel name scope t) = .ok rs ∧ ofResults t rs = .ok b := by
  have hvalues := logicalValues_of_toList? hplain hvs
  constructor
  · intro h
    obtain ⟨vs', hvs', h⟩ := bind_eq_ok.1 h
    cases hvalues.symm.trans hvs'
    exact bind_eq_ok.1 h
  · intro h
    exact bind_eq_ok.2 ⟨vs, hvalues, bind_eq_ok.2 h⟩

/-- A map succeeds exactly if each element has an image of the type of the results. -/
theorem map_isOk_iff (hvalid : t.validate = .ok ()) (hplain : a.isSequence = false)
    (hvs : a.toList? = some vs) :
    (∃ b, map lambdas fuel name scope a t = .ok b) ↔
      ∀ v ∈ vs, ∃ r, image lambdas fuel name scope t v = .ok r ∧ IsOf t r := by
  rw [← mapM_isOk_iff]
  constructor
  · rintro ⟨b, hb⟩
    obtain ⟨rs, hrs, hresults⟩ := (map_eq_ok_iff hplain hvs).1 hb
    exact ⟨rs, hrs, isOf_of_ofResults hresults (mapM_image_eq_ok hrs)⟩
  · rintro ⟨rs, hrs, hall⟩
    have hselect : ∀ k ∈ Bounded.kinds t, ∃ b, Backend.select k .nativeBuffers = .ok b :=
      fun _ _ => ⟨.native, rfl⟩
    obtain ⟨b, hb, -⟩ := ofValues_of_keeps hvalid hselect hall
    exact ⟨b, (map_eq_ok_iff hplain hvs).2 ⟨rs, hrs, by rw [ofResults, hb]; rfl⟩⟩

theorem map_toList? (hplain : a.isSequence = false) (hvs : a.toList? = some vs)
    (h : map lambdas fuel name scope a t = .ok b) :
    ∃ rs, vs.mapM (image lambdas fuel name scope t) = .ok rs ∧ b.toList? = some rs := by
  obtain ⟨rs, hrs, hresults⟩ := (map_eq_ok_iff hplain hvs).1 h
  exact ⟨rs, hrs, ofResults_toList? hresults (mapM_image_eq_ok hrs)⟩

variable {chunks ds : List PortableArray} {windows : List (List Value)}

/-- Several arrays can be mapped one by one exactly if all their elements have images. -/
theorem map_chunks_isOk_iff (hvalid : t.validate = .ok ())
    (hplain : ∀ c ∈ chunks, c.isSequence = false)
    (hwindows : chunks.mapM PortableArray.toList? = some windows) :
    (∀ c ∈ chunks, ∃ d, map lambdas fuel name scope c t = .ok d) ↔
      ∀ v ∈ windows.flatten, ∃ r, image lambdas fuel name scope t v = .ok r ∧ IsOf t r := by
  induction chunks generalizing windows with
  | nil =>
    cases hwindows
    exact ⟨fun _ => List.forall_mem_nil _, fun _ => List.forall_mem_nil _⟩
  | cons c chunks ih =>
    rw [List.mapM_cons] at hwindows
    obtain ⟨w, hw, hrest⟩ := Option.bind_eq_some_iff.1 hwindows
    obtain ⟨ws, hws, hcons⟩ := Option.bind_eq_some_iff.1 hrest
    cases hcons
    rw [List.forall_mem_cons] at hplain ⊢
    rw [List.flatten_cons, List.forall_mem_append, map_isOk_iff hvalid hplain.1 hw, ih hplain.2 hws]

theorem map_chunks_toList? (hplain : ∀ c ∈ chunks, c.isSequence = false)
    (hwindows : chunks.mapM PortableArray.toList? = some windows)
    (h : chunks.mapM (map lambdas fuel name scope · t) = .ok ds) :
    ∃ results, ds.mapM PortableArray.toList? = some results ∧
      windows.flatten.mapM (image lambdas fuel name scope t) = .ok results.flatten := by
  induction chunks generalizing windows ds with
  | nil =>
    cases hwindows
    cases h
    exact ⟨[], rfl, rfl⟩
  | cons c chunks ih =>
    rw [List.mapM_cons] at hwindows h
    obtain ⟨w, hw, hrest⟩ := Option.bind_eq_some_iff.1 hwindows
    obtain ⟨ws, hws, hcons⟩ := Option.bind_eq_some_iff.1 hrest
    cases hcons
    obtain ⟨d, hd, hrest⟩ := bind_eq_ok.1 h
    obtain ⟨ds', hds, hcons⟩ := bind_eq_ok.1 hrest
    cases hcons
    rw [List.forall_mem_cons] at hplain
    obtain ⟨rs, hrs, hlist⟩ := map_toList? hplain.1 hw hd
    obtain ⟨results, hlists, hresults⟩ := ih hplain.2 hws hds
    refine ⟨rs :: results, ?_, ?_⟩
    · rw [List.mapM_cons, hlist, hlists]
      rfl
    · rw [List.flatten_cons, List.flatten_cons, List.mapM_append, hrs, hresults]
      rfl

/-- A map commutes with cutting the array into chunks. The map of the whole array succeeds exactly
if the map of each chunk does, and the elements of the results for the chunks, side by side, are
then those of the result for the whole. -/
theorem map_splitBySize (lambdas : List Graph) (fuel : Nat) (name : String) (scope : List HostValue)
    (t : ElementType) (hvalid : t.validate = .ok ()) (a : PortableArray)
    (ha : Stocked a) (chunk : Nat) (hchunk : 0 < chunk) :
    ∃ slices chunks, a.splitBySize chunk = .ok slices ∧
      slices.mapM ArraySlice.toArray = .ok chunks ∧
      ((∃ b, map lambdas fuel name scope a t = .ok b) ↔
        ∀ c ∈ chunks, ∃ d, map lambdas fuel name scope c t = .ok d) ∧
      ∀ b, map lambdas fuel name scope a t = .ok b →
        ∃ ds results, chunks.mapM (map lambdas fuel name scope · t) = .ok ds ∧
          ds.mapM PortableArray.toList? = some results ∧ b.toList? = some results.flatten := by
  obtain ⟨vs, hvs, -⟩ := ha.toList?
  obtain ⟨slices, chunks, windows, hslices, harrays, hwindows, rfl, hplain⟩ :=
    ha.splitBySize hvs hchunk
  have hiff : (∃ b, map lambdas fuel name scope a t = .ok b) ↔
      ∀ c ∈ chunks, ∃ d, map lambdas fuel name scope c t = .ok d := by
    rw [map_isOk_iff hvalid ha.isSequence hvs, map_chunks_isOk_iff hvalid hplain hwindows]
  refine ⟨slices, chunks, hslices, harrays, hiff, fun b hb => ?_⟩
  obtain ⟨ds, hds, -⟩ := mapM_isOk_iff.2 fun c hc => by
    obtain ⟨d, hd⟩ := hiff.1 ⟨b, hb⟩ c hc
    exact ⟨d, hd, trivial⟩
  obtain ⟨results, hlists, hresults⟩ := map_chunks_toList? hplain hwindows hds
  obtain ⟨rs, hrs, hlist⟩ := map_toList? ha.isSequence hvs hb
  cases hrs.symm.trans hresults
  exact ⟨ds, results, hds, hlists, hlist⟩

/-- The product of the two components of a pair. -/
def product : Graph := .ofOperations "product" [
  .parameter 0 (.tuple (.record [.scalar .int, .scalar .int])),
  .invoke (.tupleField 2 0) [1] (.scalar .int), .invoke (.tupleField 2 1) [1] (.scalar .int),
  .binary .mul 2 3]

def whole (t : ElementType) (vs : List Value) : PortableArray :=
  .flat (newHeader t .object vs.length) (.boxed vs.toArray)

/-- Three pairs, in chunks of two. -/
theorem map_splitBySize_products :
    let pair := fun m n : Int32 => Value.tuple [.scalar (.int m), .scalar (.int n)]
    let a := whole (.record [.scalar .int, .scalar .int]) [pair 2 3, pair 0 7, pair (-1) 4]
    ElementType.validate (.scalar .long) = .ok () ∧ Stocked a ∧ 0 < 2 ∧
      ∃ b, map [product] 20 "product" [] a (.scalar .long) = .ok b ∧
        b.toList? = some [.scalar (.long 6), .scalar (.long 0), .scalar (.long (-4))] ∧
        ∃ slices chunks ds results, a.splitBySize 2 = .ok slices ∧
          slices.mapM ArraySlice.toArray = .ok chunks ∧
          chunks.mapM (map [product] 20 "product" [] · (.scalar .long)) = .ok ds ∧
          ds.mapM PortableArray.toList? = some results ∧ b.toList? = some results.flatten := by
  intro pair a
  have ha : ofValues (.record [.scalar .int, .scalar .int]) .object
      [pair 2 3, pair 0 7, pair (-1) 4] = .ok a := rfl
  have hstocked := stocked_ofValues ha
  refine ⟨rfl, hstocked, by decide, exists_ok_and (by decide +kernel) fun b hb _ => ?_⟩
  obtain ⟨slices, chunks, hslices, harrays, -, hresults⟩ :=
    map_splitBySize [product] 20 "product" [] (.scalar .long) rfl a hstocked 2 (by decide)
  obtain ⟨ds, results, h⟩ := hresults b hb
  exact ⟨slices, chunks, ds, results, hslices, harrays, h⟩

end Map

/-! ### Reduce -/

section Reduce

variable {identity acc acc' : Value}

/-- One step of a fold: the result of the lambda for the accumulator and an element, converted to
the type of the identity. -/
def accumulate (lambdas : List Graph) (fuel : Nat) (name : String) (scope : List HostValue)
    (t : ElementType) (acc v : Value) : Except HostError Value :=
  (callElement lambdas fuel name (scope ++ [.value acc, .value v])).map (·.castTo t)

theorem castTo_of_foldlM (hacc : acc.castTo t = acc)
    (h : vs.foldlM (accumulate lambdas fuel name scope t) acc = .ok acc') :
    acc'.castTo t = acc' := by
  induction vs generalizing acc with
  | nil =>
    cases h
    exact hacc
  | cons v vs ih =>
    rw [List.foldlM_cons] at h
    obtain ⟨next, hnext, h⟩ := bind_eq_ok.1 h
    refine ih ?_ h
    obtain ⟨w, -, rfl⟩ := map_eq_ok.1 hnext
    exact castTo_castTo t w

/-- A fold of an array that is no sequence, taken apart. The accumulator needs no conversion at the
end. -/
theorem reduce_eq_ok_iff (hplain : a.isSequence = false) (hvs : a.toList? = some vs) :
    reduce lambdas fuel name scope a identity = .ok b ↔
      ∃ t acc, identity.typeOf = .ok t ∧
        vs.foldlM (accumulate lambdas fuel name scope t) identity = .ok acc ∧
        ofResults t [acc] = .ok b := by
  have hvalues := logicalValues_of_toList? hplain hvs
  unfold reduce
  cases htype : identity.typeOf with
  | error n =>
    constructor
    · intro h
      cases h
    · rintro ⟨t, acc, ht, -⟩
      cases ht
  | ok t =>
    have hidentity : identity.castTo t = identity := castTo_of_isOf (isOf_of_typeOf htype)
    constructor
    · intro h
      obtain ⟨vs', hvs', h⟩ := bind_eq_ok.1 h
      cases hvalues.symm.trans hvs'
      obtain ⟨acc, hacc, h⟩ := bind_eq_ok.1 h
      rw [castTo_of_foldlM hidentity hacc] at h
      exact ⟨t, acc, rfl, hacc, h⟩
    · rintro ⟨t', acc, ht, hacc, h⟩
      cases ht
      refine bind_eq_ok.2 ⟨vs, hvalues, bind_eq_ok.2 ⟨acc, hacc, ?_⟩⟩
      rwa [castTo_of_foldlM hidentity hacc]

theorem ofResults_accumulator (hacc : acc.castTo t = acc) (h : ofResults t [acc] = .ok b) :
    get? 0 b = some acc ∧ acc.typeOf = .ok t ∧ b.toList? = some [acc] := by
  have hconverted : ∀ v ∈ [acc], ∃ r : Value, v = r.castTo t :=
    fun v hv => ⟨acc, by rw [hacc, List.mem_singleton.1 hv]⟩
  obtain ⟨hvalid, -⟩ := putFrom_of_ofResults h
  obtain ⟨-, hread⟩ := ofResults_eq_ok h hconverted
  refine ⟨hread 0 (by simp), typeOf_of_isOf ?_ (isOf_of_ofResults h hconverted acc (.head _)),
    ofResults_toList? h hconverted⟩
  unfold ElementType.validate at hvalid
  split at hvalid
  · cases hvalid
  · assumption

/-- A fold can be split at any point. If the fold of the whole array and that of its first part
succeed, so does the fold of the rest that starts from the result of the first part, and its result
is that of the whole. -/
theorem reduce_slice (lambdas : List Graph) (fuel : Nat) (name : String) (scope : List HostValue)
    (identity : Value) (a : PortableArray) (ha : Stocked a) (k : Nat) (hk : k ≤ a.size) :
    ∃ front back first rest, a.slice 0 k = .ok front ∧ front.toArray = .ok first ∧
      a.slice k (a.size - k) = .ok back ∧ back.toArray = .ok rest ∧
      ∀ r r₁, reduce lambdas fuel name scope a identity = .ok r →
        reduce lambdas fuel name scope first identity = .ok r₁ →
          ∃ v r₂ results, get? 0 r₁ = some v ∧ reduce lambdas fuel name scope rest v = .ok r₂ ∧
            r₂.toList? = some results ∧ r.toList? = some results := by
  obtain ⟨vs, hvs, hlength, -⟩ := ha.toList?
  obtain ⟨front, first, hfront, hfirst, hfirstList, hfirstPlain⟩ :=
    ha.slice hvs 0 k (by omega)
  obtain ⟨back, rest, hback, hrest, hrestList, hrestPlain⟩ :=
    ha.slice hvs k (a.size - k) (by omega)
  refine ⟨front, back, first, rest, hfront, hfirst, hback, hrest, fun r r₁ hr hr₁ => ?_⟩
  rw [List.drop_zero] at hfirstList
  rw [List.take_of_length_le (by rw [List.length_drop]; omega)] at hrestList
  obtain ⟨t, acc, htype, hacc, hresult⟩ := (reduce_eq_ok_iff ha.isSequence hvs).1 hr
  obtain ⟨t', acc₁, htype', hacc₁, hresult₁⟩ := (reduce_eq_ok_iff hfirstPlain hfirstList).1 hr₁
  cases htype.symm.trans htype'
  -- the second part goes on where the first one ended
  have hsplit : (vs.drop k).foldlM (accumulate lambdas fuel name scope t) acc₁ = .ok acc := by
    rw [← List.take_append_drop k vs, List.foldlM_append, hacc₁] at hacc
    exact hacc
  have hcast : identity.castTo t = identity := castTo_of_isOf (isOf_of_typeOf htype)
  obtain ⟨hread, htype₁, -⟩ := ofResults_accumulator (castTo_of_foldlM hcast hacc₁) hresult₁
  obtain ⟨-, -, hlist⟩ := ofResults_accumulator (castTo_of_foldlM hcast hacc) hresult
  exact ⟨acc₁, r, [acc], hread,
    (reduce_eq_ok_iff hrestPlain hrestList).2 ⟨t, acc, htype₁, hsplit, hresult⟩, hlist, hlist⟩

/-- The difference of two integers, which is no operation that could be regrouped. -/
def difference : Graph := .ofOperations "difference" [.parameter 0 (.scalar .int),
  .parameter 1 (.scalar .int), .binary .sub 1 2]

/-- Three integers, split after the first. -/
theorem reduce_slice_differences :
    let integers := fun ns : List Int32 => whole (.scalar .int) (ns.map fun n => .scalar (.int n))
    let a := integers [5, 7, 1]
    let three := Value.scalar (.int 3)
    Stocked a ∧ 1 ≤ a.size ∧ ∃ r, reduce [difference] 20 "difference" [] a three = .ok r ∧
      r.toList? = some [.scalar (.int (-10))] ∧
      ∃ r₁, reduce [difference] 20 "difference" [] (integers [5]) three = .ok r₁ ∧
        get? 0 r₁ = some (.scalar (.int (-2))) ∧
        ∃ front back rest r₂, a.slice 0 1 = .ok front ∧ front.toArray = .ok (integers [5]) ∧
          a.slice 1 2 = .ok back ∧ back.toArray = .ok rest ∧
          reduce [difference] 20 "difference" [] rest (.scalar (.int (-2))) = .ok r₂ ∧
          r₂.toList? = r.toList? := by
  intro integers a three
  have ha : ofValues (.scalar .int) .object ([5, 7, 1].map fun n => .scalar (.int n)) = .ok a := rfl
  have hstocked := stocked_ofValues ha
  have hsize : 1 ≤ a.size := by decide
  obtain ⟨front, back, first, rest, hfront, hfirst, hback, hrest, hsplit⟩ :=
    reduce_slice [difference] 20 "difference" [] three a hstocked 1 hsize
  cases hfront
  obtain rfl : integers [5] = first := Except.ok.inj hfirst
  refine ⟨hstocked, hsize, exists_ok_and (by decide +kernel) fun r hr _ => ?_⟩
  refine exists_ok_and (by decide +kernel) fun r₁ hr₁ hread => ?_
  obtain ⟨v, r₂, results, hv, hr₂, hresults, hwhole⟩ := hsplit r r₁ hr hr₁
  cases hv.symm.trans hread
  exact ⟨_, back, rest, r₂, rfl, hfirst, hback, hrest, hr₂, hresults.trans hwhole.symm⟩

end Reduce

end Host

end Kernelwright
