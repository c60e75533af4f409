import Mathlib.Data.List.Forall2
import Kernelwright.Proofs.PortableArray.Formed

/-!
# Turning arrays into sequences

An array is turned into a sequence in two passes. The first looks whether each leaf can hold its
share of the three values; it changes nothing. The second installs what the first one found, and
could stop half-way if there was too little of it. There never is: `enable_eq_orKeep` says that the
two passes are one.

Whole values take their kind from the first one stored, so an array without any forgets the kind of
its elements.
-/

namespace Kernelwright.PortableArray

variable {k : ScalarKind} {s : Storage}

/-! ### The two passes -/

mutual

/-- The start, the stride and the bound of each leaf, in the order of the fields. -/
def leafSlots (start stride bound : Value) :
    PortableArray → Except ArrayError (List (Value × Value × Value))
  | flat h _ =>
    match h.type with
    | .scalar .boolean => .error (.sequenceKind .boolean)
    | .scalar _ => .ok [(start, stride, bound)]
    | .record _ => .error .boxedSequence
  | fields h cs => leafSlotsAll h.type start stride bound 0 cs

/-- The same for the fields of an array, from a field on. -/
def leafSlotsAll (type : ElementType) (start stride bound : Value) (field : Nat) :
    List PortableArray → Except ArrayError (List (Value × Value × Value))
  | [] => .ok []
  | c :: cs => do
    let ps ← leafSlots (← component type start field) (← component type stride field)
      (← component type bound field) c
    let qs ← leafSlotsAll type start stride bound (field + 1) cs
    return ps ++ qs

end

mutual

/-- Install slots at the leaves and give those left over. Where the slots run out, the array stays
as it is by then. -/
def install : PortableArray → List (Value × Value × Value) →
    PortableArray × List (Value × Value × Value) × Option ArrayError
  | flat h s, [] => (flat h s, [], some .boxedSequence)
  | flat h s, (start, stride, bound) :: ps =>
    (flat (sequenceHeader (flat h s)) (slots s start stride bound), ps, none)
  | fields h cs, ps =>
    match installAll cs ps with
    | (ds, ps, none) => (fields (sequenceHeader (fields h cs)) ds, ps, none)
    | (ds, ps, some e) => (fields h ds, ps, some e)

def installAll : List PortableArray → List (Value × Value × Value) →
    List PortableArray × List (Value × Value × Value) × Option ArrayError
  | [], ps => ([], ps, none)
  | c :: cs, ps =>
    match install c ps with
    | (d, ps, some e) => (d :: cs, ps, some e)
    | (d, ps, none) =>
      let (ds, ps, e) := installAll cs ps
      (d :: ds, ps, e)

end

/-- Check, then install. -/
def enable (start stride bound : Value) (a : PortableArray) : PortableArray × Option ArrayError :=
  match leafSlots start stride bound a with
  | .error e => (a, some e)
  | .ok ps =>
    let (b, _, e) := install a ps
    (b, e)

mutual

/-- The check finds exactly what can be installed: the array's own slots, and none of those that
follow. -/
theorem leafSlots_encode : (a : PortableArray) → (start stride bound : Value) →
    (∃ e, encode start stride bound a = .error e ∧ leafSlots start stride bound a = .error e) ∨
      ∃ b ps, encode start stride bound a = .ok b ∧ leafSlots start stride bound a = .ok ps ∧
        ∀ qs, install a (ps ++ qs) = (b, qs, none)
  | flat h s, start, stride, bound => by
    rw [encode, leafSlots]
    cases h.type with
    | record ts => exact .inl ⟨_, rfl, rfl⟩
    | scalar k =>
      cases k with
      | boolean => exact .inl ⟨_, rfl, rfl⟩
      | _ => exact .inr ⟨_, [(start, stride, bound)], rfl, rfl, fun _ => rfl⟩
  | fields h cs, start, stride, bound => by
    rw [encode, leafSlots]
    obtain ⟨e, hencode, hslots⟩ | ⟨ds, ps, hencode, hslots, hinstall⟩ :=
      leafSlotsAll_encodeAll cs h.type start stride bound 0
    · rw [hencode, hslots]
      exact .inl ⟨e, rfl, rfl⟩
    · rw [hencode, hslots]
      refine .inr ⟨_, ps, rfl, rfl, fun qs => ?_⟩
      rw [install, hinstall]

theorem leafSlotsAll_encodeAll : (cs : List PortableArray) → (type : ElementType) →
    (start stride bound : Value) → (field : Nat) →
    (∃ e, encodeAll type start stride bound field cs = .error e ∧
      leafSlotsAll type start stride bound field cs = .error e) ∨
      ∃ ds ps, encodeAll type start stride bound field cs = .ok ds ∧
        leafSlotsAll type start stride bound field cs = .ok ps ∧
        ∀ qs, installAll cs (ps ++ qs) = (ds, qs, none)
  | [], _, _, _, _, _ => .inr ⟨[], [], rfl, rfl, fun _ => rfl⟩
  | c :: cs, type, start, stride, bound, field => by
    rw [encodeAll, leafSlotsAll]
    cases component type start field with
    | error e => exact .inl ⟨e, rfl, rfl⟩
    | ok x =>
      cases component type stride field with
      | error e => exact .inl ⟨e, rfl, rfl⟩
      | ok y =>
        cases component type bound field with
        | error e => exact .inl ⟨e, rfl, rfl⟩
        | ok z =>
          obtain ⟨e, hencode, hslots⟩ | ⟨d, ps, hencode, hslots, hinstall⟩ :=
            leafSlots_encode c x y z
          · refine .inl ⟨e, ?_, ?_⟩
            · simp only [bind, Except.bind, hencode]
            · simp only [bind, Except.bind, hslots]
          · obtain ⟨e, hencodes, hslotss⟩ | ⟨ds, qs, hencodes, hslotss, hinstalls⟩ :=
              leafSlotsAll_encodeAll cs type start stride bound (field + 1)
            · refine .inl ⟨e, ?_, ?_⟩
              · simp only [bind, Except.bind, hencode, hencodes]
              · simp only [bind, Except.bind, hslots, hslotss]
            · refine .inr ⟨d :: ds, ps ++ qs, ?_, ?_, fun rest => ?_⟩
              · simp only [bind, Except.bind, hencode, hencodes]
                rfl
              · simp only [bind, Except.bind, hslots, hslotss]
                rfl
              · rw [List.append_assoc, installAll, hinstall]
                simp only [hinstalls]

end

/-- Check and installation together either succeed or leave the array as it was. -/
theorem enable_eq_orKeep (start stride bound : Value) (a : PortableArray) :
    enable start stride bound a = orKeep a (encode start stride bound a) := by
  obtain ⟨e, hencode, hslots⟩ | ⟨b, ps, hencode, hslots, hinstall⟩ :=
    leafSlots_encode a start stride bound
  · rw [enable, hslots, hencode]
    rfl
  · have hall := hinstall []
    rw [List.append_nil] at hall
    simp only [enable, hslots, hencode, hall, orKeep]

/-! ### Levels -/

mutual

/-- The array and all arrays nested in it, the outermost first. -/
def levels : PortableArray → List PortableArray
  | flat h s => [flat h s]
  | fields h cs => fields h cs :: levelsAll cs

def levelsAll : List PortableArray → List PortableArray
  | [] => []
  | c :: cs => levels c ++ levelsAll cs

end

/-- The leaves, in the order of the fields. -/
def leaves (a : PortableArray) : List PortableArray := a.levels.filter (!·.isSplit)

/-- A level `b` holds what the level `a` held as a sequence. -/
structure Encoded (a b : PortableArray) : Prop where
  type : b.type = a.type
  mode : b.mode = a.mode
  size : b.size = 3
  sequence : b.isSequence = true
  flag : b.marks.flag = a.marks.flag
  compass : b.marks.compass = a.marks.compass
  total : b.header.total = some a.logicalLength
  logicalLength : b.logicalLength = a.logicalLength

theorem Encoded.of_header {a b : PortableArray} (h : b.header = sequenceHeader a) :
    Encoded a b := by
  have htotal : b.header.total = some a.logicalLength := by rw [h]; rfl
  have hsequence : b.isSequence = true := by rw [isSequence, marks, h]; rfl
  refine ⟨?_, ?_, ?_, hsequence, ?_, ?_, htotal, ?_⟩
  · rw [PortableArray.type, h]
    rfl
  · rw [PortableArray.mode, h]
    rfl
  · rw [PortableArray.size, h]
    rfl
  · rw [marks, h]
    rfl
  · rw [marks, h]
    rfl
  · rw [PortableArray.logicalLength, if_pos hsequence, htotal]
    rfl

theorem length_slots (s : Storage) (start stride bound : Value) :
    (slots s start stride bound).length = sequenceSlots := by
  rw [slots, Storage.length_put, Storage.length_put, Storage.length_put]
  cases s with
  | native k cells => simp [Storage.reallocate, Storage.zeroNative, Storage.length]
  | bytes k pinned data => exact Storage.length_bytes Array.size_replicate
  | boxed cells => simp [Storage.reallocate, Storage.ofValue, Storage.length]

mutual

/-- A sequence is one at every level, and its layout has the entries of its leaves. -/
theorem encoded_of_encode : (a b : PortableArray) → (start stride bound : Value) →
    encode start stride bound a = .ok b →
      List.Forall₂ Encoded a.levels b.levels ∧ ∃ ps, progressions? b = some ps ∧
        List.Forall₂ (fun leaf p => progressions? leaf = some [p]) b.leaves ps
  | flat h s, b, start, stride, bound, hb => by
    rw [encode] at hb
    split at hb
    · cases hb
    · cases hb
      obtain ⟨p, hp⟩ := Option.isSome_iff_exists.1 (progression?_isSome
        (length_slots s start stride bound) (sequenceHeader (flat h s)).marks)
      have hread : progressions? (flat (sequenceHeader (flat h s)) (slots s start stride bound))
          = some [p] := by
        rw [progressions?, hp]
        rfl
      exact ⟨.cons (.of_header rfl) .nil, [p], hread, .cons hread .nil⟩
    · cases hb
  | fields h cs, b, start, stride, bound, hb => by
    rw [encode] at hb
    split at hb
    · rename_i ds hds
      cases hb
      obtain ⟨hlevels, ps, hps, hleaves⟩ := encodedAll_of_encodeAll cs ds _ _ _ _ _ hds
      exact ⟨.cons (.of_header rfl) hlevels, ps, by rw [progressions?, hps]; rfl, hleaves⟩
    · cases hb

theorem encodedAll_of_encodeAll : (cs ds : List PortableArray) → (type : ElementType) →
    (start stride bound : Value) → (field : Nat) →
    encodeAll type start stride bound field cs = .ok ds →
      List.Forall₂ Encoded (levelsAll cs) (levelsAll ds) ∧ ∃ ps, progressionsAll? ds = some ps ∧
        List.Forall₂ (fun leaf p => progressions? leaf = some [p])
          ((levelsAll ds).filter (!·.isSplit)) ps
  | [], _, _, _, _, _, _, hds => by
    cases hds
    exact ⟨.nil, [], rfl, .nil⟩
  | c :: cs, ds, type, start, stride, bound, field, hds => by
    rw [encodeAll] at hds
    obtain ⟨_, -, hds⟩ := bind_eq_ok.1 hds
    obtain ⟨_, -, hds⟩ := bind_eq_ok.1 hds
    obtain ⟨_, -, hds⟩ := bind_eq_ok.1 hds
    obtain ⟨d, hd, hds⟩ := bind_eq_ok.1 hds
    obtain ⟨ds', hds', hds⟩ := bind_eq_ok.1 hds
    cases hds
    obtain ⟨hlevels, ps, hps, hleaves⟩ := encoded_of_encode c d _ _ _ hd
    obtain ⟨hlevels', qs, hqs, hleaves'⟩ := encodedAll_of_encodeAll cs ds' _ _ _ _ _ hds'
    refine ⟨List.rel_append hlevels hlevels', ps ++ qs, by rw [progressionsAll?, hps, hqs], ?_⟩
    rw [levelsAll, List.filter_append]
    exact List.rel_append hleaves hleaves'

end

/-- Turning an array into a sequence is all or nothing. If it is refused, the array is as it was.
Otherwise each level has three elements and the mark of a sequence, and stands for as many elements
as before. The layout has one entry for each leaf, in the order of the fields. -/
theorem enable_all_or_nothing (start stride bound : Value) (a : PortableArray) :
    (∃ e, encode start stride bound a = .error e ∧ enable start stride bound a = (a, some e)) ∨
      ∃ b, encode start stride bound a = .ok b ∧ enable start stride bound a = (b, none) ∧
        List.Forall₂ Encoded a.levels b.levels ∧
        ∃ layout, b.sequenceLayout? = some layout ∧
          List.Forall₂ (fun leaf p => progressions? leaf = some [p]) b.leaves layout.fields := by
  cases hencode : encode start stride bound a with
  | error e => exact .inl ⟨e, rfl, by rw [enable_eq_orKeep, hencode]; rfl⟩
  | ok b =>
    obtain ⟨hlevels, ps, hps, hleaves⟩ := encoded_of_encode a b start stride bound hencode
    exact .inr ⟨b, rfl, by rw [enable_eq_orKeep, hencode]; rfl, hlevels, ⟨ps⟩,
      by rw [sequenceLayout?, hps]; rfl, hleaves⟩

/-! ### The kind of the slots -/

/-- The storage has these three elements. -/
def HasSlots (s : Storage) (start stride bound : Value) : Prop :=
  s.get? 0 = some start ∧ s.get? 1 = some stride ∧ s.get? 2 = some bound

theorem hasSlots_of_isColumn {mode : StorageMode} {size : Nat} (hs : s.IsColumn k mode size)
    (x y z : Scalar) :
    HasSlots (slots s (.scalar x) (.scalar y) (.scalar z))
      (.scalar (x.cast k)) (.scalar (y.cast k)) (.scalar (z.cast k)) := by
  have h₀ : (s.reallocate sequenceSlots).IsColumn k mode 3 := by
    cases s with
    | native k' cells => exact ⟨hs.1, hs.2.1, Array.size_replicate⟩
    | bytes k' pinned data =>
      obtain ⟨hbackend, rfl, -⟩ := hs
      exact ⟨hbackend, rfl, Array.size_replicate⟩
    | boxed cells => exact hs.elim
  have h₁ : ((s.reallocate sequenceSlots).put 0 (.scalar x)).IsColumn k mode 3 := h₀.put x
  have h₂ : (((s.reallocate sequenceSlots).put 0 (.scalar x)).put 1 (.scalar y)).IsColumn k
    mode 3 := h₁.put y
  refine ⟨?_, ?_, h₂.get?_put_self (by decide) z⟩
  · rw [slots, h₂.get?_put_of_ne (by decide) z (by decide),
      h₁.get?_put_of_ne (by decide) y (by decide), h₀.get?_put_self (by decide) x]
  · rw [slots, h₂.get?_put_of_ne (by decide) z (by decide), h₁.get?_put_self (by decide) y]

theorem hasSlots_boxed {cells : Array Value}
    (hk : (cells[0]?.getD (Value.scalar (.int 0))).kind? = some k) (x y z : Scalar) :
    HasSlots (slots (.boxed cells) (.scalar x) (.scalar y) (.scalar z))
      (.scalar (x.cast k)) (.scalar (y.cast k)) (.scalar (z.cast k)) := by
  simp [HasSlots, slots, sequenceSlots, Storage.reallocate, Storage.ofValue, Storage.put,
    Storage.get?, Array.getElem_modify, hk, Value.cast]

/-- The kind that the three elements of a new array get. An array of whole values that holds none
takes them for integers. -/
def slotKind (k : ScalarKind) (mode : StorageMode) (size : Nat) (init : Bool) : ScalarKind :=
  if mode = .object ∧ (size = 0 ∨ init = false) then .int else k

theorem hasSlots_allocate (hk : k ≠ .boolean) (mode : StorageMode) (size : Nat) (init : Bool)
    (x y z : Scalar) :
    ∃ s, Storage.allocate k mode (if init then size else 0) = .ok s ∧
      HasSlots (slots s (.scalar x) (.scalar y) (.scalar z))
        (.scalar (x.cast (slotKind k mode size init)))
        (.scalar (y.cast (slotKind k mode size init)))
        (.scalar (z.cast (slotKind k mode size init))) := by
  by_cases hmode : mode = .object
  · subst hmode
    refine ⟨_, rfl, hasSlots_boxed ?_ x y z⟩
    cases init with
    | false => cases size <;> rfl
    | true =>
      cases size with
      | zero => rfl
      | succ n => simp [slotKind, Value.kind?, Value.scalar?]
  · obtain ⟨b, hb⟩ : ∃ b, Backend.select k mode = .ok b := by
      cases mode <;> simp [Backend.select, hk]
    obtain ⟨s, hs, hcolumn, -⟩ := Storage.allocate_eq_ok hmode hb (if init then size else 0)
    have hkind : slotKind k mode size init = k := if_neg fun h => hmode h.1
    rw [hkind]
    exact ⟨s, hs, hasSlots_of_isColumn hcolumn x y z⟩

theorem kind?_decodeFlat? {start stride bound : Value} (hs : HasSlots s start stride bound)
    (hk : start.kind? = some k) (marks : SequenceMarks) (i : Nat) :
    ∃ v, decodeFlat? marks s i = some v ∧ v.kind? = some k := by
  obtain ⟨h₀, h₁, h₂⟩ := hs
  refine ⟨progressionAt start stride (progressionIndex marks.rule bound.asInt64.toInt.toNat i), ?_,
    ?_⟩
  · rw [decodeFlat?, h₀, h₁, h₂]
    rfl
  · rw [progressionAt, hk]
    cases hf : k.isFloating <;> simp [Value.kind?, Value.scalar?, hf]

/-- The three elements of an array of numbers that is made a sequence, and all that it stands for,
are of one kind: that of the array exactly if it does not hold whole values, or has one, or is of
integers anyway. -/
theorem slots_have_slotKind (k : ScalarKind) (hk : k ≠ .boolean) (mode : StorageMode) (size : Nat)
    (init : Bool) (x y z : Scalar) :
    ∃ a b, construct size (.scalar k) mode init = .ok a ∧
      encode (.scalar x) (.scalar y) (.scalar z) a = .ok b ∧
      b.toList? = some ([x, y, z].map fun v => .scalar (v.cast (slotKind k mode size init))) ∧
      (∀ i, ∃ v, decode? i b = some v ∧ v.kind? = some (slotKind k mode size init)) ∧
      (slotKind k mode size init = k ↔ (mode = .object → k = .int ∨ 0 < size ∧ init = true)) := by
  obtain ⟨s, hs, hslots⟩ := hasSlots_allocate hk mode size init x y z
  have hencode (h : ArrayHeader) (htype : h.type = .scalar k) :
      encode (.scalar x) (.scalar y) (.scalar z) (flat h s) =
        .ok (flat (sequenceHeader (flat h s)) (slots s (.scalar x) (.scalar y) (.scalar z))) := by
    rw [encode, htype]
    cases k with
    | boolean => exact absurd rfl hk
    | _ => rfl
  refine ⟨flat (newHeader (.scalar k) mode size) s, _, ?_, hencode _ rfl, ?_, fun i => ?_, ?_⟩
  · rw [construct]
    simp only [ElementType.validate, ElementType.badArity?, build, newColumn, hs]
    rfl
  · rw [toList?_eq_mapM]
    show (List.range 3).mapM _ = _
    simp [List.range_succ, get?, hslots.1, hslots.2.1, hslots.2.2]
  · exact kind?_decodeFlat? hslots (by simp [Value.kind?, Value.scalar?]) _ i
  · cases mode <;> cases init <;> simp [slotKind, Nat.pos_iff_ne_zero, eq_comm, imp_iff_or_not]

/-- Of two doubles held as whole values, a sequence of doubles is made. -/
theorem doubles_keep_kind :
    ScalarKind.double ≠ .boolean ∧ ∃ a b, construct 2 (.scalar .double) .object true = .ok a ∧
      encode (.scalar (.int 1)) (.scalar (.int 2)) (.scalar (.int 0)) a = .ok b ∧
      b.toList? = some ([Scalar.int 1, .int 2, .int 0].map fun v => .scalar (v.cast .double)) := by
  obtain ⟨a, b, ha, hb, hlist, -⟩ :=
    slots_have_slotKind .double (by decide) .object 2 true (.int 1) (.int 2) (.int 0)
  exact ⟨by decide, a, b, ha, hb, hlist⟩

/-- Of no longs held as whole values, a sequence of integers is made. -/
theorem no_longs_become_ints :
    ∃ a b, construct 0 (.scalar .long) .object true = .ok a ∧
      encode (.scalar (.long 4294967301)) (.scalar (.long 1)) (.scalar (.long 0)) a = .ok b ∧
      b.toList? = some [.scalar (.int 5), .scalar (.int 1), .scalar (.int 0)] ∧
      decode? 1 b = some (.scalar (.int 6)) :=
  ⟨_, _, rfl, rfl, by decide, by decide⟩

end Kernelwright.PortableArray
