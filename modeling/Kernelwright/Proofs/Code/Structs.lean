import Kernelwright.Code.Structs
import Kernelwright.Proofs.Element.Names

/-!
# Closed struct declarations

Declarations are *closed* if each of them can be read after those before it. Whatever is asked for,
they are added one at a time, each after the structs among its fields; `Grows` says so. A struct
among the parts of a type has a shorter name than the type, so no name is declared twice, and the
positions of the names stay in step with the declarations.

A record of one field stands for its field, and where that is a struct it is named by the part that
the struct contributes to longer names, under which nothing is declared. Declarations are closed
exactly if they have no such *hollow* field.
-/

namespace Kernelwright

namespace ElementType

variable {t u : ElementType}

/-! ### Parts and names -/

/-- What a type stands for: records of one field are opened. -/
def core : ElementType → ElementType
  | record [t] => core t
  | t => t

def isHollow (t : ElementType) : Bool := !t.needsStruct && t.core.needsStruct

/-- A type is a part of another if it is that type or a part of a field of it. -/
inductive Part (u : ElementType) : ElementType → Prop
  | whole : Part u u
  | field {t f : ElementType} : f ∈ t.fields → Part u f → Part u t

theorem Part.trans {v : ElementType} (h : Part u t) (h' : Part v u) : Part v t := by
  induction h with
  | whole => exact h'
  | field hf _ ih => exact .field hf ih

theorem badArity?_of_mem {f : ElementType} : ∀ {fs : List ElementType}, badArityIn? fs = none →
    f ∈ fs → f.badArity? = none
  | t :: fs, h, hf => by
    rw [badArityIn?] at h
    cases ht : t.badArity? with
    | some n => simp [ht] at h
    | none =>
      rw [ht] at h
      rcases List.mem_cons.1 hf with rfl | hf
      · exact ht
      · exact badArity?_of_mem h hf

theorem badArity?_field {f : ElementType} (h : t.badArity? = none) (hf : f ∈ t.fields) :
    f.badArity? = none := by
  cases t with
  | scalar k => cases hf
  | record fs =>
    rw [badArity?] at h
    split at h
    · exact badArity?_of_mem h hf
    · cases h

theorem Part.badArity? (h : Part u t) (ht : t.badArity? = none) : u.badArity? = none := by
  induction h with
  | whole => exact ht
  | field hf _ ih => exact ih (badArity?_field ht hf)

theorem core_of_valid : ∀ {t : ElementType}, t.badArity? = none →
    (∃ k, t.core = scalar k) ∨ t.core.needsStruct = true
  | scalar k, _ => .inl ⟨k, by rw [core]; simp⟩
  | record [], h => by simp [ElementType.badArity?, arityOk] at h
  | record [t], h => by
    rw [core]
    exact core_of_valid (badArity?_field h (List.mem_singleton.2 rfl))
  | record (a :: b :: fs), _ => .inr (by rw [core] <;> simp [needsStruct])

theorem core_of_needsStruct (h : t.needsStruct = true) : t.core = t := by
  cases t with
  | scalar k => cases h
  | record fs =>
    rw [core]
    rintro u hu
    cases hu
    simp [needsStruct] at h

theorem nameToken_core (t : ElementType) : t.core.nameToken = t.nameToken := by
  fun_induction core t with
  | case1 t ih => rw [ih, nameToken]
  | case2 => rfl

theorem cName_of_not_needsStruct (h : t.needsStruct = false) : t.cName = t.nameToken := by
  cases t with
  | scalar k => rfl
  | record fs =>
    simp only [needsStruct, decide_eq_false_iff_not] at h
    simp only [cName, if_neg h]

theorem cName_of_core_scalar {k : ScalarKind} (h : t.core = scalar k) : t.cName = k.cName := by
  have hstruct : t.needsStruct = false := by
    cases hne : t.needsStruct with
    | false => rfl
    | true =>
      rw [core_of_needsStruct hne] at h
      rw [h] at hne
      cases hne
  rw [cName_of_not_needsStruct hstruct, ← nameToken_core, h, nameToken]

/-- What stands in the name of a record right after the word that all of them start with. -/
def sortOfName (name : String) : Option Char := (name.toList.drop 5).head?

theorem sortOfName_struct (h : t.needsStruct = true) : sortOfName t.cName = some '_' := by
  cases t with
  | scalar k => cases h
  | record fs =>
    simp only [needsStruct, decide_eq_true_eq] at h
    cases fs with
    | nil => cases h
    | cons f fs =>
      simp only [cName, if_pos h, nameTokens, sortOfName, String.toList_append]
      rfl

/-- The part that a struct contributes to longer names has its arity where a declared name has an
underscore. -/
theorem sortOfName_hollow (h : t.isHollow = true) :
    ∃ c, sortOfName t.cName = some c ∧ Grammar.isDigit c = true := by
  simp only [isHollow, Bool.and_eq_true, Bool.not_eq_true'] at h
  rw [cName_of_not_needsStruct h.1, ← nameToken_core]
  cases hcore : t.core with
  | scalar k => simp [hcore, needsStruct] at h
  | record fs =>
    have hlength : 1 < fs.length := by simpa [hcore, needsStruct] using h.2
    have htoken : (record fs).nameToken = "Tuple" ++ toString fs.length ++ nameTokens fs := by
      rw [nameToken]
      rintro u rfl
      simp at hlength
    obtain ⟨c, cs, hcs, hc⟩ := Text.toString_nat_cons fs.length
    refine ⟨c, ?_, hc⟩
    rw [htoken, sortOfName, String.toList_append, String.toList_append, hcs]
    rfl

theorem sortOfName_scalar (k : ScalarKind) :
    sortOfName k.cName = none ∨ sortOfName k.cName = some 'e' := by
  cases k <;> decide

/-! ### Names of parts -/

theorem length_words_le_of_mem {ts : List ElementType} (h : t ∈ ts) :
    t.words.length ≤ (wordsAll ts).length := by
  induction ts with
  | nil => cases h
  | cons u ts ih =>
    rw [wordsAll, List.length_append]
    rcases List.mem_cons.1 h with rfl | h
    · exact Nat.le_add_right _ _
    · exact Nat.le_trans (ih h) (Nat.le_add_left _ _)

theorem words_of_needsStruct (h : t.needsStruct = true) :
    t.words = .record t.fields.length :: wordsAll t.fields := by
  cases t with
  | scalar k => cases h
  | record ts =>
    rw [words]
    · rfl
    · rintro u rfl
      cases h

theorem length_words_le_field (h : u ∈ t.fields) : u.words.length ≤ t.words.length := by
  cases hstruct : t.needsStruct with
  | true =>
    rw [words_of_needsStruct hstruct, List.length_cons]
    exact Nat.le_trans (length_words_le_of_mem h) (Nat.le_succ _)
  | false =>
    cases t with
    | scalar k => cases h
    | record ts =>
      obtain ⟨v, rfl⟩ : ∃ v, ts = [v] := List.length_eq_one_iff.1
        (Nat.le_antisymm (Nat.not_lt.1 (of_decide_eq_false hstruct)) (List.length_pos_of_mem h))
      exact Nat.le_of_eq (by rw [List.mem_singleton.1 h, words])

theorem Part.length_words (h : Part u t) (hu : u.needsStruct = true) :
    (wordsAll u.fields).length < t.words.length := by
  induction h with
  | whole =>
    rw [words_of_needsStruct hu]
    exact Nat.lt_succ_self _
  | field hf _ ih => exact Nat.lt_of_lt_of_le ih (length_words_le_field hf)

theorem Part.cName_ne {f : ElementType} (h : Part u f) (hf : f ∈ t.fields)
    (hu : u.needsStruct = true) (ht : t.needsStruct = true) : u.cName ≠ t.cName := by
  intro hname
  have hless := Nat.lt_of_lt_of_le (h.length_words hu) (length_words_le_of_mem hf)
  obtain ⟨us, rfl, hus⟩ := toList_cName hu
  obtain ⟨ts, rfl, hts⟩ := toList_cName ht
  rw [hname, hts, List.append_cancel_left_eq] at hus
  exact Nat.ne_of_lt hless (congrArg List.length (spell_injective hus).symm)

end ElementType

namespace Code.Structs

open ElementType

variable {pre post before : List ElementType} {t : ElementType}

/-! ### Names and positions -/

section Names

variable {s : Structs} {t : ElementType}

theorem names_declare (s : Structs) (t : ElementType) :
    (s.declare t).names = s.names ++ [t.cName] := by
  simp [names, declare]

/-- The index has each name at its position, and no other. -/
def InStep (s : Structs) : Prop := ∀ name i, s.index.lookup name = some i ↔ s.names[i]? = some name

theorem InStep.contains_iff (h : s.InStep) (name : String) :
    s.contains name = true ↔ name ∈ s.names := by
  simp only [contains, Option.isSome_iff_exists, List.mem_iff_getElem?, h name]

/-- A new name keeps its position from the time it is declared. -/
theorem InStep.declare (h : s.InStep) (hnew : t.cName ∉ s.names) : (s.declare t).InStep := by
  intro name i
  have hlength : s.names.length = s.types.length := List.length_map _
  rw [names_declare, Structs.declare, List.lookup_cons, List.getElem?_append, hlength]
  by_cases hname : name = t.cName
  · subst hname
    have hold : s.names[i]? ≠ some t.cName := fun hi => hnew (List.mem_of_getElem? hi)
    by_cases hi : i < s.types.length
    · simp [hi, hold, Nat.ne_of_gt hi]
    · simp only [beq_self_eq_true, if_neg hi, List.getElem?_singleton, Option.some.injEq,
        Option.ite_none_right_eq_some, and_true]
      omega
  · rw [beq_false_of_ne hname, h name i]
    by_cases hi : i < s.types.length
    · rw [if_pos hi]
    · rw [if_neg hi, List.getElem?_eq_none (by omega)]
      simp [List.getElem?_singleton, Ne.symm hname]

end Names

/-! ### Growing declarations -/

/-- `s` grows by declaring structs `among` some types, each after the structs of its fields. -/
inductive Grows (among : ElementType → Prop) (s : Structs) : Structs → Prop
  | refl : Grows among s s
  | declare {s' : Structs} {t : ElementType} : Grows among s s' → among t → t.needsStruct = true →
      (∀ f ∈ t.fields, f.needsStruct = true → f.cName ∈ s'.names) →
      Grows among s (s'.declare t)

section Growing

variable {among among' : ElementType → Prop} {s s' s'' : Structs} {t : ElementType}

theorem Grows.trans (h : Grows among s s') (h' : Grows among s' s'') : Grows among s s'' := by
  induction h' with
  | refl => exact h
  | declare _ ht hstruct hfields ih => exact ih.declare ht hstruct hfields

theorem Grows.mono (h : Grows among s s') (hmono : ∀ t, among t → among' t) :
    Grows among' s s' := by
  induction h with
  | refl => exact .refl
  | declare _ ht hstruct hfields ih => exact ih.declare (hmono _ ht) hstruct hfields

theorem Grows.names_subset (h : Grows among s s') : s.names ⊆ s'.names := by
  induction h with
  | refl => exact List.Subset.refl _
  | declare _ _ _ _ ih =>
    rw [names_declare]
    exact List.subset_append_of_subset_left _ ih

theorem Grows.mem_names (h : Grows among s s') (hname : name ∈ s'.names) :
    name ∈ s.names ∨ ∃ u, among u ∧ u.needsStruct = true ∧ u.cName = name := by
  induction h with
  | refl => exact .inl hname
  | @declare s' u _ hu hstruct _ ih =>
    rw [names_declare, List.mem_append] at hname
    rcases hname with hname | hname
    · exact ih hname
    · exact .inr ⟨u, hu, hstruct, (List.mem_singleton.1 hname).symm⟩

theorem Grows.declared (h : Grows among .empty s) (hs : s.types = pre ++ t :: post) :
    among t ∧ t.needsStruct = true ∧
      ∀ f ∈ t.fields, f.needsStruct = true → f.cName ∈ pre.map cName := by
  induction h generalizing post with
  | refl => simp [empty] at hs
  | @declare s' u _ hu hstruct hfields ih =>
    -- the declaration is the latest one, or an older one with fewer behind it
    rcases List.eq_nil_or_concat post with rfl | ⟨post, v, rfl⟩
    · obtain ⟨hpre, hlast⟩ := List.append_inj' hs rfl
      cases hlast
      exact ⟨hu, hstruct, by rwa [names, hpre] at hfields⟩
    · rw [List.concat_eq_append, ← List.cons_append, ← List.append_assoc] at hs
      exact ih (List.append_inj' hs rfl).1

theorem Grows.needsStruct (h : Grows among .empty s) : ∀ t ∈ s.types, t.needsStruct = true := by
  intro t ht
  obtain ⟨pre, post, hs⟩ := List.append_of_mem ht
  exact (h.declared hs).2.1

/-- Asking for a type declares its parts, and then the type itself. Neither was the name of a record
declared before it was asked for, nor is it that of a part; so positions stay in step. -/
theorem grows_register :
    (∀ s t, s.InStep → Grows (Part · t) s (register s t) ∧ (register s t).InStep ∧
      (t.needsStruct = true → t.cName ∈ (register s t).names)) ∧
    (∀ s ts, s.InStep → Grows (fun u => ∃ t ∈ ts, Part u t) s (registerAll s ts) ∧
      (registerAll s ts).InStep ∧
      ∀ t ∈ ts, t.needsStruct = true → t.cName ∈ (registerAll s ts).names) := by
  apply register.mutual_induct
  case case1 =>
    -- there is nothing to declare
    intro t s hdone hs
    rw [register.eq_def, if_pos hdone]
    refine ⟨.refl, hs, fun hstruct => (hs.contains_iff _).1 ?_⟩
    simpa [hstruct] using hdone
  case case2 =>
    intro s k hdone
    simp [needsStruct] at hdone
  case case3 =>
    -- the structs of the fields are declared before that of the record
    intro s fs hdone ih hs
    obtain ⟨hgrows, hstep, hnamed⟩ := ih hs
    rw [register.eq_def, if_neg hdone]
    simp only [Bool.or_eq_true, Bool.not_eq_true', not_or, Bool.not_eq_false] at hdone
    obtain ⟨hstruct, hnew⟩ := hdone
    refine ⟨.declare (hgrows.mono ?_) .whole hstruct hnamed, hstep.declare fun hname => ?_,
      fun _ => by simp [names_declare]⟩
    · rintro u ⟨f, hf, hu⟩
      exact .field hf hu
    · rcases hgrows.mem_names hname with hold | ⟨u, ⟨f, hf, hpart⟩, hu, hsame⟩
      · exact hnew ((hs.contains_iff _).2 hold)
      · exact hpart.cName_ne (t := .record fs) hf hu hstruct hsame
  case case4 =>
    intro s hs
    rw [registerAll]
    exact ⟨.refl, hs, by simp⟩
  case case5 =>
    intro s t ts iht ihts hs
    rw [registerAll]
    replace iht := iht hs
    replace ihts := ihts iht.2.1
    refine ⟨(iht.1.mono ?_).trans (ihts.1.mono ?_), ihts.2.1, ?_⟩
    · exact fun u hu => ⟨t, List.mem_cons_self, hu⟩
    · rintro u ⟨t', ht', hu⟩
      exact ⟨t', List.mem_cons_of_mem t ht', hu⟩
    · intro t' ht' hstruct
      rcases List.mem_cons.1 ht' with rfl | ht'
      · exact ihts.1.names_subset (iht.2.2 hstruct)
      · exact ihts.2.2 t' ht' hstruct

end Growing

/-! ### Sequences of calls -/

/-- The declarations that calls for types in `calls` can leave, other declarations taken over on the
way included. -/
inductive Assembled (calls : ElementType → Prop) : Structs → Prop
  | empty : Assembled calls .empty
  | register {s : Structs} {t : ElementType} : Assembled calls s → calls t →
      Assembled calls (s.register t)
  | merge {s other : Structs} : Assembled calls s → Assembled calls other →
      Assembled calls (s.merge other)

/-- Whatever the calls, the positions of the names stay in step. -/
theorem Assembled.inStep {calls : ElementType → Prop} {s : Structs} (h : Assembled calls s) :
    s.InStep := by
  induction h with
  | empty => simp [InStep, Structs.empty, names]
  | register _ _ ih => exact (grows_register.1 _ _ ih).2.1
  | merge _ _ ih _ => exact (grows_register.2 _ _ ih).2.1

/-- Whatever the calls, declarations grow from nothing by parts of the types that were asked for. -/
theorem Assembled.grows {calls : ElementType → Prop} {s : Structs} (h : Assembled calls s) :
    Grows (fun u => ∃ t, calls t ∧ Part u t) .empty s := by
  induction h with
  | empty => exact .refl
  | @register s t hs ht ih =>
    exact ih.trans ((grows_register.1 s t hs.inStep).1.mono fun u hu => ⟨t, ht, hu⟩)
  | @merge s other hs _ ih ihother =>
    -- what is taken over was itself a part of a type that was asked for
    refine ih.trans ((grows_register.2 s other.types hs.inStep).1.mono ?_)
    rintro u ⟨t, ht, hu⟩
    obtain ⟨pre, post, hother⟩ := List.append_of_mem ht
    obtain ⟨⟨c, hc, htc⟩, -⟩ := ihother.declared hother
    exact ⟨c, hc, htc.trans hu⟩

/-! ### Closed declarations -/

/-- A name that can be used after some declarations. -/
def Known (before : List ElementType) (name : String) : Prop :=
  (∃ k : ScalarKind, name = k.cName) ∨ name ∈ before.map cName

/-- Every field of every declaration has a type that can be used there. -/
def Closed (s : Structs) : Prop :=
  ∀ pre t post, s.types = pre ++ t :: post → ∀ name ∈ StructDecl.fieldTypes t, Known pre name

theorem not_known_of_hollow (hbefore : ∀ u ∈ before, u.needsStruct = true)
    (ht : t.isHollow = true) :
    ¬ Known before t.cName := by
  obtain ⟨c, hc, hdigit⟩ := sortOfName_hollow ht
  rintro (⟨k, hk⟩ | hmem)
  · rw [hk] at hc
    rcases sortOfName_scalar k with hnone | hsome
    · rw [hnone] at hc
      cases hc
    · rw [hsome] at hc
      cases hc
      exact absurd hdigit (by decide)
  · obtain ⟨u, hu, hname⟩ := List.mem_map.1 hmem
    rw [← hname, sortOfName_struct (hbefore u hu)] at hc
    cases hc
    exact absurd hdigit (by decide)

/-- The name of a valid type can be used exactly if the type is not hollow, once its struct is
declared. -/
theorem known_iff (hbefore : ∀ u ∈ before, u.needsStruct = true) (ht : t.badArity? = none)
    (hdeclared : t.needsStruct = true → t.cName ∈ before.map cName) :
    Known before t.cName ↔ t.isHollow = false := by
  constructor
  · intro hknown
    cases hhollow : t.isHollow with
    | false => rfl
    | true => exact absurd hknown (not_known_of_hollow hbefore hhollow)
  · intro hhollow
    rcases core_of_valid ht with ⟨k, hk⟩ | hcore
    · exact .inl ⟨k, cName_of_core_scalar hk⟩
    · refine .inr (hdeclared ?_)
      simpa [isHollow, hcore] using hhollow

section Assembled

variable {calls : ElementType → Prop} {s : Structs}

/-- Each field of a declaration has a type that can be used there exactly if it is not hollow. -/
theorem Assembled.known_field_iff (h : Assembled calls s)
    (hvalid : ∀ t, calls t → t.badArity? = none)
    {f : ElementType} (hs : s.types = pre ++ t :: post) (hf : f ∈ t.fields) :
    Known pre f.cName ↔ f.isHollow = false := by
  obtain ⟨⟨c, hc, hpart⟩, -, hfields⟩ := h.grows.declared hs
  refine known_iff (fun u hu => h.grows.needsStruct u ?_) ?_ (hfields f hf)
  · rw [hs]
    exact List.mem_append_left _ hu
  · exact badArity?_field (hpart.badArity? (hvalid c hc)) hf

/-- After any calls for valid types, declarations are closed exactly if no declared struct has a
hollow field. Where no part of a type that was asked for is hollow, they are. -/
theorem closed_iff_no_hollow_field (h : Assembled calls s)
    (hvalid : ∀ t, calls t → t.badArity? = none) :
    (s.Closed ↔ ∀ t ∈ s.types, ∀ f ∈ t.fields, f.isHollow = false) ∧
      (∀ t, t.badArity? = none → (Known (s.register t).types t.cName ↔ t.isHollow = false)) ∧
      ((∀ t, calls t → ∀ u, Part u t → u.isHollow = false) → s.Closed) := by
  have hclosed : s.Closed ↔ ∀ t ∈ s.types, ∀ f ∈ t.fields, f.isHollow = false := by
    constructor
    · intro hclosed t ht f hf
      obtain ⟨pre, post, hs⟩ := List.append_of_mem ht
      exact (h.known_field_iff hvalid hs hf).1
        (hclosed pre t post hs _ (List.mem_map_of_mem hf))
    · intro hplain pre t post hs name hname
      obtain ⟨f, hf, rfl⟩ := List.mem_map.1 hname
      refine (h.known_field_iff hvalid hs hf).2 (hplain t ?_ f hf)
      rw [hs]
      exact List.mem_append_right _ List.mem_cons_self
  refine ⟨hclosed, fun t ht => ?_, fun hplain => hclosed.2 fun t ht f hf => ?_⟩
  · obtain ⟨hgrows, -, hnamed⟩ := grows_register.1 s t h.inStep
    have hgrown : Grows (fun _ => True) .empty (s.register t) :=
      (h.grows.mono fun _ _ => trivial).trans (hgrows.mono fun _ _ => trivial)
    exact known_iff hgrown.needsStruct ht hnamed
  · obtain ⟨pre, post, hs⟩ := List.append_of_mem ht
    obtain ⟨⟨c, hc, hpart⟩, -⟩ := h.grows.declared hs
    exact hplain c hc f (hpart.trans (.field hf .whole))

def pair : ElementType := record [scalar .int, scalar .long]

/-- What is declared depends on which of two types with one name is asked for first: the pair beside
a number, or the same with the pair in a record of one field. -/
theorem closed_iff_pair_first :
    ((empty.register (record [pair, scalar .double])).merge
        (empty.register (record [record [pair], scalar .double]))).Closed ∧
      ¬ ((empty.register (record [record [pair], scalar .double])).merge
        (empty.register (record [pair, scalar .double]))).Closed := by
  let calls := [record [pair, scalar .double], record [record [pair], scalar .double]]
  have hvalid : ∀ t, t ∈ calls → t.badArity? = none := by decide
  have hpair : Assembled (· ∈ calls) (empty.register (record [pair, scalar .double])) :=
    .register .empty (by decide)
  have hhollow : Assembled (· ∈ calls) (empty.register (record [record [pair], scalar .double])) :=
    .register .empty (by decide)
  refine ⟨(closed_iff_no_hollow_field (hpair.merge hhollow) hvalid).1.2 (by decide), fun h => ?_⟩
  have hplain := (closed_iff_no_hollow_field (hhollow.merge hpair) hvalid).1.1 h
  exact absurd hplain (by decide)

/-- A pair in a record of one field, asked for as a field or by itself, is given a name under which
nothing is declared. -/
theorem hollow_pair_undeclared :
    (record [record [pair], scalar .double]).badArity? = none ∧
      ¬ (empty.register (record [record [pair], scalar .double])).Closed ∧
      (record [pair]).badArity? = none ∧
      ¬ Known (empty.register (record [pair])).types (record [pair]).cName := by
  have hunknown : ¬ Known [] (record [pair]).cName := not_known_of_hollow (by simp) (by decide)
  refine ⟨by decide, fun hclosed => hunknown ?_, by decide, hunknown⟩
  exact hclosed [] (record [record [pair], scalar .double]) [] (by decide) _ List.mem_cons_self

end Assembled

end Code.Structs

end Kernelwright
