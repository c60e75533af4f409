import Kernelwright.Element.Error

/-!
# The grammar of element types

`Derives ts t` says that the tokens `ts` spell the type `t`:

    type     = name | tuple '<' type (',' type)* '>' | tuple '::' name

where a tuple has between one and eleven fields, as many as it declares. The relation knows nothing
of the order in which a reader tries its alternatives. The two directions below tie it to
`parseType`, each with the tokens that follow carried along, and give

    parse s = ok t  ↔  s has no stray text and its tokens derive t.
-/

namespace Kernelwright.Grammar

variable {ts : List Token} {t : ElementType} {s : String}

/-! ### Derivations -/

mutual

/-- The tokens `ts` spell the type `t`. -/
inductive Derives : List Token → ElementType → Prop
  | scalar (k : ScalarKind) : Derives [.name k.name] (.scalar k)
  | tuple {n ts us t fs} : Derives ts t → DerivesTail us fs → fs.length + 1 = n → 1 ≤ n → n ≤ 11 →
      Derives (.tuple n :: .less :: (ts ++ us ++ [.greater])) (.record (t :: fs))
  | repeated {n} (k : ScalarKind) : 1 ≤ n → n ≤ 11 →
      Derives [.tuple n, .path, .name k.name] (.record (List.replicate n (.scalar k)))

/-- The tokens `us` spell the fields `fs`, each of them behind a comma. -/
inductive DerivesTail : List Token → List ElementType → Prop
  | nil : DerivesTail [] []
  | cons {ts us t fs} : Derives ts t → DerivesTail us fs →
      DerivesTail (.comma :: (ts ++ us)) (t :: fs)

end

theorem arityOk_iff {n : Nat} : ElementType.arityOk n = true ↔ 1 ≤ n ∧ n ≤ 11 := by
  rw [ElementType.arityOk, Bool.and_eq_true, decide_eq_true_eq, decide_eq_true_eq]
  rfl

theorem name_of_ofName? {text : String} {k : ScalarKind} (h : ScalarKind.ofName? text = some k) :
    k.name = text := by
  have := List.find?_some h
  simpa using this

/-! ### What is read derives -/

mutual

theorem derives_of_parseType (input : List Token) {t : ElementType}
    {r : { r : List Token // r.length < input.length }} (h : parseType input = .ok (t, r)) :
    ∃ ts, input = ts ++ r.val ∧ Derives ts t := by
  rw [parseType.eq_def] at h
  split at h
  · next text rest =>
    split at h
    · next k hk =>
      obtain ⟨rfl, rfl⟩ : ElementType.scalar k = t ∧ _ = r := by simpa using h
      refine ⟨[.name text], rfl, ?_⟩
      rw [← name_of_ofName? hk]
      exact .scalar k
    · cases h
  · next n text rest =>
    split at h
    · next k hk =>
      split at h
      · next hn =>
        obtain ⟨rfl, rfl⟩ : ElementType.record (List.replicate n (.scalar k)) = t ∧ _ = r := by
          simpa using h
        obtain ⟨h₁, h₂⟩ := arityOk_iff.mp hn
        refine ⟨[.tuple n, .path, .name text], rfl, ?_⟩
        rw [← name_of_ofName? hk]
        exact .repeated k h₁ h₂
      · cases h
    · cases h
  · next n rest =>
    split at h
    · next t₁ r₁ h₁ =>
      split at h
      · next fs r₂ h₂ =>
        split at h
        · next hn =>
          obtain ⟨rfl, rfl⟩ : ElementType.record (t₁ :: fs) = t ∧ _ = r := by simpa using h
          have hshorter := r₁.property
          obtain ⟨ts, hts, ht⟩ := derives_of_parseType rest h₁
          obtain ⟨us, hus, hfs⟩ := derivesTail_of_parseFields r₁.val h₂
          obtain ⟨hlow, hhigh⟩ := arityOk_iff.mp hn.2
          refine ⟨.tuple n :: .less :: (ts ++ us ++ [.greater]), ?_, .tuple ht hfs hn.1 hlow hhigh⟩
          conv => lhs; rw [hts, hus]
          simp
        · cases h
      · cases h
    · cases h
  · cases h
termination_by input.length
decreasing_by
  all_goals
    subst_vars
    simp only [List.length_cons]
    omega

theorem derivesTail_of_parseFields (input : List Token) {fs : List ElementType}
    {r : { r : List Token // r.length < input.length }} (h : parseFields input = .ok (fs, r)) :
    ∃ us, input = us ++ .greater :: r.val ∧ DerivesTail us fs := by
  rw [parseFields.eq_def] at h
  split at h
  · next rest =>
    obtain ⟨rfl, rfl⟩ : [] = fs ∧ _ = r := by simpa using h
    exact ⟨[], rfl, .nil⟩
  · next rest =>
    split at h
    · next t r₁ h₁ =>
      split at h
      · next gs r₂ h₂ =>
        obtain ⟨rfl, rfl⟩ : t :: gs = fs ∧ _ = r := by simpa using h
        have hshorter := r₁.property
        obtain ⟨ts, hts, ht⟩ := derives_of_parseType rest h₁
        obtain ⟨us, hus, hgs⟩ := derivesTail_of_parseFields r₁.val h₂
        refine ⟨.comma :: (ts ++ us), ?_, .cons ht hgs⟩
        conv => lhs; rw [hts, hus]
        simp
      · cases h
    · cases h
  · cases h
termination_by input.length
decreasing_by
  all_goals
    subst_vars
    simp only [List.length_cons]
    omega

end

/-! ### What derives is read -/

mutual

theorem parseType_of_derives {ts : List Token} {t : ElementType} :
    Derives ts t → ∀ (rest : List Token) {input : List Token}, input = ts ++ rest →
      ∃ r, parseType input = .ok (t, r) ∧ r.val = rest
  | .scalar k, rest, input, hinput => by
    obtain rfl : input = .name k.name :: rest := hinput
    rw [parseType.eq_def]
    simp only [ScalarKind.ofName?_name]
    exact ⟨_, rfl, rfl⟩
  | @Derives.repeated n k h₁ h₂, rest, input, hinput => by
    obtain rfl : input = .tuple n :: .path :: .name k.name :: rest := hinput
    have hn : ElementType.arityOk n = true := arityOk_iff.mpr ⟨h₁, h₂⟩
    rw [parseType.eq_def]
    simp only [ScalarKind.ofName?_name, hn, if_true]
    exact ⟨_, rfl, rfl⟩
  | @Derives.tuple n ts us _ _ ht hfs hlen h₁ h₂, rest, input, hinput => by
    obtain rfl : input = .tuple n :: .less :: (ts ++ (us ++ .greater :: rest)) := by
      simpa using hinput
    have hn : ElementType.arityOk n = true := arityOk_iff.mpr ⟨h₁, h₂⟩
    obtain ⟨r₁, hfirst, hr₁⟩ := parseType_of_derives ht (us ++ .greater :: rest) rfl
    obtain ⟨r₂, htail, hr₂⟩ := parseFields_of_derivesTail hfs rest hr₁
    rw [parseType.eq_def]
    simp only [hfirst, htail, hlen, hn, and_self, if_true]
    exact ⟨_, rfl, hr₂⟩

theorem parseFields_of_derivesTail {us : List Token} {fs : List ElementType} :
    DerivesTail us fs → ∀ (rest : List Token) {input : List Token}, input = us ++ .greater :: rest →
      ∃ r, parseFields input = .ok (fs, r) ∧ r.val = rest
  | .nil, rest, input, hinput => by
    obtain rfl : input = .greater :: rest := hinput
    rw [parseFields.eq_def]
    exact ⟨_, rfl, rfl⟩
  | @DerivesTail.cons ts us _ _ ht hfs, rest, input, hinput => by
    obtain rfl : input = .comma :: (ts ++ (us ++ .greater :: rest)) := by simpa using hinput
    obtain ⟨r₁, hfirst, hr₁⟩ := parseType_of_derives ht (us ++ .greater :: rest) rfl
    obtain ⟨r₂, htail, hr₂⟩ := parseFields_of_derivesTail hfs rest hr₁
    rw [parseFields.eq_def]
    simp only [hfirst, htail]
    exact ⟨_, rfl, hr₂⟩

end

/-- Reading a list of tokens to its end gives exactly the type that they derive. -/
theorem parseTokens_eq_ok_iff : parseTokens ts = .ok t ↔ Derives ts t := by
  constructor
  · intro h
    unfold parseTokens at h
    split at h
    · next u _ hparse =>
      obtain rfl : u = t := by simpa using h
      obtain ⟨us, hus, hu⟩ := derives_of_parseType ts hparse
      rw [hus, List.append_nil]
      exact hu
    all_goals cases h
  · intro h
    obtain ⟨⟨r, hlt⟩, hparse, hr⟩ := parseType_of_derives h [] (List.append_nil ts).symm
    obtain rfl : r = [] := hr
    unfold parseTokens
    rw [hparse]

theorem Derives.unique {u : ElementType} (ht : Derives ts t) (hu : Derives ts u) : t = u := by
  rw [← parseTokens_eq_ok_iff] at ht hu
  exact Except.ok.inj (ht.symm.trans hu)

/-! ### What derives is valid -/

theorem badArityIn?_replicate (k : ScalarKind) :
    ∀ n, ElementType.badArityIn? (List.replicate n (.scalar k)) = none
  | 0 => rfl
  | n + 1 => by
    rw [List.replicate_succ, ElementType.badArityIn?, ElementType.badArity?]
    exact badArityIn?_replicate k n

mutual

theorem Derives.badArity? {ts : List Token} {t : ElementType} :
    Derives ts t → t.badArity? = none
  | .scalar k => by rw [ElementType.badArity?]
  | @Derives.repeated n k h₁ h₂ => by
    have hn : ElementType.arityOk n = true := arityOk_iff.mpr ⟨h₁, h₂⟩
    rw [ElementType.badArity?, List.length_replicate, if_pos hn]
    exact badArityIn?_replicate k n
  | @Derives.tuple n _ _ _ _ ht hfs hlen h₁ h₂ => by
    have hn : ElementType.arityOk n = true := arityOk_iff.mpr ⟨h₁, h₂⟩
    rw [ElementType.badArity?, List.length_cons, hlen, if_pos hn, ElementType.badArityIn?,
      ht.badArity?]
    exact hfs.badArityIn?

theorem DerivesTail.badArityIn? {us : List Token} {fs : List ElementType} :
    DerivesTail us fs → ElementType.badArityIn? fs = none
  | .nil => rfl
  | .cons ht hfs => by
    rw [ElementType.badArityIn?, ht.badArity?]
    exact hfs.badArityIn?

end

/-! ### Whole sources -/

/-- The tokens of a source, in order. -/
def tokens (source : String) : List Token :=
  (scan source).filterMap fun i => i.token?.map Prod.fst

/-- The stray texts of a source, in order, each with its span. -/
def strays (source : String) : List (String × Span) := (scan source).filterMap Item.stray?

/-- A source without stray text is read by its tokens; the first stray text refuses any other. -/
theorem parse_eq_ok_iff : parse s = .ok t ↔ strays s = [] ∧ parseTokens (tokens s) = .ok t := by
  have hfirst : (scan s).findSome? Item.stray? = (strays s).head? :=
    List.head?_filterMap.symm
  unfold parse
  simp only [hfirst]
  cases hs : strays s with
  | nil => simp [tokens]
  | cons stray rest => simp

theorem elementType_parse_eq_ok_iff : ElementType.parse s = .ok t ↔ parse s = .ok t := by
  unfold ElementType.parse
  cases parse s with
  | ok u => exact ⟨fun h => congrArg _ (Except.ok.inj h), fun h => congrArg _ (Except.ok.inj h)⟩
  | error e => exact ⟨nofun, nofun⟩

/-- The reader accepts exactly the grammar: a source is read as a type if and only if it holds no
stray text and its tokens derive that type, which is valid and the only one. -/
theorem parse_accepts_exactly_grammar (s : String) :
    (∀ t, ElementType.parse s = .ok t ↔ strays s = [] ∧ Derives (tokens s) t) ∧
    (∀ t, ElementType.parse s = .ok t → t.validate = .ok ()) ∧
    (∀ t u, Derives (tokens s) t → Derives (tokens s) u → t = u) := by
  have hiff : ∀ t, ElementType.parse s = .ok t ↔ strays s = [] ∧ Derives (tokens s) t := by
    intro t
    rw [elementType_parse_eq_ok_iff, parse_eq_ok_iff, parseTokens_eq_ok_iff]
  refine ⟨hiff, ?_, fun t u => Derives.unique⟩
  intro t h
  have hderives := ((hiff t).mp h).2
  unfold ElementType.validate
  rw [hderives.badArity?]

/-- A source with blanks and a repeated kind inside a record. -/
theorem parse_accepts_repeated_field :
    let t := ElementType.record [.record (List.replicate 3 (.scalar .byte)), .scalar .long]
    ElementType.parse "Tuple2< Tuple3::Byte, Long >" = .ok t ∧ t.validate = .ok () := by
  have hread : ElementType.parse "Tuple2< Tuple3::Byte, Long >"
      = .ok (.record [.record (List.replicate 3 (.scalar .byte)), .scalar .long]) := by
    with_unfolding_all rfl
  exact ⟨hread, (parse_accepts_exactly_grammar _).2.1 _ hread⟩

end Kernelwright.Grammar
