import Kernelwright.Proofs.Json.Reader

/-!
# Written JSON reads back

Both written forms are one form in two styles, which differ in the blanks that they put between
tokens. A value reads back from its text in every style if it is `Legible`: its numbers are numerals
and its strings are sequences of characters. So a legible value is determined by its compact form.
-/

namespace Kernelwright.Json

open Text

/-! ### Styles -/

/-- The blanks of a written form: those that start an item or a closing bracket at a level, and
those behind the colon of a member. -/
structure Style where
  line : Nat → List Char
  gap : List Char
  line_blank : ∀ level, ∀ c ∈ line level, isSpace c = true
  gap_blank : ∀ c ∈ gap, isSpace c = true

namespace Style

def compact : Style where
  line _ := []
  gap := []
  line_blank := by simp
  gap_blank := by simp

/-- One item or member a line. -/
def pretty : Style where
  line level := (newline level).toList
  gap := [' ']
  line_blank level c hc := by
    simp only [newline, String.toList_append, String.toList_ofList, List.mem_append,
      List.mem_replicate] at hc
    rcases hc with hc | ⟨-, rfl⟩
    · obtain rfl : c = '\n' := by simpa using hc
      rfl
    · rfl
  gap_blank := by simp [isSpace]

mutual

def spell (s : Style) (level : Nat) : Json → List Char
  | .null => ['n', 'u', 'l', 'l']
  | .bool true => ['t', 'r', 'u', 'e']
  | .bool false => ['f', 'a', 'l', 's', 'e']
  | .number lexeme => lexeme.toList
  | .string t => (quote? t).toList
  | .array [] => ['[', ']']
  | .array (v :: vs) => '[' :: (s.spellItems (level + 1) (v :: vs) ++ (s.line level ++ [']']))
  | .object [] => ['\x7b', '\x7d']
  | .object (m :: ms) =>
    '\x7b' :: (s.spellMembers (level + 1) (m :: ms) ++ (s.line level ++ ['\x7d']))

/-- Items at a level, with commas between them. -/
def spellItems (s : Style) (level : Nat) : List Json → List Char
  | [] => []
  | [v] => s.line level ++ s.spell level v
  | v :: vs => s.line level ++ (s.spell level v ++ ',' :: s.spellItems level vs)

/-- Members at a level, with commas between them. -/
def spellMembers (s : Style) (level : Nat) : List (Option String × Json) → List Char
  | [] => []
  | [(k, v)] => s.line level ++ ((quote? k).toList ++ ':' :: (s.gap ++ s.spell level v))
  | (k, v) :: ms =>
    s.line level ++ ((quote? k).toList ++ ':' :: (s.gap ++ (s.spell level v ++
      ',' :: s.spellMembers level ms)))

end

end Style

mutual

theorem spell_compact (level : Nat) : (v : Json) → Style.compact.spell level v = v.compact.toList
  | .null | .bool true | .bool false | .number _ | .string _ | .array [] | .object [] => rfl
  | .array (v :: vs) => by
    rw [Style.spell, spellItems_compact, Json.compact]
    simp [Style.compact]
  | .object (m :: ms) => by
    rw [Style.spell, spellMembers_compact, Json.compact]
    simp [Style.compact]

theorem spellItems_compact (level : Nat) :
    (vs : List Json) → Style.compact.spellItems level vs = (compactItems vs).toList
  | [] => rfl
  | [v] => by
    rw [Style.spellItems, spell_compact, compactItems]
    rfl
  | v :: w :: vs => by
    show _ ++ (_ ++ ',' :: Style.compact.spellItems level (w :: vs))
      = (v.compact ++ "," ++ compactItems (w :: vs)).toList
    rw [spell_compact, spellItems_compact level (w :: vs)]
    simp [Style.compact]

theorem spellMembers_compact (level : Nat) : (ms : List (Option String × Json)) →
    Style.compact.spellMembers level ms = (compactMembers ms).toList
  | [] => rfl
  | [(k, v)] => by
    rw [Style.spellMembers, spell_compact, compactMembers]
    simp [Style.compact]
  | (k, v) :: m :: ms => by
    show _ ++ (_ ++ ':' :: (_ ++ (_ ++ ',' :: Style.compact.spellMembers level (m :: ms))))
      = (quote? k ++ ":" ++ v.compact ++ "," ++ compactMembers (m :: ms)).toList
    rw [spell_compact, spellMembers_compact level (m :: ms)]
    simp [Style.compact]

end

mutual

theorem spell_pretty (level : Nat) :
    (v : Json) → Style.pretty.spell level v = (v.prettyAt level).toList
  | .null | .bool true | .bool false | .number _ | .string _ | .array [] | .object [] => by
    simp [Style.spell, prettyAt]
  | .array (v :: vs) => by
    rw [Style.spell, spellItems_pretty, prettyAt]
    simp [Style.pretty]
  | .object (m :: ms) => by
    rw [Style.spell, spellMembers_pretty, prettyAt]
    simp [Style.pretty]

theorem spellItems_pretty (level : Nat) :
    (vs : List Json) → Style.pretty.spellItems level vs = (prettyItems level vs).toList
  | [] => rfl
  | [v] => by
    rw [Style.spellItems, spell_pretty, prettyItems]
    simp [Style.pretty]
  | v :: w :: vs => by
    show _ ++ (_ ++ ',' :: Style.pretty.spellItems level (w :: vs))
      = (newline level ++ v.prettyAt level ++ "," ++ prettyItems level (w :: vs)).toList
    rw [spell_pretty, spellItems_pretty level (w :: vs)]
    simp [Style.pretty]

theorem spellMembers_pretty (level : Nat) : (ms : List (Option String × Json)) →
    Style.pretty.spellMembers level ms = (prettyMembers level ms).toList
  | [] => rfl
  | [(k, v)] => by
    rw [Style.spellMembers, spell_pretty, prettyMembers]
    simp [Style.pretty]
  | (k, v) :: m :: ms => by
    show _ ++ (_ ++ ':' :: (_ ++ (_ ++ ',' :: Style.pretty.spellMembers level (m :: ms))))
      = (newline level ++ quote? k ++ ": " ++ v.prettyAt level ++ ","
          ++ prettyMembers level (m :: ms)).toList
    rw [spell_pretty, spellMembers_pretty level (m :: ms)]
    simp [Style.pretty]

end

/-! ### Legible values -/

/-- Numbers are numerals, and strings are sequences of characters. -/
inductive Legible : Json → Prop
  | null : Legible .null
  | bool (b : Bool) : Legible (.bool b)
  | number {lexeme n} : scanNumeral? lexeme.toList = some (n, []) → Legible (.number lexeme)
  | text (s : String) : Legible (.text s)
  | array {items} : (∀ v ∈ items, Legible v) → Legible (.array items)
  | members {ms} : (∀ m ∈ ms, Legible m.2) → Legible (.members ms)

theorem numeral_head {lexeme : String} {n : Numeral}
    (h : scanNumeral? lexeme.toList = some (n, [])) :
    ∃ c cs, lexeme.toList = c :: cs ∧ isSpace c = false ∧
      c ∉ ['n', 't', 'f', '"', '[', ']', '\x7b', '\x7d'] := by
  obtain ⟨c, cs, hcs, hc⟩ := scanNumeral?_head h
  rcases hc with rfl | hc
  · exact ⟨_, cs, hcs, rfl, by decide⟩
  · have hspace : c ∉ [' ', '\n', '\t', '\r'] := not_mem_of_class rfl hc
    exact ⟨c, cs, hcs, by simpa [isSpace, and_assoc] using hspace, not_mem_of_class rfl hc⟩

theorem Legible.head {v : Json} (h : v.Legible) (s : Style) (level : Nat) :
    ∃ c cs, s.spell level v = c :: cs ∧ isSpace c = false ∧ c ≠ ']' := by
  cases h with
  | null => exact ⟨_, _, rfl, rfl, by decide⟩
  | bool b => cases b <;> exact ⟨_, _, rfl, rfl, by decide⟩
  | number hn =>
    obtain ⟨c, cs, hcs, hspace, hother⟩ := numeral_head hn
    exact ⟨c, cs, hcs, hspace, fun hc => hother (by simp [hc])⟩
  | text t =>
    have hquote : (quote t).toList = '"' :: (t.toList.flatMap escapeChar ++ ['"']) := by
      simp [quote]
    exact ⟨_, _, hquote, rfl, by decide⟩
  | @array items =>
    cases items <;> exact ⟨_, _, rfl, rfl, by decide⟩
  | @members ms =>
    cases ms <;> exact ⟨_, _, rfl, rfl, by decide⟩

section Reading

variable {s : Style} {blanks rest : List Char}

theorem ends_cons {c : Char} (h : (isDigit c || c == '.' || c == 'e' || c == 'E') = false)
    (cs : List Char) : Ends (c :: cs) := stops_cons h

theorem ends_of_blanks {c : Char} (hblanks : ∀ c ∈ blanks, isSpace c = true)
    (hc : (isDigit c || c == '.' || c == 'e' || c == 'E') = false) (cs : List Char) :
    Ends (blanks ++ c :: cs) := by
  cases blanks with
  | nil => exact ends_cons hc cs
  | cons b bs =>
    have hb := hblanks b (by simp)
    simp only [isSpace, Bool.or_eq_true, decide_eq_true_eq] at hb
    rcases hb with ((rfl | rfl) | rfl) | rfl <;> exact ends_cons rfl _

/-- A value reads back in a style, wherever it stands. -/
def Recovers (s : Style) (v : Json) : Prop :=
  ∀ ⦃blanks⦄ (level : Nat) ⦃rest⦄, (∀ c ∈ blanks, isSpace c = true) → Ends rest →
    value? (blanks ++ (s.spell level v ++ rest)) = some (v, rest)

theorem value?_of_scalar {v : Json} {c : Char} {cs : List Char}
    (hblanks : ∀ c ∈ blanks, isSpace c = true)
    (hc : isSpace c = false) (harray : c ≠ '[') (hobject : c ≠ '\x7b')
    (h : result (readScalar (c :: cs)) = some (v, rest)) :
    value? (blanks ++ c :: cs) = some (v, rest) := by
  have hskip : skip (blanks ++ c :: cs) = c :: cs := by rw [skip_blanks hblanks, skip_cons hc]
  rw [value?_scalar (by simp [hskip, harray]) (by simp [hskip, hobject]), hskip, h]

theorem recovers_null : Recovers s .null := by
  intro blanks level rest hblanks _
  refine value?_of_scalar hblanks rfl (by decide) (by decide) ?_
  simp [readScalar, readWord, result]

theorem recovers_bool (b : Bool) : Recovers s (.bool b) := by
  intro blanks level rest hblanks _
  cases b <;>
  · refine value?_of_scalar hblanks rfl (by decide) (by decide) ?_
    simp [readScalar, readWord, result]

theorem recovers_number {lexeme : String} {n : Numeral}
    (h : scanNumeral? lexeme.toList = some (n, [])) : Recovers s (.number lexeme) := by
  intro blanks level rest hblanks hrest
  obtain ⟨c, cs, hcs, hspace, hother⟩ := numeral_head h
  have hnumber := readNumber_lexeme h hrest
  simp only [List.mem_cons, not_or] at hother
  rw [Style.spell]
  rw [hcs] at hnumber ⊢
  refine value?_of_scalar hblanks hspace hother.2.2.2.2.1 hother.2.2.2.2.2.2.1 ?_
  rw [readScalar]
  · exact hnumber
  all_goals simp [hother]

theorem recovers_text (t : String) : Recovers s (.text t) := by
  intro blanks level rest hblanks _
  have hstring := string?_escaped [] rest t.toList
  obtain ⟨r, hr, hrest⟩ := eq_of_result hstring
  have hquote : (quote t).toList ++ rest = '"' :: (t.toList.flatMap escapeChar ++ '"' :: rest) := by
    simp [quote]
  rw [text, Style.spell, quote?, Option.getD_some, hquote]
  refine value?_of_scalar hblanks rfl (by decide) (by decide) ?_
  simp [readScalar, hr, hrest, result]

theorem items?_spell {items : List Json} (hne : items ≠ []) (hitems : ∀ v ∈ items, Recovers s v)
    (hblanks : ∀ c ∈ blanks, isSpace c = true) (level : Nat) :
    items? (s.spellItems level items ++ (blanks ++ ']' :: rest)) = some (items, rest) := by
  induction items with
  | nil => exact absurd rfl hne
  | cons v vs ih =>
    have hv : Recovers s v := hitems v (by simp)
    cases vs with
    | nil =>
      rw [Style.spellItems, List.append_assoc]
      rw [items?_eq, hv level (s.line_blank level) (ends_of_blanks hblanks rfl _)]
      simp [isSpace, skip_blanks hblanks]
    | cons w vs =>
      rw [show s.spellItems level (v :: w :: vs)
        = s.line level ++ (s.spell level v ++ ',' :: s.spellItems level (w :: vs)) from rfl]
      simp only [List.append_assoc, List.cons_append]
      rw [items?_eq, hv level (s.line_blank level) (ends_cons rfl _)]
      simp [isSpace, ih (by simp) fun u hu => hitems u (by simp [hu])]

theorem members?_spell {ms : List (String × Json)} (hne : ms ≠ []) (hms : ∀ m ∈ ms, Recovers s m.2)
    (hblanks : ∀ c ∈ blanks, isSpace c = true) (level : Nat) :
    members? (s.spellMembers level (ms.map fun (k, v) => (some k, v)) ++ (blanks ++ '\x7d' :: rest))
      = some (ms.map fun (k, v) => (some k, v), rest) := by
  induction ms with
  | nil => exact absurd rfl hne
  | cons m ms ih =>
    obtain ⟨k, v⟩ := m
    have hv : Recovers s v := hms (k, v) (by simp)
    have hkey : ∀ cs, result (readKey (s.line level ++ ((quote k).toList ++ ':' :: cs)))
        = some (some k, cs) := readKey_quoted (s.line_blank level)
    cases ms with
    | nil =>
      simp only [List.map_cons, List.map_nil, Style.spellMembers, List.append_assoc,
        List.cons_append]
      rw [members?_eq, quote?, Option.getD_some, hkey]
      simp [isSpace, hv level s.gap_blank (ends_of_blanks (c := '\x7d') hblanks rfl _),
        skip_blanks hblanks]
    | cons m ms =>
      rw [List.map_cons, show s.spellMembers level
        ((some k, v) :: (m :: ms).map fun (k, v) => (some k, v))
        = s.line level ++ ((quote k).toList ++ ':' :: (s.gap ++ (s.spell level v ++
          ',' :: s.spellMembers level ((m :: ms).map fun (k, v) => (some k, v))))) from rfl]
      simp only [List.append_assoc, List.cons_append]
      rw [members?_eq, hkey]
      have hrest := ih (by simp) fun u hu => hms u (by simp [hu])
      simp_all [isSpace, hv level s.gap_blank (ends_cons (c := ',') rfl _)]

theorem recovers_array {items : List Json} (hlegible : ∀ v ∈ items, v.Legible)
    (hitems : ∀ v ∈ items, Recovers s v) : Recovers s (.array items) := by
  intro blanks level rest hblanks _
  have hskip : ∀ cs, skip (blanks ++ '[' :: cs) = '[' :: cs := fun cs => by
    rw [skip_blanks hblanks, skip_cons rfl]
  cases items with
  | nil => exact value?_array (hskip _)
  | cons v vs =>
    have hopen : ∀ r cs, skip (s.spellItems (level + 1) (v :: vs) ++ cs) ≠ ']' :: r := by
      intro r cs
      obtain ⟨c, ds, hds, hspace, hc⟩ := (hlegible v (by simp)).head s (level + 1)
      have hfirst : ∃ es, s.spellItems (level + 1) (v :: vs) = s.line (level + 1) ++ c :: es := by
        cases vs with
        | nil => exact ⟨ds, by rw [Style.spellItems, hds]⟩
        | cons w vs => exact ⟨_, by rw [Style.spellItems, hds]; rfl; simp⟩
      obtain ⟨es, hes⟩ := hfirst
      rw [hes, List.append_assoc, skip_blanks (s.line_blank _), List.cons_append, skip_cons hspace]
      exact fun heq => hc (List.cons.inj heq).1
    rw [Style.spell]
    simp only [List.cons_append, List.append_assoc, List.nil_append]
    rw [value?_array (hskip _), items?_spell (by simp) hitems (s.line_blank level)]
    split
    · next hr => exact absurd hr (hopen _ _)
    · rfl

theorem recovers_members {ms : List (String × Json)} (hms : ∀ m ∈ ms, Recovers s m.2) :
    Recovers s (.members ms) := by
  intro blanks level rest hblanks _
  have hskip : ∀ cs, skip (blanks ++ '\x7b' :: cs) = '\x7b' :: cs := fun cs => by
    rw [skip_blanks hblanks, skip_cons rfl]
  cases ms with
  | nil => exact value?_object (hskip _)
  | cons m ms =>
    have hopen : ∀ r cs,
      skip (s.spellMembers (level + 1) ((m :: ms).map fun (k, v) => (some k, v)) ++ cs)
        ≠ '\x7d' :: r := by
      intro r cs
      have hfirst : ∃ es, s.spellMembers (level + 1) ((m :: ms).map fun (k, v) => (some k, v))
          = s.line (level + 1) ++ '"' :: es := by
        cases ms <;> exact ⟨_, by simp [Style.spellMembers, quote?, quote]; rfl⟩
      obtain ⟨es, hes⟩ := hfirst
      rw [hes, List.append_assoc, skip_blanks (s.line_blank _), List.cons_append, skip_cons rfl]
      exact fun heq => absurd (List.cons.inj heq).1 (by decide)
    rw [show s.spell level (.members (m :: ms))
      = '\x7b' :: (s.spellMembers (level + 1) ((m :: ms).map fun (k, v) => (some k, v))
        ++ (s.line level ++ ['\x7d'])) from rfl]
    simp only [List.cons_append, List.append_assoc, List.nil_append]
    rw [value?_object (hskip _), members?_spell (by simp) hms (s.line_blank level)]
    split
    · next hr => exact absurd hr (hopen _ _)
    · rfl

theorem Legible.recovers {v : Json} (h : v.Legible) (s : Style) : Recovers s v := by
  induction h with
  | null => exact recovers_null
  | bool b => exact recovers_bool b
  | number hn => exact recovers_number hn
  | text t => exact recovers_text t
  | array hlegible ih => exact recovers_array hlegible ih
  | members _ ih => exact recovers_members ih

end Reading

/-! ### Texts -/

theorem Legible.parse?_spell {v : Json} (h : v.Legible) (s : Style) {t : String}
    (ht : s.spell 0 v = t.toList) : parse? t = some v := by
  have hread : value? ([] ++ (s.spell 0 v ++ [])) = some (v, []) :=
    h.recovers s 0 (by simp) (stops_nil _)
  rw [List.nil_append, List.append_nil, ht] at hread
  obtain ⟨r, hr, hrest⟩ := eq_of_result hread
  simp [parse?, hr, hrest, skip]

theorem Legible.parse?_pretty {v : Json} (h : v.Legible) : parse? v.pretty = some v :=
  h.parse?_spell .pretty (spell_pretty 0 v)

theorem Legible.parse?_compact {v : Json} (h : v.Legible) : parse? v.compact = some v :=
  h.parse?_spell .compact (spell_compact 0 v)

/-- Legible values with the same compact form are the same. -/
theorem Legible.compact_inj {v w : Json} (hv : v.Legible) (hw : w.Legible) :
    v.compact = w.compact ↔ v = w := by
  refine ⟨fun h => ?_, congrArg compact⟩
  have hread := hv.parse?_compact
  rw [h, hw.parse?_compact] at hread
  exact (Option.some.inj hread).symm

end Kernelwright.Json
