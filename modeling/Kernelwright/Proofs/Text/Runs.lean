import Kernelwright.Element.Grammar.Token

/-!
# Runs of characters

A scanner takes the longest run of one class of characters. What it takes from `w ++ rest` is `w`
when `w` is of the class and `rest` stops it, that is, is empty or starts with a character of
another class. The decimal text of a number is such a run, and it reads back as the number.
-/

namespace Kernelwright.Text

variable {p : Char → Bool} {c : Char} {rest w : List Char} {n : Nat}

/-- A run of the class `p` ends where `rest` begins. -/
def Stops (p : Char → Bool) (rest : List Char) : Prop := ∀ c r, rest = c :: r → p c = false

theorem stops_nil (p : Char → Bool) : Stops p [] := by
  intro c r h
  cases h

theorem stops_cons {r : List Char} (h : p c = false) : Stops p (c :: r) := by
  intro d s hd
  cases hd
  exact h

theorem takeWhile_of_stops (h : Stops p rest) : rest.takeWhile p = [] := by
  cases rest with
  | nil => rfl
  | cons c r => simp [h c r rfl]

theorem dropWhile_of_stops (h : Stops p rest) : rest.dropWhile p = rest := by
  cases rest with
  | nil => rfl
  | cons c r => simp [h c r rfl]

theorem takeWhile_append_of_stops (hw : ∀ c ∈ w, p c = true) (h : Stops p rest) :
    (w ++ rest).takeWhile p = w := by
  rw [List.takeWhile_append_of_pos hw, takeWhile_of_stops h, List.append_nil]

theorem dropWhile_append_of_stops (hw : ∀ c ∈ w, p c = true) (h : Stops p rest) :
    (w ++ rest).dropWhile p = rest := by
  rw [List.dropWhile_append_of_pos hw, dropWhile_of_stops h]

theorem takeWhile_append_stop (h : Stops p rest) (cs : List Char) :
    (cs ++ rest).takeWhile p = cs.takeWhile p := by
  induction cs with
  | nil => exact takeWhile_of_stops h
  | cons c cs ih => simp only [List.cons_append, List.takeWhile_cons, ih]

theorem dropWhile_append_stop (h : Stops p rest) (cs : List Char) :
    (cs ++ rest).dropWhile p = cs.dropWhile p ++ rest := by
  induction cs with
  | nil => exact dropWhile_of_stops h
  | cons c cs ih =>
    simp only [List.cons_append, List.dropWhile_cons, ih]
    split <;> rfl

/-! ### Classes of characters -/

theorem isLetter_of_isDigit (h : Grammar.isDigit c = true) : Grammar.isLetter c = false := by
  simp only [Grammar.isDigit, Grammar.isLetter, Char.le_def, UInt32.le_iff_toNat_le,
    Bool.and_eq_true, decide_eq_true_eq, Bool.or_eq_false_iff, Bool.and_eq_false_iff,
    decide_eq_false_iff_not] at h ⊢
  have h9 : '9'.val.toNat = 57 := rfl
  have hA : 'A'.val.toNat = 65 := rfl
  have ha : 'a'.val.toNat = 97 := rfl
  omega

theorem not_mem_of_class {cs : List Char} (hcs : cs.all (!p ·) = true) (h : p c = true) :
    c ∉ cs := by
  intro hc
  have hnot := List.all_eq_true.1 hcs c hc
  rw [h] at hnot
  cases hnot

theorem isSpace_of_class (hp : [' ', '\t', '\r', '\n'].all (!p ·) = true) (h : p c = true) :
    Grammar.isSpace c = false := by
  simpa [Grammar.isSpace, and_assoc] using not_mem_of_class hp h

/-! ### Decimal texts -/

theorem toList_toString_nat (n : Nat) : (toString n).toList = Nat.toDigits 10 n := by
  rw [Nat.toString_eq_repr, Nat.toList_repr]

theorem toString_nat_ne_nil (n : Nat) : (toString n).toList ≠ [] := by
  rw [toList_toString_nat]
  exact Nat.toDigits_ne_nil

theorem isDigit_of_mem_toString (h : c ∈ (toString n).toList) : Grammar.isDigit c = true := by
  rw [toList_toString_nat] at h
  have hdigit : c.isDigit = true := Nat.isDigit_of_mem_toDigits (by decide) (by decide) h
  simp only [Char.isDigit, ge_iff_le, Bool.and_eq_true, decide_eq_true_eq] at hdigit
  simp only [Grammar.isDigit, Bool.and_eq_true, decide_eq_true_eq]
  exact hdigit

theorem toString_nat_cons (n : Nat) :
    ∃ c cs, (toString n).toList = c :: cs ∧ Grammar.isDigit c = true := by
  obtain ⟨c, cs, hcs⟩ := List.exists_cons_of_ne_nil (toString_nat_ne_nil n)
  exact ⟨c, cs, hcs, isDigit_of_mem_toString (hcs ▸ List.mem_cons_self)⟩

theorem toString_nat_head (h : 0 < n) : ∃ c cs, (toString n).toList = c :: cs ∧ c ≠ '0' := by
  rw [toList_toString_nat]
  induction n using Nat.strongRecOn with
  | ind n ih =>
    by_cases hlt : n < 10
    · refine ⟨n.digitChar, [], Nat.toDigits_of_lt_base hlt, ?_⟩
      have hdigits : ∀ m : Fin 10, 0 < m.val → m.val.digitChar ≠ '0' := by decide
      exact hdigits ⟨n, hlt⟩ h
    · obtain ⟨c, cs, hcs, hc⟩ := ih (n / 10) (by omega) (by omega)
      refine ⟨c, cs ++ [(n % 10).digitChar], ?_, hc⟩
      rw [Nat.toDigits_of_base_le (by decide) (by omega), hcs, List.cons_append]

theorem decimalValue_toString (n : Nat) : Grammar.decimalValue (toString n).toList = n := by
  rw [toList_toString_nat, Grammar.decimalValue, ← Nat.ofDigitChars_eq_foldl]
  exact Nat.ofDigitChars_ten_toDigits

end Kernelwright.Text
