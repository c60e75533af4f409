import Kernelwright.Proofs.Program.Reader
import Kernelwright.Proofs.Text.Runs

/-!
# Cutting kernel text

How `tokens?` goes through a text: blanks are passed over, a word ends where a character follows
that can be no part of it, and a sign is a token of its own unless the next character belongs to it.
In printed text that is decided by what is written behind it, which is a blank, a bracket or a word.
-/

namespace Kernelwright.Program

open Grammar (isLetter isDigit isSpace decimalValue)
open Text

variable {c d : Char} {w cs : List Char} {t : Token}

/-! ### Characters -/

theorem mem_of_isPair (h : isPair c d = true) :
    d ∈ ['<', '>', '=', '&', '|', '+', '-', '/', '*'] := by
  simp only [isPair, Bool.or_eq_true, Bool.and_eq_true, beq_iff_eq, List.contains_iff_mem] at h
  obtain ((⟨rfl, h⟩ | ⟨rfl, -⟩) | ⟨-, rfl⟩) | ⟨-, rfl⟩ := h
  · simp only [List.mem_cons, List.not_mem_nil, or_false] at h ⊢
    rcases h with h | h | h | h | h | h | h | h <;> simp [h]
  all_goals decide

theorem isPair_of_isWordChar (h : isWordChar d = true) : ¬ isPair c d :=
  fun hpair => not_mem_of_class rfl h (mem_of_isPair hpair)

/-! ### Cutting text into tokens -/

attribute [simp] single? pair?

@[simp] theorem tokens?_nil : tokens? [] = some [] := by rw [tokens?.eq_def]

@[simp] theorem tokens?_space (h : c = ' ' ∨ c = '\n') : tokens? (c :: cs) = tokens? cs := by
  rw [tokens?.eq_def]
  rcases h with rfl | rfl <;> simp only [isSpace] <;> rfl

@[simp] theorem tokens?_single (hc : (isSpace c || isWordChar c) = false) (hpair : ¬ isPair c d) :
    tokens? (c :: d :: cs) = (single? c).bind fun t => (tokens? (d :: cs)).map (t :: ·) := by
  rw [Bool.or_eq_false_iff] at hc
  rw [tokens?.eq_def]
  simp only [hc, hpair]
  cases single? c <;> cases tokens? (d :: cs) <;> rfl

@[simp] theorem tokens?_pair (h : (pair? c d).isSome) :
    tokens? (c :: d :: cs) = (pair? c d).bind fun t => (tokens? cs).map (t :: ·) := by
  have hclass : isSpace c = false ∧ isWordChar c = false ∧ isPair c d = true := by
    unfold pair? at h
    split at h <;> first | decide | cases h
  rw [tokens?.eq_def]
  simp only [hclass]
  cases pair? c d <;> cases tokens? cs <;> rfl

/-- These characters begin no longer sign. -/
@[simp] theorem tokens?_alone (h : c ∈ ['(', ')', '\x7b', '\x7d', ',', ';', '?', ':', '~']) :
    tokens? (c :: cs) = (single? c).bind fun t => (tokens? cs).map (t :: ·) := by
  simp only [List.mem_cons, List.not_mem_nil, or_false] at h
  have hclass : isSpace c = false ∧ isWordChar c = false := by
    rcases h with rfl | rfl | rfl | rfl | rfl | rfl | rfl | rfl | rfl <;> decide
  cases cs with
  | nil =>
    rw [tokens?.eq_def, tokens?_nil]
    simp only [hclass]
    cases single? c <;> rfl
  | cons d cs =>
    refine tokens?_single (Bool.or_eq_false_iff.2 hclass) ?_
    rcases h with rfl | rfl | rfl | rfl | rfl | rfl | rfl | rfl | rfl <;> simp [isPair]

/-! ### Words -/

/-- A word is one token. -/
structure IsWord (w : List Char) (t : Token) : Prop where
  chars : ∀ c ∈ w, isWordChar c = true
  token : wordToken? w = some t

namespace IsWord

theorem of_eq (hw : w.all isWordChar = true) (ht : wordToken? w = some t) : IsWord w t :=
  ⟨List.all_eq_true.1 hw, ht⟩

theorem tokens (h : IsWord w t) (hd : ¬ isWordChar d) (cs : List Char) :
    tokens? (w ++ d :: cs) = (tokens? (d :: cs)).map (t :: ·) := by
  obtain ⟨hw, ht⟩ := h
  cases w with
  | nil => cases ht
  | cons c w =>
    have hc : isWordChar c = true := hw c List.mem_cons_self
    have hrest : ∀ e ∈ w, isWordChar e = true := fun e he => hw e (List.mem_cons_of_mem c he)
    have hstop : Stops isWordChar (d :: cs) := stops_cons (eq_false_of_ne_true hd)
    have hspace : isSpace c = false := isSpace_of_class rfl hc
    rw [List.cons_append, tokens?.eq_def]
    simp only [hspace, hc, takeWhile_append_of_stops hrest hstop,
      dropWhile_append_of_stops hrest hstop, ht]
    cases tokens? (d :: cs) <;> rfl

theorem char (h : IsWord [c] t) (hd : ¬ isWordChar d) (cs : List Char) :
    tokens? (c :: d :: cs) = (tokens? (d :: cs)).map (t :: ·) := h.tokens hd cs

theorem sign (h : IsWord w t) (hc : (isSpace c || isWordChar c) = false) (hd : ¬ isWordChar d)
    (cs : List Char) :
    tokens? (c :: (w ++ d :: cs)) = (single? c).bind fun s => (tokens? (d :: cs)).map
      ([s, t] ++ ·) := by
  have htokens := h.tokens hd cs
  cases w with
  | nil => cases h.token
  | cons e w =>
    have hpair : ¬ isPair c e := isPair_of_isWordChar (h.chars e List.mem_cons_self)
    rw [List.cons_append] at htokens ⊢
    simp [tokens?_single hc hpair, htokens, Function.comp_def]

end IsWord

end Kernelwright.Program
