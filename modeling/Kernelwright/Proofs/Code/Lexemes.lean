import Kernelwright.Code.Printer
import Kernelwright.Proofs.Program.Reader
import Kernelwright.Proofs.Text.Runs
import Mathlib.Data.Nat.Find

/-!
# The tokens of C

How C cuts a text into tokens: blanks only separate, and a token is as long as it can be. A blank, a
parenthesis and a comma are in no token of more than one character, so the text on both sides of
them is cut on its own. This is why operators keep apart from operands: all but the signs in front
of an operand are printed between blanks.
-/

namespace Kernelwright

open Grammar (isSpace isDigit)
open Program (isWordChar)
open Text

variable {a b cs w : List Char} {c d : Char} {s t : String}

namespace Code

/-! ### Cutting -/

/-- The signs of more than one character; the last two begin a comment. -/
def longSigns : List String :=
  ["%:%:", "...", "<<=", ">>=", "->", "++", "--", "<<", ">>", "<=", ">=", "==", "!=",
    "&&", "||", "*=",
    "/=", "%=", "+=", "-=", "&=", "^=", "|=", "##", "<:", ":>", "<%", "%>", "%:", "//", "/*"]

/-- A digit begins a number, maybe behind a dot. In a number a plus or a minus follows the letter of
an exponent. -/
def isNumber (w : List Char) : Bool :=
  (w.head?.any isDigit || w.head? = some '.' && w.tail.head?.any isDigit) &&
    w.all (fun c => isWordChar c || ['.', '+', '-'].contains c) &&
    (w.zip w.tail).all fun (e, c) => ['e', 'E', 'p', 'P'].contains e || !(['+', '-'].contains c)

def isToken (w : List Char) : Bool :=
  isNumber w || w.all isWordChar || longSigns.contains (String.ofList w)

/-- How many characters belong to the token that `c` begins, of the text behind it. -/
def extent (c : Char) (cs : List Char) : Nat :=
  Nat.findGreatest (fun n => isToken (c :: cs.take n)) cs.length

def cut : List Char → List String
  | [] => []
  | c :: cs =>
    if isSpace c then cut cs else String.ofList (c :: cs.take (extent c cs)) :: cut
      (cs.drop (extent c cs)) termination_by cs => cs.length decreasing_by
  all_goals simp only [List.length_cons, List.length_drop]
  all_goals omega

/-- The tokens of a text. -/
def lexemes (s : String) : List String := cut s.toList

/-! ### Borders -/

/-- Characters that are in no token of more than one. -/
def borders : List Char := [' ', '(', ')', ',']

theorem not_mem_of_isToken (hd : d ∈ borders) (hw : isToken w = true) : d ∉ w := by
  intro hmem
  have hnone : ¬ (isWordChar d = true ∨ ['.', '+', '-'].contains d = true) ∧
      ∀ s ∈ longSigns, d ∉ s.toList := by
    simp only [borders, List.mem_cons, List.not_mem_nil, or_false] at hd
    rcases hd with rfl | rfl | rfl | rfl <;> decide +kernel
  simp only [isToken, isNumber, Bool.or_eq_true, Bool.and_eq_true, List.all_eq_true] at hw
  rcases hw with (⟨⟨-, hall⟩, -⟩ | hall) | hsign
  · exact hnone.1 (hall d hmem)
  · exact hnone.1 (.inl (hall d hmem))
  · exact hnone.2 _ (List.contains_iff_mem.1 hsign) (by simpa using hmem)

theorem extent_append (hd : d ∈ borders) (c : Char) : extent c (a ++ d :: b) = extent c a := by
  have hle : extent c a ≤ a.length := Nat.findGreatest_le _
  refine Nat.findGreatest_eq_iff.2 ⟨by simp; omega, fun hne => ?_, fun j hj _ htoken => ?_⟩
  · rw [List.take_append_of_le_length hle]
    exact Nat.findGreatest_of_ne_zero (m := extent c a) (P := fun n => isToken (c :: a.take n)) rfl
      hne
  · by_cases hja : j ≤ a.length
    · rw [List.take_append_of_le_length hja] at htoken
      exact Nat.findGreatest_is_greatest hj hja htoken
    · obtain ⟨m, rfl⟩ : ∃ m, j = a.length + (m + 1) := ⟨j - a.length - 1, by omega⟩
      exact not_mem_of_isToken hd htoken (by simp [List.take_append])

/-- A border separates what stands on both sides of it. -/
theorem cut_append (hd : d ∈ borders) (a b : List Char) :
    cut (a ++ d :: b) = cut a ++ cut (d :: b) := by
  fun_induction cut a with
  | case1 => rfl
  | case2 c cs hc ih => rw [List.cons_append, cut, if_pos hc, ih]
  | case3 c cs hc ih =>
    have hle : extent c cs ≤ cs.length := Nat.findGreatest_le _
    rw [List.cons_append, cut, if_neg hc, extent_append hd, List.take_append_of_le_length hle,
      List.drop_append_of_le_length hle, ih, List.cons_append]

/-- A character that begins no longer token is one of its own. -/
theorem cut_single (hc : isSpace c = false)
    (h : ∀ d w, cs.head? = some d → isToken (c :: d :: w) = false) :
    cut (c :: cs) = String.singleton c :: cut cs := by
  have hzero : extent c cs = 0 := by
    refine Nat.findGreatest_eq_zero_iff.2 fun n hn _ => ?_
    cases cs with
    | nil => simp_all
    | cons d cs =>
      obtain ⟨m, rfl⟩ := Nat.exists_eq_add_of_lt hn
      simp [h d _ rfl]
  rw [cut, if_neg (by simp [hc]), hzero]
  rfl

/-- A border is a token, unless it is a blank. -/
theorem cut_border (hd : d ∈ borders) : cut (d :: cs) = cut [d] ++ cut cs := by
  by_cases hspace : isSpace d = true
  · simp [cut, hspace]
  · have hshort (e : Char) (w : List Char) : isToken (d :: e :: w) = false :=
      Bool.eq_false_iff.2 fun h => not_mem_of_isToken hd h (.head _)
    have hspace := Bool.eq_false_iff.2 hspace
    rw [cut_single hspace fun e w _ => hshort e w, cut_single hspace fun e w _ => hshort e w, cut]
    rfl

/-- A text is cut where a part of it begins or ends with a border. -/
theorem lexemes_append
    (h : (∃ d ∈ borders, t.toList.head? = some d) ∨ ∃ d ∈ borders, s.toList.getLast? = some d) :
    lexemes (s ++ t) = lexemes s ++ lexemes t := by
  simp only [lexemes, String.toList_append]
  obtain ⟨d, hd, ht⟩ | ⟨d, hd, hs⟩ := h
  · obtain ⟨cs, hcs⟩ := List.head?_eq_some_iff.1 ht
    rw [hcs, cut_append hd]
  · obtain ⟨cs, hcs⟩ := List.getLast?_eq_some_iff.1 hs
    rw [hcs, List.append_assoc, List.singleton_append, cut_append hd, cut_append hd, cut_border hd,
      List.append_assoc]

end Code

/-! ### Signs in front of operands -/

namespace Ieee.Datum

def isMinus : Datum → Bool
  | finite negative .. => negative
  | _ => false

end Ieee.Datum

/-- Whether the literal of a scalar begins with a minus: one that is negative, or minus zero, and is
written neither behind a cast nor in parentheses. -/
def Scalar.hasMinus : Scalar → Bool
  | int v => v.toInt < 0
  | long v => v.toInt < 0
  | float v => v.datum.isMinus
  | double v => v.datum.isMinus
  | _ => false

namespace Code

/-- Whether a text begins with a minus, or else with nothing that makes a longer token with a sign
in front of it. -/
def begins (minus : Bool) : List Char → Bool
  | [] => !minus
  | c :: _ => if minus then c = '-' else !(['-', '=', '>'].contains c)

theorem begins_of_isDigit (hc : isDigit c = true) : begins false (c :: cs) = true := by
  have hsign : c ∉ ['-', '=', '>'] := not_mem_of_class rfl hc
  simpa [begins] using hsign

theorem begins_int (n : Int) (rest : List Char) :
    begins (n < 0) ((toString n).toList ++ rest) = true := by
  cases n with
  | ofNat n =>
    obtain ⟨c, cs, hcs, hc⟩ := toString_nat_cons n
    have hsign : ¬ Int.ofNat n < 0 := Int.not_lt.2 (Int.natCast_nonneg n)
    rw [decide_eq_false hsign, show toString (Int.ofNat n) = toString n from rfl, hcs]
    exact begins_of_isDigit hc
  | negSucc n =>
    rw [decide_eq_true (Int.negSucc_lt_zero n)]
    simp [toString, Int.repr, begins]

theorem render_cons (d : Decimal.Scientific) :
    ∃ c cs, Scalar.display.render d = c :: cs ∧ isDigit c = true := by
  obtain ⟨c, cs, hcs, hc⟩ := toString_nat_cons d.digits
  simp only [Decimal.Layout.render, hcs]
  split
  · unfold Decimal.positional
    split
    · exact ⟨'0', _, rfl, rfl⟩
    · exact ⟨c, _, rfl, hc⟩
  · cases cs <;> exact ⟨c, _, rfl, hc⟩

theorem begins_display (f : Ieee.Format) (negative : Bool) (m : Nat) (e : Int) {rest : List Char}
    (hrest : begins false rest = true) :
    begins negative ((Scalar.display.text f (.finite negative m e)).toList ++ rest) = true := by
  rw [Decimal.Layout.text, String.toList_ofList]
  cases negative with
  | true => rfl
  | false =>
    rw [if_neg (by decide), List.nil_append]
    split
    · rfl
    split
    · next d _ =>
      obtain ⟨c, cs, hcs, hc⟩ := render_cons d
      rw [hcs]
      exact begins_of_isDigit hc
    · exact hrest

theorem begins_ofDatum {l : Literal} {x : Ieee.Datum}
    (h : ∀ negative m e, x = .finite negative m e → begins negative l.text.toList = true) :
    begins x.isMinus (Literal.ofDatum l x).text.toList = true := by
  rcases x with _ | negative | ⟨negative, m, e⟩
  · exact (by decide : begins false "NAN".toList = true)
  · cases negative
    · exact (by decide : begins false "INFINITY".toList = true)
    · exact (by decide : begins false "(-INFINITY)".toList = true)
  · exact h negative m e rfl

theorem begins_literal (v : Scalar) :
    begins v.hasMinus (Literal.ofScalar v).text.toList = true := by
  cases v with
  | byte v | char v | short v =>
    rw [Literal.ofScalar, Literal.text, String.toList_append]
    rfl
  | boolean b => cases b <;> decide
  | int v => simpa [Scalar.hasMinus, Literal.ofScalar, Literal.text] using begins_int v.toInt []
  | long v =>
    rw [Literal.ofScalar, Literal.text, String.toList_append]
    exact begins_int v.toInt _
  | float v =>
    refine begins_ofDatum fun negative m e hv => ?_
    rw [Literal.text, hv, String.toList_append]
    exact begins_display .single negative m e rfl
  | double v =>
    refine begins_ofDatum fun negative m e hv => ?_
    rw [Literal.text, hv, ← List.append_nil (String.toList _)]
    exact begins_display .double negative m e rfl

/-- A sign directly before a text is a token, but for a minus before a minus. -/
theorem cut_sign {minus : Bool} (hc : c ∈ ['-', '!', '~']) (h : begins minus cs = true)
    (hminus : c = '-' → minus = false) : cut (c :: cs) = String.singleton c :: cut cs := by
  simp only [List.mem_cons, List.not_mem_nil, or_false] at hc
  refine cut_single (by rcases hc with rfl | rfl | rfl <;> rfl) fun d w hd => ?_
  obtain ⟨cs, rfl⟩ := List.head?_eq_some_iff.1 hd
  cases minus <;> rcases hc with rfl | rfl | rfl <;>
    simp_all [begins, isToken, isNumber, isDigit, isWordChar, Grammar.isLetter, longSigns,
      String.ext_iff]

/-- Two minus signs are no token on their own. -/
theorem cut_decrement (cs : List Char) : (cut ('-' :: '-' :: cs)).head? ≠ some "-" := by
  obtain ⟨m, hm⟩ : ∃ m, extent '-' ('-' :: cs) = m + 1 :=
    Nat.exists_eq_add_of_le'
      (Nat.le_findGreatest (by simp) (show isToken ['-', '-'] = true by decide +kernel))
  rw [cut, hm]
  simp [isSpace, String.ext_iff]

end Code

end Kernelwright
