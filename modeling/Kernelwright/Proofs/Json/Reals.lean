import Kernelwright.Element.Json
import Kernelwright.Proofs.Decimal.Interval
import Kernelwright.Proofs.Json.Decoding

/-!
# Written floating-point numbers

The text of a finite datum is a numeral, whose exact value lies in the interval of the datum. So two
data of a format with one text are equal.
-/

namespace Kernelwright

open Text

namespace Json

variable {ds cs : List Char}

/-! ### The number that a numeral stands for -/

/-- The number that digits spell. -/
def digitsValue (ds : List Char) : Nat := ds.foldl (fun n d => 10 * n + digitValue d) 0

theorem digitsValue_toString (n : Nat) : digitsValue (toString n).toList = n :=
  decimalValue_toString n

theorem digitsValue_append (as bs : List Char) :
    digitsValue (as ++ bs) = digitsValue as * 10 ^ bs.length + digitsValue bs := by
  have hfold : ∀ (bs : List Char) (n : Nat), bs.foldl (fun n d => 10 * n + digitValue d) n
      = n * 10 ^ bs.length + digitsValue bs := by
    intro bs
    induction bs with
    | nil => simp [digitsValue]
    | cons b bs ih =>
      intro n
      simp only [digitsValue, List.foldl_cons, List.length_cons]
      rw [ih, ih (10 * 0 + digitValue b), Nat.pow_succ]
      ring
  rw [digitsValue, List.foldl_append, hfold]
  rfl

theorem digitsValue_zeros (k : Nat) : digitsValue (List.replicate k '0') = 0 := by
  induction k with
  | zero => rfl
  | succ k ih =>
    rw [List.replicate_succ, ← List.singleton_append, digitsValue_append, ih]
    simp [digitsValue, digitValue]

namespace Numeral

def power (n : Numeral) : Int :=
  match n.exponent with
  | none => 0
  | some (sign, ds) => if sign = .minus then -(digitsValue ds : Int) else digitsValue ds

/-- The magnitude that a numeral stands for, exactly. -/
def exact (n : Numeral) : ℚ :=
  digitsValue (n.whole ++ n.fraction) * 10 ^ (n.power - n.fraction.length)

end Numeral

/-! ### Parts of a numeral -/

theorem scanFraction?_digits {rest : List Char} (hds : ∀ c ∈ ds, isDigit c = true) (hne : ds ≠ [])
    (hrest : Stops isDigit rest) : scanFraction? ('.' :: (ds ++ rest)) = some (ds, rest) := by
  simp only [scanFraction?, takeWhile_append_of_stops hds hrest,
    dropWhile_append_of_stops hds hrest]

theorem scanExponentDigits?_digits (hds : ∀ c ∈ ds, isDigit c = true) (hne : ds ≠ [])
    {sign : ExponentSign}
    (hsign : scanSign cs = (sign, ds)) : scanExponentDigits? cs = some (some (sign, ds), []) := by
  have htake := takeWhile_append_of_stops hds (stops_nil isDigit)
  have hdrop := dropWhile_append_of_stops hds (stops_nil isDigit)
  rw [List.append_nil] at htake hdrop
  simp only [scanExponentDigits?, hsign, htake, hdrop]

theorem scanExponent?_int (plus : Bool) (k : Int) :
    ∃ sign, scanExponent? ('e' :: ((if plus ∧ k ≥ 0 then ['+'] else []) ++ (toString k).toList))
      = some (some (sign, (toString k.natAbs).toList), []) ∧ (sign = .minus ↔ k < 0) := by
  have hscan {cs : List Char} {sign : ExponentSign} (n : Nat)
      (hsign : scanSign cs = (sign, (toString n).toList)) :
      scanExponent? ('e' :: cs) = some (some (sign, (toString n).toList), []) :=
    scanExponentDigits?_digits (fun c hc => isDigit_of_mem_toString hc)
      (toString_nat_ne_nil n) hsign
  cases k with
  | ofNat n =>
    cases plus with
    | true => exact ⟨.plus, hscan n rfl, by simp⟩
    | false =>
      refine ⟨.absent, hscan n ?_, by simp⟩
      show scanSign (toString n).toList = _
      rw [scanSign]
      · intro cs hcs
        have hplus : isDigit '+' = true := isDigit_of_mem_toString (n := n) (by rw [hcs]; simp)
        cases hplus
      · intro cs hcs
        have hminus : isDigit '-' = true := isDigit_of_mem_toString (n := n) (by rw [hcs]; simp)
        cases hminus
  | negSucc n =>
    have htext : (toString (Int.negSucc n)).toList = '-' :: (toString (n + 1)).toList := by
      simp [toString, Int.repr]
    refine ⟨.minus, hscan (n + 1) ?_, by simp [Int.negSucc_lt_zero]⟩
    rw [htext]
    simp [scanSign]

/-! ### Layouts -/

/-- A decimal is spelled by a numeral. -/
def Spells (cs : List Char) (x : ℚ) : Prop :=
  ∀ negative, ∃ n, scanUnsigned? negative cs = some (n, []) ∧ n.negative = negative ∧ n.exact = x

theorem spells_point (whole fraction : List Char) (hwhole : ∀ c ∈ whole, isDigit c = true)
    (hlead : whole = ['0'] ∨ ∃ c cs, whole = c :: cs ∧ c ≠ '0')
    (hfraction : ∀ c ∈ fraction, isDigit c = true) (hne : fraction ≠ []) :
    Spells (whole ++ '.' :: fraction)
      (digitsValue (whole ++ fraction) * 10 ^ (-(fraction.length : Int))) := by
  intro negative
  have hscan := scanFraction?_digits hfraction hne (stops_nil _)
  rw [List.append_nil] at hscan
  refine ⟨⟨negative, whole, fraction, none⟩, ?_, rfl, ?_⟩
  · rw [scanUnsigned?, scanWhole?_digits hwhole hlead (stops_cons (by decide))]
    simp [hscan, scanExponent?]
  · simp [Numeral.exact, Numeral.power]

variable {d : Nat} {e : Int}

theorem isDigit_of_mem_zeros {k : Nat} {c : Char} (h : c ∈ List.replicate k '0') :
    isDigit c = true := by
  rw [List.eq_of_mem_replicate h]
  rfl

theorem spells_positional_neg (hd : 0 < d) (he : e < 0) :
    Spells (Decimal.positional (toString d).toList e) (Decimal.Scientific.value ⟨d, e⟩) := by
  have hdigits : ∀ c ∈ (toString d).toList, isDigit c = true :=
    fun c hc => isDigit_of_mem_toString hc
  have hvalue := digitsValue_toString d
  obtain ⟨c, cs, hcs, -⟩ := toString_nat_head hd
  rw [Decimal.Scientific.value, Decimal.positional, if_pos he]
  generalize (toString d).toList = ds at *
  have hfraction : ∀ c ∈ List.replicate (-e - 1).toNat '0' ++ ds, isDigit c = true := by
    intro c hc
    rcases List.mem_append.1 hc with hc | hc
    · exact isDigit_of_mem_zeros hc
    · exact hdigits c hc
  have hspells := spells_point ['0'] _ (by simp [isDigit]) (.inl rfl) hfraction (by simp [hcs])
  have hzeros : ['0'] ++ (List.replicate (-e - 1).toNat '0' ++ ds)
      = List.replicate ((-e - 1).toNat + 1) '0' ++ ds := by
    rw [List.replicate_succ]
    rfl
  have hpower : -((List.replicate (-e - 1).toNat '0' ++ ds).length : Int) = e + 1 - ds.length := by
    rw [List.length_append, List.length_replicate]
    omega
  rw [hzeros, digitsValue_append, digitsValue_zeros, hvalue, Nat.zero_mul, Nat.zero_add,
    hpower] at hspells
  exact hspells

theorem spells_positional_nonneg (hd : 0 < d) (he : ¬ e < 0) :
    Spells (Decimal.positional (toString d).toList e) (Decimal.Scientific.value ⟨d, e⟩) := by
  have hdigits : ∀ c ∈ (toString d).toList, isDigit c = true :=
    fun c hc => isDigit_of_mem_toString hc
  have hvalue := digitsValue_toString d
  obtain ⟨c, cs, hcs, hc⟩ := toString_nat_head hd
  rw [Decimal.Scientific.value, Decimal.positional, if_neg he]
  generalize (toString d).toList = ds at *
  dsimp only
  by_cases hlength : ds.length ≤ e.toNat + 1
  · -- the point stands behind the last digit
    have hfull : (ds ++ List.replicate (e.toNat + 1 - ds.length) '0').length ≤ e.toNat + 1 := by
      rw [List.length_append, List.length_replicate]
      omega
    have hwhole : ∀ c ∈ ds ++ List.replicate (e.toNat + 1 - ds.length) '0', isDigit c = true := by
      intro c hc
      rcases List.mem_append.1 hc with hc | hc
      · exact hdigits c hc
      · exact isDigit_of_mem_zeros hc
    have hspells :=
      spells_point _ ['0'] hwhole (.inr ⟨c, _, by rw [hcs]; rfl, hc⟩) (by simp [isDigit])
      (by simp)
    have hpower : e + 1 - ds.length = ((e.toNat + 1 - ds.length : Nat) : Int) := by omega
    have hnumber : (digitsValue (ds ++ List.replicate (e.toNat + 1 - ds.length) '0' ++ ['0']) : ℚ)
        * 10 ^ (-(['0'].length : Int)) = d * 10 ^ (e + 1 - ds.length) := by
      have hzero : digitsValue ['0'] = 0 := rfl
      rw [digitsValue_append, digitsValue_append, digitsValue_zeros, hzero, hvalue, hpower,
        zpow_natCast, List.length_replicate]
      simp
    rw [List.take_of_length_le hfull, List.drop_of_length_le hfull]
    rw [hnumber] at hspells
    exact hspells
  · -- the point stands among the digits
    have hpad : e.toNat + 1 - ds.length = 0 := by omega
    have hrest : (ds.drop (e.toNat + 1)).isEmpty = false := by
      rw [List.isEmpty_eq_false_iff, ← List.length_pos_iff, List.length_drop]
      omega
    have hspells := spells_point (ds.take (e.toNat + 1)) (ds.drop (e.toNat + 1))
      (fun c hc => hdigits c (List.mem_of_mem_take hc))
      (.inr ⟨c, cs.take e.toNat, by rw [hcs]; rfl, hc⟩)
      (fun c hc => hdigits c (List.mem_of_mem_drop hc)) (List.isEmpty_eq_false_iff.1 hrest)
    have hpower : -((ds.drop (e.toNat + 1)).length : Int) = e + 1 - ds.length := by
      rw [List.length_drop]
      omega
    rw [List.take_append_drop, hvalue, hpower] at hspells
    simp only [hpad, List.replicate_zero, List.append_nil, hrest, Bool.false_eq_true, if_false]
    exact hspells

theorem spells_exponential (l : Decimal.Layout) (hd : 0 < d) :
    Spells (l.exponential (toString d).toList e) (Decimal.Scientific.value ⟨d, e⟩) := by
  intro negative
  have hdigits : ∀ c ∈ (toString d).toList, isDigit c = true :=
    fun c hc => isDigit_of_mem_toString hc
  have hvalue := digitsValue_toString d
  obtain ⟨c, cs, hcs, hc⟩ := toString_nat_head hd
  obtain ⟨sign, hexponent, hsign⟩ := scanExponent?_int l.plus e
  rw [Decimal.Scientific.value]
  generalize (toString d).toList = ds at *
  subst hcs
  have hpower : (Numeral.mk negative [c] cs (some (sign, (toString e.natAbs).toList))).power =
      e := by
    simp only [Numeral.power, digitsValue_toString, hsign]
    split <;> omega
  have hwhole : ∀ rest, Stops isDigit rest → scanWhole? (c :: rest) = some ([c], rest) :=
    fun rest =>
    scanWhole?_digits (by simpa using hdigits c (by simp)) (.inr ⟨c, [], rfl, hc⟩)
  refine ⟨⟨negative, [c], cs, some (sign, (toString e.natAbs).toList)⟩, ?_, rfl, ?_⟩
  · generalize htail : (if l.plus ∧ e ≥ 0 then ['+'] else []) ++ (toString e).toList =
      tail at hexponent
    have hstop : Stops isDigit ('e' :: tail) := stops_cons (by decide)
    cases cs with
    | nil =>
      have htext : l.exponential [c] e = c :: 'e' :: tail := by rw [← htail]; rfl
      rw [htext, scanUnsigned?, hwhole _ hstop]
      simp [scanFraction?, hexponent]
    | cons c' cs =>
      have htext : l.exponential (c :: c' :: cs) e = c :: '.' :: (c' :: cs ++ 'e' :: tail) := by
        rw [← htail]
        simp [Decimal.Layout.exponential]
      have hfraction : scanFraction? ('.' :: (c' :: cs ++ 'e' :: tail)) = some
          (c' :: cs, 'e' :: tail) :=
        scanFraction?_digits (fun x hx => hdigits x (List.mem_cons_of_mem _ hx)) (by simp) hstop
      rw [htext, scanUnsigned?, hwhole _ (stops_cons (by decide))]
      simp only [Option.bind_eq_bind, Option.bind_some, hfraction, hexponent, Option.pure_def]
  · rw [Numeral.exact, hpower]
    simp only [List.singleton_append, hvalue, List.length_cons]
    congr 2
    push_cast
    ring

/-! ### Data -/

section Data

open Ieee Decimal

variable {f : Format} {s t : Bool} {m n : Nat} {e d : Int}

theorem Spells.signed {x : ℚ} (h : Spells cs x) (s : Bool) :
    ∃ n, scanNumeral? ((if s then ['-'] else []) ++ cs) = some (n, []) ∧ n.negative = s ∧
      n.exact = x := by
  obtain ⟨n, hscan, hn⟩ := h s
  cases s with
  | true => exact ⟨n, hscan, hn⟩
  | false =>
    refine ⟨n, (scanNumeral?.eq_2 cs ?_).trans hscan, hn⟩
    rintro cs rfl
    cases hscan

/-- The text of a finite datum is a numeral with the sign of the datum, and with a value in its
interval. -/
theorem scanNumeral?_text (l : Layout) (h : Regular f m e) (hf : 2 ^ (f.fraction + 1) < 10 ^ 16) :
    ∃ n, scanNumeral? (l.text f (.finite s m e)).toList = some (n, []) ∧ n.negative = s ∧
      ((m = 0 ∧ n.exact = 0) ∨ (0 < m ∧ (Interval.of f m e).Contains n.exact)) := by
  rw [Layout.text, String.toList_ofList]
  rcases Nat.eq_zero_or_pos m with hm | hm
  · have hspells : Spells ['0', '.', '0'] 0 := by
      have := spells_point ['0'] ['0'] (by simp [isDigit]) (.inl rfl) (by simp [isDigit]) (by simp)
      simpa [digitsValue, digitValue] using this
    obtain ⟨n, hscan, hsign, hvalue⟩ := hspells.signed s
    rw [if_pos hm]
    exact ⟨n, hscan, hsign, .inl ⟨hm, hvalue⟩⟩
  · obtain ⟨sci, hsci, hdigits, hcontains⟩ := shortest?_spec h hm hf l.tie
    have hspells : Spells (l.render sci) sci.value := by
      unfold Layout.render
      dsimp only
      split
      · by_cases hneg : sci.exponent < 0
        · exact spells_positional_neg hdigits hneg
        · exact spells_positional_nonneg hdigits hneg
      · exact spells_exponential l hdigits
    obtain ⟨n, hscan, hsign, hvalue⟩ := hspells.signed s
    rw [if_neg (Nat.ne_of_gt hm), hsci]
    exact ⟨n, hscan, hsign, .inr ⟨hm, by rwa [hvalue]⟩⟩

theorem not_contains_zero (hm : 0 < m) : ¬ (Interval.of f m e).Contains 0 := by
  intro hzero
  have hlow := hzero.bounds.1.1
  have hgap : Interval.gap f m e ≤ 2 := Interval.gap_le
  have hquarters : (0 : ℚ) < (4 * m - Interval.gap f m e : Nat) := by
    exact_mod_cast (by omega : 0 < 4 * m - Interval.gap f m e)
  have : (0 : ℚ) < (4 * m - Interval.gap f m e : Nat) * 2 ^ (e - 2) := by positivity
  linarith

theorem text_inj (l : Layout) (hm : Regular f m e) (hn : Regular f n d)
    (hf : 2 ^ (f.fraction + 1) < 10 ^ 16)
    (h : l.text f (.finite s m e) = l.text f (.finite t n d)) : s = t ∧ m = n ∧ e = d := by
  obtain ⟨a, ha, hs, hma⟩ := scanNumeral?_text (s := s) l hm hf
  obtain ⟨b, hb, ht, hnb⟩ := scanNumeral?_text (s := t) l hn hf
  obtain rfl : a = b := by
    rw [h, hb] at ha
    cases ha
    rfl
  refine ⟨hs.symm.trans ht, ?_⟩
  rcases hma with ⟨rfl, hzero⟩ | ⟨hmpos, hcontains⟩
  · rcases hnb with ⟨rfl, -⟩ | ⟨hnpos, hcontains'⟩
    · have hpow : 0 < 2 ^ f.fraction := Nat.pow_pos (by decide)
      have := hm.leading
      have := hn.leading
      omega
    · exact absurd (hzero ▸ hcontains') (not_contains_zero hnpos)
  · rcases hnb with ⟨-, hzero⟩ | ⟨hnpos, hcontains'⟩
    · exact absurd (hzero ▸ hcontains) (not_contains_zero hmpos)
    · exact hcontains.unique hm hn hmpos hnpos hcontains'

end Data

end Json

end Kernelwright
