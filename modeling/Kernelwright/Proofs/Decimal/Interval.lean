import Kernelwright.Decimal.Layout
import Kernelwright.Proofs.Text.Runs
import Mathlib.Algebra.Order.Field.Power
import Mathlib.Algebra.Order.Field.Rat
import Mathlib.Data.Nat.Cast.Order.Field
import Mathlib.Tactic.FieldSimp
import Mathlib.Tactic.Linarith
import Mathlib.Tactic.Positivity
import Mathlib.Tactic.Ring

/-!
# Decimals and the intervals that round to a datum

The decimal that is written for a positive datum lies in the interval of numbers that round to it,
and the intervals of two data of one format have no number in common. So a written decimal
determines its datum.
-/

namespace Kernelwright.Decimal

open Kernelwright.Ieee

variable {n num den tries start count bits m : Nat} {i : Interval} {f : Format} {s : Bool}
variable {e lead : Int}

/-! ### Powers -/

theorem pow_toNat_div {b : Nat} (hb : 0 < b) (k : Int) :
    ((Nat.pow b k.toNat : Nat) : ℚ) / (Nat.pow b (-k).toNat : Nat) = (b : ℚ) ^ k := by
  have hne : (b : ℚ) ≠ 0 := by positivity
  rcases Int.le_total 0 k with hk | hk
  · obtain ⟨n, rfl⟩ := Int.eq_ofNat_of_zero_le hk
    simp
  · obtain ⟨n, hn⟩ := Int.eq_ofNat_of_zero_le (show 0 ≤ -k by omega)
    obtain rfl : k = -(n : Int) := by omega
    simp

/-! ### Leading digits -/

theorem digitCount_spec (h : 0 < n) :
    0 < digitCount n ∧ 10 ^ (digitCount n - 1) ≤ n ∧ n < 10 ^ digitCount n := by
  fun_induction digitCount n with
  | case1 => exact absurd h (by decide)
  | case2 n hn ih =>
    refine ⟨Nat.succ_pos _, ?_⟩
    rw [Nat.add_sub_cancel]
    rcases Nat.eq_zero_or_pos (n / 10) with hzero | hpos
    · rw [hzero, digitCount]
      simp
      omega
    · obtain ⟨hcount, hlow, hhigh⟩ := ih hpos
      obtain ⟨c, hc⟩ : ∃ c, digitCount (n / 10) = c + 1 := ⟨digitCount (n / 10) - 1, by omega⟩
      rw [hc, Nat.add_sub_cancel] at hlow
      rw [hc] at hhigh ⊢
      rw [Nat.pow_succ] at hhigh ⊢
      rw [Nat.pow_succ, Nat.pow_succ]
      omega

theorem digitCount_div (hle : den ≤ num) (hden : 0 < den) :
    ∃ c, digitCount (num / den) = c + 1 ∧ 10 ^ c * den ≤ num ∧ num < 10 ^ (c + 1) * den := by
  obtain ⟨hpos, hlow, hhigh⟩ := digitCount_spec (Nat.div_pos hle hden)
  refine ⟨digitCount (num / den) - 1, by omega, (Nat.le_div_iff_mul_le hden).1 hlow, ?_⟩
  rw [Nat.sub_add_cancel hpos]
  exact (Nat.div_lt_iff_lt_mul hden).1 hhigh

theorem leadingExponent_spec (hnum : 0 < num) (hden : 0 < den) :
    (10 : ℚ) ^ leadingExponent num den ≤ num / den ∧
      (num : ℚ) / den < 10 ^ (leadingExponent num den + 1) := by
  have hdenq : (0 : ℚ) < den := by exact_mod_cast hden
  have hnumq : (0 : ℚ) < num := by exact_mod_cast hnum
  unfold leadingExponent
  split
  · next hle =>
    obtain ⟨c, hc, hlow, hhigh⟩ := digitCount_div hle hden
    have hlead : ((digitCount (num / den) : Int) - 1) = (c : Int) := by rw [hc]; push_cast; ring
    rw [hlead, le_div_iff₀ hdenq, div_lt_iff₀ hdenq]
    exact ⟨by exact_mod_cast hlow, by exact_mod_cast hhigh⟩
  · next hlt =>
    obtain ⟨t, ht, hlow, hhigh⟩ := digitCount_div (Nat.le_of_not_le hlt) hnum
    have hlowq : (10 : ℚ) ^ t * num ≤ den := by exact_mod_cast hlow
    have hhighq : (den : ℚ) < 10 ^ (t + 1) * num := by exact_mod_cast hhigh
    have hpow : (0 : ℚ) < 10 ^ t := by positivity
    simp only [ht, Nat.add_sub_cancel]
    split
    · next heq =>
      have heqq : (num : ℚ) * 10 ^ t = den := by exact_mod_cast heq
      have hvalue : (num : ℚ) / den = 10 ^ (-(t : Int)) := by
        rw [← heqq, zpow_neg, zpow_natCast]
        field_simp
      rw [hvalue]
      exact ⟨le_refl _, zpow_lt_zpow_right₀ (by norm_num) (by omega)⟩
    · next hne =>
      have hneq : (num : ℚ) * 10 ^ t ≠ den := by exact_mod_cast hne
      have hltq : (10 : ℚ) ^ t * num < den := lt_of_le_of_ne hlowq (by rwa [mul_comm])
      have hexp : -(t : Int) - 1 = -((t + 1 : Nat) : Int) := by push_cast; ring
      rw [Int.sub_add_cancel, hexp, zpow_neg, zpow_neg, zpow_natCast, zpow_natCast,
        le_div_iff₀ hdenq, div_lt_iff₀ hdenq, inv_mul_le_iff₀ (by positivity), lt_inv_mul_iff₀ hpow]
      exact ⟨hhighq.le, hltq⟩

/-! ### Intervals -/

namespace Interval

def exact (i : Interval) : ℚ := i.value / i.den

/-- A number rounds to the datum of the interval. -/
def Contains (i : Interval) (x : ℚ) : Prop :=
  if i.closed then i.low / i.den ≤ x ∧ x ≤ i.high / i.den else i.low / i.den < x ∧
    x < i.high / i.den

theorem holds_iff (hi : 0 < i.den) (hden : 0 < den) :
    i.holds num den = true ↔ i.Contains (num / den) := by
  have hiq : (0 : ℚ) < i.den := by exact_mod_cast hi
  have hdenq : (0 : ℚ) < den := by exact_mod_cast hden
  unfold holds Contains
  split
  · rw [div_le_div_iff₀ hiq hdenq, div_le_div_iff₀ hdenq hiq, Bool.and_eq_true, decide_eq_true_eq,
      decide_eq_true_eq]
    norm_cast
  · rw [div_lt_div_iff₀ hiq hdenq, div_lt_div_iff₀ hdenq hiq, Bool.and_eq_true, decide_eq_true_eq,
      decide_eq_true_eq]
    norm_cast

variable {i : Interval} {tie : Tie} {lead : Int} {count d : Nat}

/-- The grid of decimals with `count` digits. -/
def grid (lead : Int) (count : Nat) : ℚ := 10 ^ (lead + 1 - count)

theorem grid_pos : 0 < grid lead count := by
  unfold grid
  positivity

theorem grid_eq : grid lead count = ((Nat.pow 10 (lead + 1 - count).toNat : Nat) : ℚ)
    / (Nat.pow 10 (-(lead + 1 - count)).toNat : Nat) := (pow_toNat_div (by decide) _).symm

theorem pow_eq_grid {a : Int} {k : Nat} (h : a = k + (lead + 1 - count)) :
    (10 : ℚ) ^ a = 10 ^ k * grid lead count := by
  rw [grid, h, ← zpow_natCast, ← zpow_add₀ (by norm_num)]

/-- The neighbour of the value below it, in units of the grid. -/
def below (i : Interval) (lead : Int) (count : Nat) : Nat :=
  i.value * Nat.pow 10 (-(lead + 1 - count)).toNat / (i.den * Nat.pow 10 (lead + 1 - count).toNat)

theorem below_spec (hi : 0 < i.den) (lead : Int) (count : Nat) :
    (i.below lead count : ℚ) * grid lead count ≤ i.exact ∧
      i.exact < (i.below lead count + 1 : Nat) * grid lead count := by
  have hunit : 0 < i.den * Nat.pow 10 (lead + 1 - count).toNat :=
    Nat.mul_pos hi (Nat.pow_pos (by decide))
  have hdown : 0 < Nat.pow 10 (-(lead + 1 - count)).toNat := Nat.pow_pos (by decide)
  have hiq : (0 : ℚ) < i.den := by exact_mod_cast hi
  have hdownq : (0 : ℚ) < (Nat.pow 10 (-(lead + 1 - count)).toNat : Nat) := by exact_mod_cast hdown
  have hlow : i.below lead count * (i.den * Nat.pow 10 (lead + 1 - count).toNat)
      ≤ i.value * Nat.pow 10 (-(lead + 1 - count)).toNat := Nat.div_mul_le_self _ _
  have hhigh : i.value * Nat.pow 10 (-(lead + 1 - count)).toNat
      < (i.below lead count + 1) * (i.den * Nat.pow 10 (lead + 1 - count).toNat) :=
    (Nat.div_lt_iff_lt_mul hunit).1 (Nat.lt_succ_self _)
  have hlowq := (Nat.cast_le (α := ℚ)).2 hlow
  have hhighq := (Nat.cast_lt (α := ℚ)).2 hhigh
  rw [grid_eq, exact, mul_div_assoc', mul_div_assoc', div_le_div_iff₀ hdownq hiq,
    div_lt_div_iff₀ hiq hdownq]
  push_cast at hlowq hhighq ⊢
  constructor <;> linarith

theorem holds_grid (hi : 0 < i.den) (d : Nat) :
    i.holds (d * Nat.pow 10 (lead + 1 - count).toNat)
      (Nat.pow 10 (-(lead + 1 - count)).toNat) = true ↔ i.Contains (d * grid lead count) := by
  have hdown : 0 < Nat.pow 10 (-(lead + 1 - count)).toNat := Nat.pow_pos (by decide)
  rw [holds_iff hi hdown, grid_eq, Nat.cast_mul, mul_div_assoc]

/-- A hit is one of the two neighbours of the value on the grid that lie in the interval; there is
none only if neither does. -/
theorem hit?_cases (i : Interval) (tie : Tie) (lead : Int) (count : Nat) (hi : 0 < i.den) :
    (∃ d, i.hit? tie lead count = some d ∧ i.Contains (d * grid lead count) ∧
      (d = i.below lead count ∨ d = i.below lead count + 1)) ∨
    (i.hit? tie lead count = none ∧ ¬ i.Contains (i.below lead count * grid lead count) ∧
      ¬ i.Contains ((i.below lead count + 1 : Nat) * grid lead count)) := by
  simp only [← holds_grid hi]
  generalize hq : i.below lead count = q
  generalize hup : Nat.pow 10 (lead + 1 - count).toNat = up
  generalize hdown : Nat.pow 10 (-(lead + 1 - count)).toNat = down
  rw [below, hup, hdown] at hq
  simp only [hit?, hup, hdown, hq]
  grind

theorem search?_spec {d : Nat} (h : i.search? tie lead tries start = some (d, count)) :
    start ≤ count ∧ i.hit? tie lead count = some d := by
  induction tries generalizing start with
  | zero => cases h
  | succ tries ih =>
    rw [search?] at h
    split at h
    · next hit =>
      cases h
      exact ⟨Nat.le_refl _, hit⟩
    · obtain ⟨hle, hhit⟩ := ih h
      exact ⟨by omega, hhit⟩

/-- The search does not miss the last grid it tests. -/
theorem search?_isSome (h : (i.hit? tie lead (start + tries)).isSome = true) :
    (i.search? tie lead (tries + 1) start).isSome = true := by
  induction tries generalizing start with
  | zero =>
    obtain ⟨d, hd⟩ := Option.isSome_iff_exists.1 h
    rw [Nat.add_zero] at hd
    simp [search?, hd]
  | succ tries ih =>
    rw [search?]
    split
    · rfl
    · exact ih (by rwa [Nat.add_right_comm, Nat.add_assoc])

end Interval

/-! ### Data of a format -/

/-- The significand and the exponent of a finite datum: a significand without its leading bit has
the least exponent. -/
structure Regular (f : Format) (m : Nat) (e : Int) : Prop where
  bound : m < 2 ^ (f.fraction + 1)
  least : f.least ≤ e
  leading : e = f.least ∨ 2 ^ f.fraction ≤ m

theorem regular_of_decode (h : f.decode bits = .finite s m e) : Regular f m e := by
  have hstored : bits % 2 ^ f.fraction < 2 ^ f.fraction := Nat.mod_lt _ (Nat.pow_pos (by decide))
  have hsucc : 2 ^ (f.fraction + 1) = 2 * 2 ^ f.fraction := Nat.pow_succ'
  simp only [Format.decode, Nat.pow_eq] at h
  split at h
  · split at h <;> cases h
  · split at h
    · cases h
      exact ⟨by omega, Int.le_refl _, .inl rfl⟩
    · cases h
      exact ⟨by omega, by omega, .inr (Nat.le_add_left ..)⟩

theorem eq_of_decode (hbits : bits < 2 * f.signWeight) (h : f.decode bits = .finite s m e) :
    bits = f.signWeight * s.toNat + (if m < 2 ^ f.fraction then m
      else 2 ^ f.fraction * ((e - f.least).toNat + 1) + (m - 2 ^ f.fraction)) := by
  have hweight : 0 < f.signWeight := Nat.pow_pos (by decide)
  have hstored : bits % 2 ^ f.fraction < 2 ^ f.fraction := Nat.mod_lt _ (Nat.pow_pos (by decide))
  have hsplit : bits % f.signWeight
      = bits % 2 ^ f.fraction + 2 ^ f.fraction * (bits / 2 ^ f.fraction % 2 ^ f.exponent) := by
    rw [Format.signWeight, Nat.pow_eq, Nat.pow_add]
    exact Nat.mod_mul
  have hsign : bits / f.signWeight = (bits / f.signWeight % 2 == 1).toNat := by
    have : bits / f.signWeight < 2 := (Nat.div_lt_iff_lt_mul hweight).2 hbits
    generalize bits / f.signWeight = q at *
    rcases (by omega : q = 0 ∨ q = 1) with rfl | rfl <;> rfl
  have hparts := Nat.div_add_mod bits f.signWeight
  rw [hsplit] at hparts
  simp only [Format.decode, Nat.pow_eq] at h
  generalize hfield : bits / 2 ^ f.fraction % 2 ^ f.exponent = field at h hparts
  generalize hstored' : bits % 2 ^ f.fraction = stored at h hparts hstored
  split at h
  · split at h <;> cases h
  · split at h
    · next hzero =>
      cases h
      rw [hzero, Nat.mul_zero, Nat.add_zero] at hparts
      rw [if_pos hstored, ← hsign, hparts]
    · next hpos =>
      cases h
      have hexp : (f.least + ((field - 1 : Nat) : Int) - f.least).toNat + 1 = field := by omega
      rw [if_neg (Nat.not_lt.2 (Nat.le_add_left ..)), ← hsign, hexp, Nat.add_sub_cancel,
        Nat.add_comm _ stored, hparts]

namespace Interval

variable {f : Format} {m : Nat} {e : Int} {x : ℚ}

/-- How far the interval reaches below its value, in quarters of a unit. -/
def gap (f : Format) (m : Nat) (e : Int) : Nat :=
  if m = Nat.pow 2 f.fraction ∧ e > f.least then 1 else 2

theorem gap_le : gap f m e ≤ 2 := by
  unfold gap
  split <;> decide

theorem den_of_pos : 0 < (of f m e).den := Nat.pow_pos (by decide)

theorem quarters (n : Nat) :
    ((n * Nat.pow 2 (e - 2).toNat : Nat) : ℚ) / (Nat.pow 2 (2 - e).toNat : Nat) = n * 2
    ^ (e - 2) := by
  rw [Nat.cast_mul, mul_div_assoc, ← Int.neg_sub e 2, pow_toNat_div (by decide) (e - 2)]
  rfl

theorem exact_of : (of f m e).exact = (4 * m : Nat) * 2 ^ (e - 2) := quarters _

theorem low_of : ((of f m e).low : ℚ) / (of f m e).den = (4 * m - gap f m e : Nat) * 2 ^ (e - 2) :=
  quarters _

theorem high_of : ((of f m e).high : ℚ) / (of f m e).den = (4 * m + 2 : Nat) * 2 ^ (e - 2) :=
  quarters _

theorem contains_of_lt (hlow : ((4 * m - gap f m e : Nat) : ℚ) * 2 ^ (e - 2) < x)
    (hhigh : x < (4 * m + 2 : Nat) * 2 ^ (e - 2)) : (of f m e).Contains x := by
  rw [Contains, low_of, high_of]
  split
  · exact ⟨hlow.le, hhigh.le⟩
  · exact ⟨hlow, hhigh⟩

/-- What lies in the interval lies between its ends, and an odd significand excludes them. -/
theorem Contains.bounds (h : (of f m e).Contains x) :
    (((4 * m - gap f m e : Nat) : ℚ) * 2 ^ (e - 2) ≤ x ∧ x ≤ (4 * m + 2 : Nat) * 2 ^ (e - 2)) ∧
      (m % 2 = 1 → ((4 * m - gap f m e : Nat) : ℚ) * 2 ^ (e - 2) < x ∧
        x < (4 * m + 2 : Nat) * 2 ^ (e - 2)) := by
  rw [Contains, low_of, high_of] at h
  split at h
  · next hclosed =>
    refine ⟨h, fun hodd => ?_⟩
    have heven : m % 2 = 0 := by simpa [of] using hclosed
    omega
  · exact ⟨⟨h.1.le, h.2.le⟩, fun _ => h⟩

/-- On a grid that is fine enough one of the neighbours lies in the interval. -/
theorem neighbour_contained (hm : 0 < m) (hbound : m < 2 ^ (f.fraction + 1))
    (hf : 2 ^ (f.fraction + 1) < 10 ^ 16) (hgrid : grid lead count * 10 ^ 16 ≤ (of f m e).exact) :
    (of f m e).Contains ((of f m e).below lead count * grid lead count) ∨
      (of f m e).Contains (((of f m e).below lead count + 1 : Nat) * grid lead count) := by
  obtain ⟨hbelow, habove⟩ := below_spec (den_of_pos : 0 < (of f m e).den) lead count
  rw [exact_of] at hgrid hbelow habove
  have hu : (0 : ℚ) < 2 ^ (e - 2) := by positivity
  have hpow : 2 ^ (f.fraction + 1) = 2 * Nat.pow 2 f.fraction := Nat.pow_succ'
  have hmq : (m : ℚ) < 10 ^ 16 := by exact_mod_cast hbound.trans hf
  have hmpos : (0 : ℚ) < m := by exact_mod_cast hm
  by_cases hgap : m = Nat.pow 2 f.fraction ∧ e > f.least
  · -- the neighbour above is less than half a unit away
    right
    have htwice : (2 * m : ℚ) < 10 ^ 16 := by
      have : 2 * m < 10 ^ 16 := by omega
      exact_mod_cast this
    refine contains_of_lt ?_ ?_
    · refine lt_of_lt_of_le (mul_lt_mul_of_pos_right ?_ hu) habove.le
      have : 4 * m - gap f m e < 4 * m := by
        rw [gap, if_pos hgap]
        omega
      exact_mod_cast this
    · push_cast at hgrid hbelow ⊢
      nlinarith
  · -- the nearer neighbour is less than half a unit away
    have hgap2 : gap f m e = 2 := if_neg hgap
    have hlow : ((4 * m - gap f m e : Nat) : ℚ) = 4 * m - 2 := by
      rw [hgap2, Nat.cast_sub (by omega)]
      push_cast
      ring
    by_cases hnear : (4 * m - 2 : ℚ) * 2 ^ (e - 2) < (of f m e).below lead count * grid lead count
    · left
      refine contains_of_lt (by rwa [hlow]) (lt_of_le_of_lt hbelow (mul_lt_mul_of_pos_right ?_ hu))
      exact_mod_cast (by omega : 4 * m < 4 * m + 2)
    · right
      refine contains_of_lt ?_ ?_
      · refine lt_trans (mul_lt_mul_of_pos_right ?_ hu) habove
        rw [hlow]
        push_cast
        linarith
      · push_cast at hgrid hbelow habove ⊢
        nlinarith

end Interval

/-! ### The shortest decimal -/

/-- The number that a decimal stands for. -/
def Scientific.value (s : Scientific) : ℚ :=
  s.digits * 10 ^ (s.exponent + 1 - (toString s.digits).toList.length)

theorem length_toString {k : Nat} (hlow : 10 ^ k ≤ n) (hhigh : n < 10 ^ (k + 1)) :
    (toString n).toList.length = k + 1 := by
  rw [Text.toList_toString_nat]
  have hle : (Nat.toDigits 10 n).length ≤ k + 1 :=
    (Nat.length_toDigits_le_iff (by decide) (by omega)).2 hhigh
  have hge : k < (Nat.toDigits 10 n).length := by
    rcases Nat.eq_zero_or_pos k with rfl | hk
    · exact List.length_pos_iff.2 Nat.toDigits_ne_nil
    · by_contra hlt
      have := (Nat.length_toDigits_le_iff (b := 10) (by decide) hk).1 (Nat.le_of_not_lt hlt)
      omega
  omega

namespace Interval

theorem below_digits (hi : 0 < i.den) (hlow : (10 : ℚ) ^ lead ≤ i.exact)
    (hhigh : i.exact < 10 ^ (lead + 1))
    (c : Nat) : 10 ^ c ≤ i.below lead (c + 1) ∧ i.below lead (c + 1) < 10 ^ (c + 1) := by
  obtain ⟨hbelow, habove⟩ := below_spec hi lead (c + 1)
  have hg : (0 : ℚ) < grid lead (c + 1) := grid_pos
  have hlead : (10 : ℚ) ^ lead = 10 ^ c * grid lead (c + 1) := pow_eq_grid (by omega)
  have hnext : (10 : ℚ) ^ (lead + 1) = 10 ^ (c + 1) * grid lead (c + 1) := pow_eq_grid (by omega)
  rw [hlead] at hlow
  rw [hnext] at hhigh
  have hlt := lt_of_mul_lt_mul_right (lt_of_le_of_lt hlow habove) hg.le
  have hlt' := lt_of_mul_lt_mul_right (lt_of_le_of_lt hbelow hhigh) hg.le
  norm_cast at hlt hlt'
  exact ⟨Nat.le_of_lt_succ hlt, hlt'⟩

end Interval

/-- The shortest decimal of a datum exists, and it lies in the interval of the datum. -/
theorem shortest?_spec (h : Regular f m e) (hm : 0 < m) (hf : 2 ^ (f.fraction + 1) < 10 ^ 16)
    (tie : Tie) :
    ∃ s, shortest? f tie m e = some s ∧ 0 < s.digits ∧ (Interval.of f m e).Contains s.value := by
  have hden : 0 < (Interval.of f m e).den := Interval.den_of_pos
  have hvalue : 0 < (Interval.of f m e).value :=
    Nat.mul_pos (Nat.mul_pos (by decide) hm) (Nat.pow_pos (by decide))
  have hlead := leadingExponent_spec hvalue hden
  simp only [shortest?]
  generalize leadingExponent (Interval.of f m e).value (Interval.of f m e).den = lead at hlead ⊢
  obtain ⟨hlow, hhigh⟩ : (10 : ℚ) ^ lead ≤ (Interval.of f m e).exact ∧
    (Interval.of f m e).exact < 10 ^ (lead + 1) := hlead
  have hfine : Interval.grid lead 17 * 10 ^ 16 ≤ (Interval.of f m e).exact := by
    rwa [mul_comm, ← Interval.pow_eq_grid (show lead = (16 : Nat) + (lead + 1 - 17) by omega)]
  have hsome : ((Interval.of f m e).search? tie lead 17 1).isSome = true := by
    refine Interval.search?_isSome ?_
    rcases Interval.hit?_cases (Interval.of f m e) tie lead (1 + 16) hden with
      ⟨d, hd, -⟩ | ⟨-, hbelow, habove⟩
    · rw [hd]
      rfl
    · exact (Interval.neighbour_contained hm h.bound hf hfine).elim (absurd · hbelow)
        (absurd · habove)
  obtain ⟨⟨d, count⟩, hsearch⟩ := Option.isSome_iff_exists.1 hsome
  obtain ⟨hcount, hhit⟩ := Interval.search?_spec hsearch
  obtain ⟨c, rfl⟩ : ∃ c, count = c + 1 := ⟨count - 1, by omega⟩
  rcases Interval.hit?_cases (Interval.of f m e) tie lead (c + 1) hden with
    ⟨d', hd', hcontains, hneighbour⟩ | ⟨hnone, -⟩
  · obtain rfl : d = d' := Option.some.inj (hhit.symm.trans hd')
    obtain ⟨hten, hlt⟩ := Interval.below_digits hden hlow hhigh c
    have hpos : 0 < 10 ^ c := Nat.pow_pos (by decide)
    rw [hsearch]
    refine ⟨_, rfl, ?_⟩
    dsimp only
    by_cases hcarry : d = Nat.pow 10 (c + 1)
    · -- the carry is the digit one, one place up
      rw [if_pos hcarry]
      refine ⟨Nat.one_pos, ?_⟩
      have heq : Scientific.value ⟨1, lead + 1⟩ = d * Interval.grid lead (c + 1) := by
        have hexponent : lead + 1 + 1 - (toString 1).toList.length
            = (c + 1 : Nat) + (lead + 1 - (c + 1 : Nat)) := by
          have hlength : (toString 1).toList.length = 1 := rfl
          omega
        rw [Scientific.value, Interval.pow_eq_grid hexponent, Nat.cast_one, one_mul, hcarry,
          Nat.pow_eq, Nat.cast_pow]
        rfl
      rwa [heq]
    · rw [if_neg hcarry]
      have hd : 10 ^ c ≤ d ∧ d < 10 ^ (c + 1) := by
        have : d ≠ 10 ^ (c + 1) := hcarry
        omega
      refine ⟨Nat.lt_of_lt_of_le hpos hd.1, ?_⟩
      rwa [Scientific.value, length_toString hd.1 hd.2]
  · rw [hnone] at hhit
    cases hhit

/-! ### Intervals of two data -/

namespace Interval

variable {f : Format} {m n : Nat} {e d : Int} {x : ℚ}

variable (hm : Regular f m e) (hn : Regular f n d)
include hm hn

/-- The interval of a datum ends before that of the next one, or where that starts; then one of the
two significands is odd. -/
theorem quarters_le (hpos : 0 < n) (h : e < d ∨ (e = d ∧ m < n)) :
    4 * m + 2 < (4 * n - gap f n d) * 2 ^ (d - e).toNat ∨
      (4 * m + 2 = (4 * n - gap f n d) * 2 ^ (d - e).toNat ∧ (m % 2 = 1 ∨ n % 2 = 1)) := by
  rcases h with hlt | ⟨rfl, hlt⟩
  · -- the upper datum has its leading bit, the lower one is below twice that
    have hleading : 2 ^ f.fraction ≤ n := by
      have := hn.leading
      have := hm.least
      omega
    have hbound : m < 2 * 2 ^ f.fraction := by
      rw [← Nat.pow_succ']
      exact hm.bound
    obtain ⟨k, hk⟩ : ∃ k, (d - e).toNat = k + 1 := ⟨(d - e).toNat - 1, by omega⟩
    have hone : 1 ≤ 2 ^ f.fraction := Nat.one_le_two_pow
    have hlow : 4 * 2 ^ f.fraction - 1 ≤ 4 * n - gap f n d := by
      unfold gap
      split
      · omega
      · next hgap =>
        have : n ≠ 2 ^ f.fraction := fun heq => hgap ⟨heq, by have := hm.least; omega⟩
        omega
    have hscaled : (4 * 2 ^ f.fraction - 1) * 2 ≤ (4 * n - gap f n d) * 2 ^ (d - e).toNat := by
      rw [hk, Nat.pow_succ']
      exact Nat.mul_le_mul hlow (Nat.le_mul_of_pos_right 2 (Nat.pow_pos (by decide)))
    omega
  · rw [Int.sub_self]
    have hgap : gap f n e ≤ 2 := gap_le
    simp only [Int.toNat_zero, Nat.pow_zero, Nat.mul_one]
    omega

/-- No number lies in the intervals of two data. -/
theorem Contains.not_of_lt (hpos : 0 < n)
    (h : e < d ∨ (e = d ∧ m < n)) (hx : (of f m e).Contains x) : ¬ (of f n d).Contains x := by
  intro hx'
  obtain ⟨⟨-, hhigh⟩, hodd⟩ := hx.bounds
  obtain ⟨⟨hlow, -⟩, hodd'⟩ := hx'.bounds
  have hu : (0 : ℚ) < 2 ^ (e - 2) := by positivity
  have hscale : (2 : ℚ) ^ (d - 2) = 2 ^ (d - e).toNat * 2 ^ (e - 2) := by
    rw [← zpow_natCast, ← zpow_add₀ (by norm_num)]
    congr 1
    omega
  rw [hscale, ← mul_assoc] at hlow hodd'
  rcases quarters_le hm hn hpos h with hlt | ⟨heq, hpar⟩
  · have hltq : ((4 * m + 2 : Nat) : ℚ) < (4 * n - gap f n d : Nat) * 2 ^ (d - e).toNat := by
      exact_mod_cast hlt
    have := mul_lt_mul_of_pos_right hltq hu
    linarith
  · have heqq : ((4 * m + 2 : Nat) : ℚ) = (4 * n - gap f n d : Nat) * 2 ^ (d - e).toNat := by
      exact_mod_cast heq
    rw [← heqq] at hlow hodd'
    rcases hpar with hm | hn
    · exact absurd (hodd hm).2 (not_lt.2 hlow)
    · exact absurd (hodd' hn).1 (not_lt.2 hhigh)

theorem Contains.unique (hmpos : 0 < m) (hnpos : 0 < n)
    (hx : (of f m e).Contains x) (hx' : (of f n d).Contains x) : m = n ∧ e = d := by
  by_contra hne
  rcases (by omega : (e < d ∨ (e = d ∧ m < n)) ∨ (d < e ∨ (d = e ∧ n < m))) with h | h
  · exact hx.not_of_lt hm hn hnpos h hx'
  · exact hx'.not_of_lt hn hm hmpos h hx

end Interval

end Kernelwright.Decimal
