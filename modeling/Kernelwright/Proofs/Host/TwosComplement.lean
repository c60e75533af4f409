import Kernelwright.Proofs.Program.Arithmetic

/-!
# The host computes in two's complement

Integers of all kinds are computed in sixty-four bits and brought back to the width of the result.
What comes out is the exact result in that width: congruent to it and within the signed range. The
operators have no other error on integers than a division by zero.
-/

namespace Kernelwright

/-- The number that a scalar of an integral kind stands for. -/
def Scalar.integer : Scalar → Int
  | .byte n => n.toInt
  | .char n => n.toNat
  | .short n => n.toInt
  | .int n => n.toInt
  | .long n => n.toInt
  | _ => 0

theorem Scalar.integer_eq {s : Scalar} (hs : s.kind.isIntegral = true) :
    s.integer = s.asInt64.toInt := by
  rw [← Program.Val.toInt_ofScalar]
  cases s <;> first | rfl | cases hs

namespace Host

open Program (bits Operator Val Ty)

variable {op : BinaryOp} {k : ScalarKind} {a b : Scalar}

/-- The exact result of an operator on integers; a division by zero has none. Quotients are cut off
towards zero, shifts take their amount modulo the width, and the unsigned shift shifts the unsigned
number. -/
def exactly? (op : BinaryOp) (width : Nat) (x y : Int) : Option Int :=
  if op = .ushr then some ((x % 2 ^ width) >>> (y % width).toNat)
  else (Operator.ofBinary op).onInts? width x y

theorem valueKind_integral {a b : ScalarKind} (ha : a.isIntegral = true) (hb : b.isIntegral = true)
    (hk : op.valueKind a b = .scalar k) : k = .int ∨ k = .long := by
  have hpromote (b : ScalarKind) (hb : b.isIntegral = true) : a.promote b = .int ∨
      a.promote b = .long := by
    cases a <;> cases ha <;> cases b <;> cases hb <;> decide
  have hbool : a ≠ .boolean := fun h => by cases h; cases ha
  unfold BinaryOp.valueKind at hk
  rw [if_neg (fun h => hbool h.2.1)] at hk
  split at hk
  · cases hk
  · simp only [ha, hb, and_self, if_true, not_true_eq_false, and_false, if_false] at hk
    split at hk <;> cases hk
    · exact hpromote a ha
    · exact hpromote b hb

theorem onIntegers_eq_error {w : Width} {x y : Int64} {e : ArithmeticError}
    (h : onIntegers op w x y = .error e) : (op = .div ∨ op = .rem) ∧ y = 0 := by
  cases op <;> simp only [onIntegers, reduceCtorEq] at h
  all_goals
    split at h
    · next hy => exact ⟨by simp, hy⟩
    · cases h

theorem exactly?_of_onIntegers {w : Width} {x y r : Int64} (h : onIntegers op w x y = .ok r) :
    ∃ n, exactly? op (bits w) x.toInt y.toInt = some n ∧ Int64.ofInt n = r := by
  by_cases hop : op = .ushr
  · subst hop
    exact ⟨_, if_pos rfl, (Program.ushr_eq w x y).symm.trans (Except.ok.inj h)⟩
  · rw [exactly?, if_neg hop]
    exact Program.onInts?_of_onIntegers hop h

/-- A number that is wrapped to sixty-four bits and then to a kind lies in the range of that kind
and is congruent to the number. -/
theorem integer_cast_wrap (hk : k = .int ∨ k = .long) (n : Int) :
    let s := (Scalar.long ((Width.ofKind k).wrap (.ofInt n))).cast k
    s.kind = k ∧ s.integer ≡ n [ZMOD 2 ^ bits (.ofKind k)] ∧
      -2 ^ (bits (.ofKind k) - 1) ≤ s.integer ∧ s.integer < 2 ^ (bits (.ofKind k) - 1) := by
  intro s
  have hkind : s.kind = k := Scalar.kind_cast _ _
  have hinteger : s.integer = (Val.ofInt (.ofKind k) n).toInt := by
    have hs : s.kind.isIntegral = true := by obtain rfl | rfl := hk <;> rfl
    have hval : Val.ofScalar s = .ofInt (.ofKind k) n := by
      rw [Program.ofScalar_cast_wrap hk, Program.ofInt_toInt_ofInt (hkind ▸ hs)]
    rw [Scalar.integer_eq hs, ← Val.toInt_ofScalar, hval]
  refine ⟨hkind, ?_⟩
  rw [hinteger]
  obtain rfl | rfl := hk
  · exact ⟨Val.toInt_ofInt_modEq .int n, (Int32.ofInt n).le_toInt, (Int32.ofInt n).toInt_lt⟩
  · exact ⟨Val.toInt_ofInt_modEq .long n, (Int64.ofInt n).le_toInt, (Int64.ofInt n).toInt_lt⟩

/-- Host arithmetic on integers is arithmetic in two's complement, of thirty-two bits or, for
results of kind `long`, of sixty-four. -/
theorem binary_twosComplement (ha : a.kind.isIntegral = true) (hb : b.kind.isIntegral = true)
    (hk : op.valueKind a.kind b.kind = .scalar k) :
    let w := if k = .long then 64 else 32
    let byZero := (op = .div ∨ op = .rem) ∧ b.integer = 0
    ((∃ e, binary op k (.scalar a) (.scalar b) = .error e) ↔ byZero) ∧
    (¬ byZero → ∃ (n : Int) (r : Scalar), exactly? op w a.integer b.integer = some n ∧
      binary op k (.scalar a) (.scalar b) = .ok (.scalar r) ∧ r.kind = k ∧
      r.integer ≡ n [ZMOD 2 ^ w] ∧ -2 ^ (w - 1) ≤ r.integer ∧ r.integer < 2 ^ (w - 1)) := by
  have hk' := valueKind_integral ha hb hk
  have hw : (if k = .long then 64 else 32) = bits (.ofKind k) := by obtain rfl | rfl := hk' <;> rfl
  have hbinary : binary op k (.scalar a) (.scalar b)
      = (onIntegers op (.ofKind k) a.asInt64 b.asInt64).map fun r =>
          .scalar ((Scalar.long ((Width.ofKind k).wrap r)).cast k) := by
    obtain rfl | rfl := hk' <;> rfl
  have hzero : b.integer = 0 ↔ b.asInt64 = 0 := by
    rw [Scalar.integer_eq hb]
    exact ⟨fun h => Int64.toInt.inj h, fun h => by rw [h]; rfl⟩
  simp only [hw, hbinary, hzero]
  rw [Scalar.integer_eq ha, Scalar.integer_eq hb]
  cases hr : onIntegers op (.ofKind k) a.asInt64 b.asInt64 with
  | error e =>
    have hbyZero := onIntegers_eq_error hr
    exact ⟨⟨fun _ => hbyZero, fun _ => ⟨e, rfl⟩⟩, fun h => absurd hbyZero h⟩
  | ok r =>
    refine ⟨⟨?_, ?_⟩, fun _ => ?_⟩
    · rintro ⟨e, he⟩
      cases he
    · rintro ⟨hop, hb0⟩
      rw [hb0] at hr
      obtain rfl | rfl := hop <;> cases hr
    · obtain ⟨n, hn, rfl⟩ := exactly?_of_onIntegers hr
      exact ⟨n, _, hn, rfl, integer_cast_wrap hk' n⟩

/-- The least `int` divided by minus one wraps around. -/
theorem least_div_neg_one :
    BinaryOp.div.valueKind .int .byte = .scalar .int ∧
    ∃ r : Scalar, binary .div .int (.scalar (.int (-2147483648))) (.scalar (.byte (-1)))
        = .ok (.scalar r) ∧
      r.integer ≡ 2147483648 [ZMOD 2 ^ 32] ∧ r.integer < 2 ^ 31 := by
  obtain ⟨n, r, hn, hr, -, hmod, -, hlt⟩ :=
    (@binary_twosComplement .div .int (.int (-2147483648)) (.byte (-1)) rfl rfl rfl).2 (by decide)
  cases hn
  exact ⟨rfl, r, hr, hmod, hlt⟩

end Host

end Kernelwright
