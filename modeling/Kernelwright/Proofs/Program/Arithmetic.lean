import Kernelwright.Graph.Typing
import Kernelwright.Host.Arithmetic
import Kernelwright.Proofs.Program.Wrapping

/-!
# Operators of programs and of the host

The host computes integers in sixty-four bits and brings the result back to the width of its kind; a
program computes in the common type of the operands. On truth values and words the two agree. The
point common to all operators is `ofInt_toInt_ofInt`: a number that wraps to sixty-four bits first
wraps to the same word afterwards.
-/

namespace Kernelwright

/-- Whether values of the kind are truth values or words. -/
def ScalarKind.isWord : ScalarKind → Bool
  | .int | .long | .boolean => true
  | _ => false

namespace Program

open Host (Width onIntegers)

variable {k b : ScalarKind} {op : BinaryOp} {s a : Scalar} {v : Value}

/-- The type of variables of a kind; only truth values and integers have variables. -/
def Ty.ofKind : ScalarKind → Ty
  | .boolean => .bool
  | .byte => .char
  | .char => .uchar
  | .short => .short
  | .int => .int
  | _ => .long

/-! ### Words as numbers -/

theorem ofInt_toInt_int32 (n : Int32) : (Int64.ofInt n.toInt).toInt = n.toInt :=
  Int64.toInt_ofInt_of_le (by have := n.le_toInt; omega) (by have := n.toInt_lt; omega)

@[simp] theorem Val.ty_ofScalar (s : Scalar) : (Val.ofScalar s).ty = .ofKind s.kind := by
  cases s <;> rfl

theorem Val.toInt_ofScalar (s : Scalar) : (Val.ofScalar s).toInt = s.asInt64.toInt := by
  cases s with
  | boolean b => cases b <;> rfl
  | char n =>
    have hlt := n.toNat_lt
    exact (Int64.toInt_ofNat_of_lt (by omega)).symm
  | byte n | short n =>
    have hle := n.le_toInt
    have hlt := n.toInt_lt
    exact (Int64.toInt_ofInt_of_le (n := n.toInt) (by omega) (by omega)).symm
  | int n => exact (ofInt_toInt_int32 n).symm
  | _ => rfl

theorem toInt32_eq_ofInt (n : Int64) : n.toInt32 = Int32.ofInt n.toInt :=
  (Int32.ofInt_int64ToInt n).symm

theorem toInt_bne_zero (n : Int64) : (n.toInt != 0) = (n != 0) := by
  have h : n.toInt = 0 ↔ n = 0 := ⟨fun h => Int64.toInt.inj h, fun h => h ▸ rfl⟩
  rw [bne, bne, Bool.not_inj_iff, Bool.eq_iff_iff, beq_iff_eq, beq_iff_eq, h]

theorem ofKind_integral (hk : k.isIntegral = true) :
    Ty.ofKind k ≠ .bool ∧ (Ty.ofKind k).bits ≤ 64 := by
  cases k <;> cases hk <;> decide

theorem ofInt_toInt_ofInt (hk : k.isIntegral = true) (n : Int) :
    Val.ofInt (.ofKind k) (Int64.ofInt n).toInt = Val.ofInt (.ofKind k) n := by
  obtain ⟨hbool, hbits⟩ := ofKind_integral hk
  have hlong : (Int64.ofInt n).toInt ≡ n [ZMOD 2 ^ 64] := Val.toInt_ofInt_modEq .long n
  exact Val.ofInt_eq_ofInt hbool (hlong.of_dvd (pow_dvd_pow 2 hbits))

/-! ### Operators on sixty-four bits as operators on numbers -/

def bits : Width → Nat
  | .word => 32
  | .long => 64

theorem toNat_smod_of_lt {x : BitVec 64} (h : x.toNat < 64) : (x.smod 64).toNat = x.toNat := by
  have hx : x.msb = false := by
    rw [BitVec.msb_eq_false_iff_two_mul_lt]
    omega
  have h64 : (64 : BitVec 64).msb = false := by decide
  rw [BitVec.smod_eq, hx, h64]
  simp only [BitVec.umod_eq, BitVec.toNat_umod]
  exact Nat.mod_eq_of_lt h

theorem emod_toInt {m : Nat} (hm : m ∣ 2 ^ 64) (x : Int64) :
    x.toInt % m = ((x.toBitVec.toNat % m : Nat) : Int) := by
  have hx : x.toBitVec.toInt ≡ x.toBitVec.toNat [ZMOD (2 ^ 64 : Nat)] := by
    rw [BitVec.toInt_eq_toNat_bmod]
    exact Val.bmod_modEq _ _
  exact hx.of_dvd (Int.natCast_dvd_natCast.2 hm)

theorem toNat_shiftAmount (w : Width) (y : Int64) :
    (w.shiftAmount y).toBitVec.toNat = (y.toInt % bits w).toNat := by
  rw [emod_toInt (by cases w <;> decide), Int.toNat_natCast]
  cases w with
  | word => exact Nat.and_two_pow_sub_one_eq_mod _ 5
  | long => exact Nat.and_two_pow_sub_one_eq_mod _ 6

theorem toNat_shiftAmount_lt (w : Width) (y : Int64) : (w.shiftAmount y).toBitVec.toNat < 64 := by
  rw [toNat_shiftAmount]
  cases w <;> simp only [bits] <;> omega

theorem shl_eq (w : Width) (x y : Int64) :
    x <<< w.shiftAmount y = Int64.ofInt (x.toInt <<< (y.toInt % bits w).toNat) := by
  have hamount := toNat_smod_of_lt (toNat_shiftAmount_lt w y)
  apply Int64.toBitVec.inj
  apply BitVec.eq_of_toInt_eq
  rw [Int64.toBitVec_shiftLeft, Int64.toBitVec_ofInt, BitVec.shiftLeft_eq', BitVec.toInt_shiftLeft,
    BitVec.toInt_ofInt, hamount, toNat_shiftAmount, Int.natCast_shiftLeft, Int.shiftLeft_eq,
    Int.shiftLeft_eq]
  show _ = (x.toBitVec.toInt * _).bmod _
  rw [BitVec.toInt_eq_toNat_bmod, Int.bmod_mul_bmod]

theorem shr_eq (w : Width) (x y : Int64) :
    x >>> w.shiftAmount y = Int64.ofInt (x.toInt >>> (y.toInt % bits w).toNat) := by
  have hamount := toNat_smod_of_lt (toNat_shiftAmount_lt w y)
  have hshift : (x >>> w.shiftAmount y).toInt = x.toInt >>> (y.toInt % bits w).toNat := by
    show (x >>> w.shiftAmount y).toBitVec.toInt = _
    rw [Int64.toBitVec_shiftRight, BitVec.toInt_sshiftRight', hamount, toNat_shiftAmount]
    rfl
  rw [← hshift, Int64.ofInt_toInt]

theorem div_eq (x y : Int64) : x / y = Int64.ofInt (x.toInt.tdiv y.toInt) := by
  apply Int64.toInt.inj
  rw [Int64.toInt_div, Int64.toInt_ofInt]

theorem mod_eq (x y : Int64) : x % y = Int64.ofInt (x.toInt.tmod y.toInt) := by
  rw [← Int64.toInt_mod, Int64.ofInt_toInt]

theorem toInt64_eq_ofInt (v : UInt64) : v.toInt64 = Int64.ofInt v.toNat := by
  rw [Int64.ofInt_eq_ofNat, ← UInt64.toInt64_ofNat', UInt64.ofNat_toNat]

theorem ushr_eq (w : Width) (x y : Int64) :
    w.shiftUnsigned x (w.shiftAmount y)
      = Int64.ofInt ((x.toInt % 2 ^ bits w) >>> (y.toInt % bits w).toNat) := by
  have hamount := toNat_shiftAmount w y
  have hlt : (y.toInt % bits w).toNat < bits w := by cases w <;> simp only [bits] <;> omega
  have hx := emod_toInt (m := 2 ^ bits w) (by cases w <;> decide) x
  rw [Int.natCast_pow] at hx
  rw [← Nat.cast_ofNat, hx]
  generalize (y.toInt % bits w).toNat = n at hamount hlt ⊢
  cases w with
  | word =>
    have hlow (z : Int64) : z.toInt32.toUInt32.toNat = z.toBitVec.toNat % 2 ^ 32 := by
      show (z.toBitVec.signExtend 32).toNat = _
      rw [BitVec.signExtend_eq_setWidth_of_le _ (by decide), BitVec.toNat_setWidth]
    have hn : n % 2 ^ 32 % 32 = n := by
      simp only [bits] at hlt
      omega
    rw [Width.shiftUnsigned, toInt64_eq_ofInt, UInt32.toNat_toUInt64, UInt32.toNat_shiftRight, hlow,
      hlow, hamount, hn]
    rfl
  | long =>
    have hbits (z : Int64) : z.toUInt64.toNat = z.toBitVec.toNat := rfl
    have hn : n % 64 = n := Nat.mod_eq_of_lt hlt
    have hx : x.toBitVec.toNat % 2 ^ bits .long = x.toBitVec.toNat :=
      Nat.mod_eq_of_lt x.toBitVec.isLt
    rw [Width.shiftUnsigned, toInt64_eq_ofInt, UInt64.toNat_shiftRight, hbits, hbits, hamount, hn,
      hx]
    rfl

def Operator.ofBinary : BinaryOp → Operator
  | .add => add
  | .sub => sub
  | .mul => mul
  | .div => div
  | .rem => rem
  | .and => and
  | .or => or
  | .xor => xor
  | .shl => shl
  | .shr | .ushr => shr

/-- What the host computes in sixty-four bits is what a program computes on numbers, wrapped. -/
theorem onInts?_of_onIntegers (hop : op ≠ .ushr) {w : Width} {x y r : Int64}
    (h : onIntegers op w x y = .ok r) :
    ∃ n, (Operator.ofBinary op).onInts? (bits w) x.toInt y.toInt = some n ∧ Int64.ofInt n = r := by
  have hbits : ∀ z : Int64, BitVec.ofInt 64 z.toInt = z.toBitVec := fun z => BitVec.ofInt_toInt
  have hzero (hy : ¬ y = 0) : ¬ y.toInt = 0 := fun h0 => hy (Int64.toInt.inj h0)
  cases op <;> simp only [onIntegers, Except.ok.injEq] at h
  case add | sub | mul => exact ⟨_, rfl, by simp [h]⟩
  case div | rem =>
    split at h
    · cases h
    · next hy => exact ⟨_, if_neg (hzero hy), by simp [← Except.ok.inj h, div_eq, mod_eq]⟩
  case and | or | xor =>
    refine ⟨_, rfl, ?_⟩
    rw [Operator.bitwise, hbits, hbits, ← Int64.ofInt_toInt r, ← h]
    rfl
  case shl => exact ⟨_, rfl, (shl_eq w x y).symm.trans h⟩
  case shr => exact ⟨_, rfl, (shr_eq w x y).symm.trans h⟩
  case ushr => exact absurd rfl hop

/-! ### Kinds and types -/

theorem common_ofKind {a : ScalarKind} (ha : a.isWord = true) (hb : b.isWord = true) :
    (Ty.ofKind a).common (.ofKind b) = .ofKind (a.promote b) := by
  cases a <;> cases ha <;> cases b <;> cases hb <;> decide

theorem eq_int_or_long (hk : k.isWord = true) (hne : k ≠ .boolean) : k = .int ∨ k = .long := by
  cases k <;> simp_all [ScalarKind.isWord]

theorem integral_of_int_or_long (hk : k = .int ∨ k = .long) :
    k.isIntegral = true ∧ k.promote k = k := by
  obtain rfl | rfl := hk <;> exact ⟨rfl, rfl⟩

theorem promote_word {a : ScalarKind} (ha : a.isWord = true) (hb : b.isWord = true) :
    (a.promote b = .int ∨ a.promote b = .long) ∧ (a = .long → a.promote b = .long) ∧
      (b = .long → a.promote b = .long) := by
  cases a <;> cases ha <;> cases b <;> cases hb <;> decide

theorem width_ofKind (hk : k = .int ∨ k = .long) : (Ty.ofKind k).width = bits (.ofKind k) := by
  obtain rfl | rfl := hk <;> rfl

theorem toInt_convert (hs : s.kind.isWord = true) (hk : k = .int ∨ k = .long)
    (hwide : s.kind = .long → k = .long) :
    ((Val.ofScalar s).convert (.ofKind k)).toInt = s.asInt64.toInt := by
  have hlong : ((Val.ofScalar s).convert .long).toInt = s.asInt64.toInt := by
    rw [Val.convert, Val.toInt_ofScalar]
    exact congrArg Int64.toInt (Int64.ofInt_toInt _)
  obtain rfl | rfl := hk
  · rw [Val.convert, Val.toInt_ofScalar]
    cases s with
    | int n =>
      show (Int32.ofInt (Int64.ofInt n.toInt).toInt).toInt = (Int64.ofInt n.toInt).toInt
      rw [ofInt_toInt_int32, Int32.ofInt_toInt]
    | boolean b => cases b <;> rfl
    | long n => cases hwide rfl
    | _ => cases hs
  · exact hlong

theorem ofScalar_cast_long (hk : k = .int ∨ k = .long) (n : Int64) :
    Val.ofScalar ((Scalar.long n).cast k) = .ofInt (.ofKind k) n.toInt := by
  obtain rfl | rfl := hk
  · exact congrArg Val.int (toInt32_eq_ofInt n)
  · exact congrArg Val.long (Int64.ofInt_toInt n).symm

theorem ofScalar_cast_wrap (hk : k = .int ∨ k = .long) (n : Int64) :
    Val.ofScalar ((Scalar.long ((Width.ofKind k).wrap n)).cast k) = .ofInt (.ofKind k) n.toInt := by
  rw [ofScalar_cast_long hk]
  obtain rfl | rfl := hk
  · refine congrArg Val.int ?_
    show Int32.ofInt n.toInt32.toInt64.toInt = _
    rw [Int32.toInt_toInt64, Int32.ofInt_toInt, toInt32_eq_ofInt]
  · rfl

/-! ### Agreement -/

theorem convert_ofScalar (hs : s.kind.isWord = true) (hk : k.isWord = true) :
    (Val.ofScalar s).convert (.ofKind k) = .ofScalar (s.cast k) := by
  rw [Val.convert, Val.toInt_ofScalar]
  cases s with
  | int n =>
    cases k <;> cases hk
    · exact congrArg Val.int
        ((congrArg Int32.ofInt (ofInt_toInt_int32 n)).trans (Int32.ofInt_toInt n))
    · exact congrArg Val.long (Int64.ofInt_toInt _)
    · exact congrArg Val.bool (toInt_bne_zero _)
  | long n =>
    cases k <;> cases hk
    · exact congrArg Val.int (toInt32_eq_ofInt n).symm
    · exact congrArg Val.long (Int64.ofInt_toInt n)
    · exact congrArg Val.bool (toInt_bne_zero n)
  | boolean b => cases k <;> cases hk <;> cases b <;> rfl
  | _ => cases hs

/-- Both sides of a choice are brought to a common type, which loses nothing. -/
theorem convert_common (hs : s.kind.isWord = true) :
    ((Val.ofScalar s).convert ((Ty.ofKind s.kind).common (.ofKind s.kind))).convert
      (.ofKind s.kind) = .ofScalar s := by
  have hpromote : (s.kind.promote s.kind).isWord = true := by
    obtain ⟨h | h, -⟩ := promote_word hs hs <;> rw [h] <;> rfl
  rw [common_ofKind hs hs, convert_ofScalar hs hpromote]
  cases s with
  | int n => exact Val.convert_ty (.int n)
  | long n => exact Val.convert_ty (.long n)
  | boolean b => cases b <;> rfl
  | _ => cases hs

/-- A value counts as true in a program where it does on the host. -/
theorem isTrue_ofScalar (hs : s.kind.isWord = true) : (Val.ofScalar s).isTrue = s.asBool := by
  rw [Val.isTrue, Val.toInt_ofScalar]
  cases s with
  | boolean b => cases b <;> rfl
  | int n => exact toInt_bne_zero _
  | long n => exact toInt_bne_zero n
  | _ => cases hs

/-- The sign that a unary operator is written as, where its result has the kind `k`. -/
def Sign.ofUnary (op : UnaryOp) (k : ScalarKind) : Sign :=
  match op with
  | .neg => neg
  | .not => if k = .boolean then not else complement

theorem unary_agrees {op : UnaryOp} (ha : a.kind.isWord = true)
    (hk : op.valueKind a.kind = .scalar k) :
    ∃ r : Scalar, Host.unary op (.scalar a) = .scalar r ∧ r.kind = k ∧
      ((Sign.ofUnary op k).apply (.ofScalar a)).convert (.ofKind k) = .ofScalar r := by
  have hneg (n : Int64) : Int64.ofInt (-n.toInt) = -n := by rw [Int64.ofInt_neg, Int64.ofInt_toInt]
  have hnot (n : Int64) : Int64.ofInt (-n.toInt - 1) = ~~~n := by
    rw [Int64.ofInt_sub, hneg, Int64.not_eq_neg_add]
    rfl
  -- both operators are a function on numbers that commutes with wrapping
  have hwrap (hint : a.kind = .int ∨ a.kind = .long) (f : Int → Int) {m : Int64}
      (hm : Int64.ofInt (f a.asInt64.toInt) = m) :
      (Val.ofInt (Val.ofScalar a).ty.promoted
        (f ((Val.ofScalar a).convert (Val.ofScalar a).ty.promoted).toInt)).convert (.ofKind a.kind)
        = .ofScalar ((Scalar.long m).cast a.kind) := by
    rw [Val.ty_ofScalar, Ty.promoted, common_ofKind ha ha, (integral_of_int_or_long hint).2,
      toInt_convert ha hint id, ofScalar_cast_long hint, ← hm,
      ofInt_toInt_ofInt (integral_of_int_or_long hint).1]
    exact Val.convert_ofInt _ _
  cases a with
  | boolean b =>
    cases op <;> cases hk
    exact ⟨.boolean !b, rfl, rfl, by cases b <;> rfl⟩
  | int n | long n =>
    cases op <;> cases hk
    · exact ⟨_, rfl, rfl, hwrap (by simp [Scalar.kind]) (fun n => -n) (hneg _)⟩
    · exact ⟨_, rfl, rfl, hwrap (by simp [Scalar.kind]) (fun n => -n - 1) (hnot _)⟩
  | _ => cases ha

theorem apply_of_onInts? {op : Operator} {a b : Val} {n : Int}
    (h : op.onInts? (op.operandType a.ty b.ty).width (a.convert (op.operandType a.ty b.ty)).toInt
      (if op.isShift then b.toInt else (b.convert (op.operandType a.ty b.ty)).toInt) = some n)
    (u : Unknown) : op.apply a b u = some (.ofInt (op.resultType a.ty b.ty) n, u) := by
  simp only [Operator.apply, h]
  rfl

theorem valueKind_word {a : ScalarKind} (ha : a.isWord = true) (hb : b.isWord = true)
    (hk : op.valueKind a b = .scalar k) :
    (op.isBitwise = true ∧ a = .boolean ∧ b = .boolean ∧ k = .boolean) ∨
    ((a = .int ∨ a = .long) ∧ (b = .int ∨ b = .long) ∧
      k = if op.isShift then a else a.promote b) := by
  unfold BinaryOp.valueKind at hk
  split at hk
  · rename_i h
    exact .inl ⟨h.1, h.2.1, h.2.2, (ValueKind.scalar.inj hk).symm⟩
  · split at hk
    · cases hk
    · rename_i hne
      have hne := not_or.1 hne
      have ha' := eq_int_or_long ha hne.1
      have hb' := eq_int_or_long hb hne.2
      refine .inr ⟨ha', hb', ?_⟩
      obtain ⟨hia, hpa⟩ := integral_of_int_or_long ha'
      have hib := (integral_of_int_or_long hb').1
      simp only [hia, hib, hpa, and_self, not_true_eq_false, and_false, if_true, if_false] at hk
      split at hk <;> rename_i hshift
      · rw [if_pos hshift]
        exact (ValueKind.scalar.inj hk).symm
      · rw [if_neg hshift]
        exact (ValueKind.scalar.inj hk).symm

theorem isShift_ofBinary (op : BinaryOp) : (Operator.ofBinary op).isShift = op.isShift := by
  cases op <;> rfl

theorem isComparison_ofBinary (op : BinaryOp) : (Operator.ofBinary op).isComparison = false := by
  cases op <;> rfl

theorem binary_eq_ok {a b : Value} (hk : k = .int ∨ k = .long) (h : Host.binary op k a b = .ok v) :
    ∃ r, onIntegers op (.ofKind k) a.asInt64 b.asInt64 = .ok r ∧
      v = .scalar ((Scalar.long ((Width.ofKind k).wrap r)).cast k) := by
  have hbool : k ≠ .boolean := by obtain rfl | rfl := hk <;> decide
  have hfloat : ¬ k.isFloating = true := by obtain rfl | rfl := hk <;> decide
  simp only [Host.binary, if_neg hbool, if_neg hfloat] at h
  cases hr : onIntegers op (.ofKind k) a.asInt64 b.asInt64 with
  | error e => rw [hr] at h; cases h
  | ok r =>
    rw [hr] at h
    exact ⟨r, rfl, (Except.ok.inj h).symm⟩

/-- The operators but the unsigned shift. Where the host has a result, a program has the same. -/
theorem binary_agrees {b : Scalar} (ha : a.kind.isWord = true) (hb : b.kind.isWord = true)
    (hk : op.valueKind a.kind b.kind = .scalar k) (hop : op ≠ .ushr)
    (h : Host.binary op k (.scalar a) (.scalar b) = .ok v) :
    ∃ r : Scalar, v = .scalar r ∧ r.kind = k ∧ ∃ w,
      (∀ u, (Operator.ofBinary op).apply (.ofScalar a) (.ofScalar b) u = some (w, u)) ∧
      w.convert (.ofKind k) = .ofScalar r := by
  obtain ⟨hbit, hka, hkb, rfl⟩ | ⟨hka, hkb, hkind⟩ := valueKind_word ha hb hk
  · cases a <;> cases hka
    cases b <;> cases hkb
    rename_i x y
    cases op <;> cases hbit <;> cases h
    all_goals exact ⟨_, rfl, rfl, _, fun u => rfl, by cases x <;> cases y <;> rfl⟩
  · obtain ⟨hpromote, hleft, hright⟩ := promote_word ha hb
    have hk' : k = .int ∨ k = .long := by
      rw [hkind]
      split <;> assumption
    have hwide : a.kind = .long → k = .long := by
      intro hl
      rw [hkind]
      split
      · exact hl
      · exact hleft hl
    -- both operands keep their numbers in the type of the result
    have htype : (Operator.ofBinary op).operandType (Val.ofScalar a).ty (Val.ofScalar b).ty
        = .ofKind k := by
      rw [Operator.operandType, isShift_ofBinary, hkind, Val.ty_ofScalar, Val.ty_ofScalar,
        Ty.promoted, common_ofKind ha ha, common_ofKind ha hb]
      split
      · rw [(integral_of_int_or_long hka).2]
      · rfl
    have hamount : (if (Operator.ofBinary op).isShift then (Val.ofScalar b).toInt
        else ((Val.ofScalar b).convert (.ofKind k)).toInt) = b.asInt64.toInt := by
      rw [isShift_ofBinary]
      split
      · exact Val.toInt_ofScalar b
      · rename_i hshift
        refine toInt_convert hb hk' fun hl => ?_
        rw [hkind, if_neg hshift]
        exact hright hl
    obtain ⟨r, hr, rfl⟩ := binary_eq_ok hk' h
    obtain ⟨n, hn, hwrap⟩ := onInts?_of_onIntegers hop hr
    refine ⟨_, rfl, Scalar.kind_cast _ _, .ofInt (.ofKind k) n, fun u => ?_, ?_⟩
    · have hresult : (Operator.ofBinary op).resultType (Val.ofScalar a).ty (Val.ofScalar b).ty
          = .ofKind k := by
        rw [Operator.resultType, isComparison_ofBinary, htype]
        rfl
      rw [← hresult]
      apply apply_of_onInts?
      rw [htype, toInt_convert ha hk' hwide, hamount, width_ofKind hk']
      exact hn
    · rw [ofScalar_cast_wrap hk', ← hwrap, ofInt_toInt_ofInt (integral_of_int_or_long hk').1]
      exact Val.convert_ofInt _ _

/-! ### The unsigned shift -/

/-- The type in which an unsigned shift is computed. -/
def Ty.unsigned (wide : Bool) : Ty := if wide then .ulong else .uint

theorem toInt_ofInt_unsigned (wide : Bool) (n : Int) :
    (Val.ofInt (.unsigned wide) n).toInt = n % 2 ^ (Ty.unsigned wide).bits := by
  cases wide with
  | false =>
    show ((UInt32.ofInt n).toNat : Int) = n % 4294967296
    rw [UInt32.ofInt, UInt32.toNat_ofNat']
    omega
  | true =>
    show ((UInt64.ofInt n).toNat : Int) = n % 18446744073709551616
    rw [UInt64.ofInt, UInt64.toNat_ofNat']
    omega

theorem toInt_ofInt_shiftRight (wide : Bool) (n : Int) (k : Nat) :
    (Val.ofInt (.unsigned wide) ((Val.ofInt (.unsigned wide) n).toInt >>> k)).toInt
      = (Val.ofInt (.unsigned wide) n).toInt >>> k := by
  have hpos (e : Nat) : (0 : Int) < 2 ^ e := Int.pow_pos (by decide)
  have hnonneg := Int.emod_nonneg n (Int.ne_of_gt (hpos (Ty.unsigned wide).bits))
  rw [toInt_ofInt_unsigned, toInt_ofInt_unsigned, Int.shiftRight_eq_div_pow]
  exact Int.emod_eq_of_lt (Int.ediv_nonneg hnonneg (Int.natCast_nonneg _))
    (Int.lt_of_le_of_lt (Int.ediv_le_self _ hnonneg) (Int.emod_lt_of_pos n (hpos _)))

theorem promoted_unsigned (wide : Bool) : (Ty.unsigned wide).promoted = .unsigned wide := by
  cases wide <;> rfl

theorem ushr_agrees {b : Scalar} (ha : a.kind.isWord = true) (hb : b.kind.isWord = true)
    (hk : BinaryOp.ushr.valueKind a.kind b.kind = .scalar k)
    (h : Host.binary .ushr k (.scalar a) (.scalar b) = .ok v) :
    ∃ r : Scalar, v = .scalar r ∧ r.kind = k ∧ ∃ w,
      (∀ u, Operator.shr.apply ((Val.ofScalar a).convert (.unsigned (a.kind = .long)))
        (.ofScalar b) u = some (w, u)) ∧
      w.convert (.ofKind k) = .ofScalar r := by
  obtain ⟨hbit, -⟩ | ⟨hka, -, hkind⟩ := valueKind_word ha hb hk
  · cases hbit
  have hkind : k = a.kind := hkind
  subst hkind
  obtain ⟨r, hr, rfl⟩ := binary_eq_ok hka h
  have hr := Except.ok.inj hr
  have hbits : (Ty.unsigned (a.kind = .long)).bits = bits (.ofKind a.kind) := by
    obtain h' | h' := hka <;> rw [h'] <;> rfl
  have hwidth : (Ty.unsigned (a.kind = .long)).width = bits (.ofKind a.kind) := by
    obtain h' | h' := hka <;> rw [h'] <;> rfl
  rw [ushr_eq, ← hbits, ← toInt_ofInt_unsigned, hbits] at hr
  refine ⟨_, rfl, Scalar.kind_cast _ _, _, fun u => apply_of_onInts? (n :=
    (Val.ofInt (.unsigned (a.kind = .long)) a.asInt64.toInt).toInt
      >>> (b.asInt64.toInt % bits (.ofKind a.kind)).toNat) ?_ u, ?_⟩
  · show some ((Val.convert (Ty.promoted _) (Val.ofInt (.unsigned (a.kind = .long)) _)).toInt
      >>> ((Val.ofScalar b).toInt % (Ty.promoted _).width).toNat) = _
    rw [Val.ty_convert, promoted_unsigned, hwidth, Val.convert_ofInt, Val.toInt_ofScalar,
      Val.toInt_ofScalar]
  · rw [ofScalar_cast_wrap hka, ← hr, ofInt_toInt_ofInt (integral_of_int_or_long hka).1]
    show Val.ofInt _ (Val.ofInt (Ty.promoted _) _).toInt = _
    rw [Val.ty_convert, promoted_unsigned, toInt_ofInt_shiftRight]
    rfl

/-! ### Comparisons -/

def Operator.ofCompare : CompareOp → Operator
  | .eq => equal
  | .ne => unequal
  | .lt => less
  | .le => lessEqual
  | .gt => greater
  | .ge => greaterEqual

theorem order?_word {b : Scalar} (ha : a.kind.isWord = true) (hb : b.kind.isWord = true) :
    Host.order? (.scalar a) (.scalar b) = some (compare a.asInt64.toInt b.asInt64.toInt) := by
  have hfloat : ∀ s : Scalar, s.kind.isWord = true → Host.isFloating (.scalar s) = false := by
    intro s hs
    cases s with
    | float | double => cases hs
    | _ => rfl
  rw [Host.order?, hfloat a ha, hfloat b hb]
  rfl

theorem onInts?_ofCompare (op : CompareOp) (width : Nat) (x y : Int) :
    (Operator.ofCompare op).onInts? width x y
      = some (Operator.truth (Host.holds op (some (compare x y)))) := by
  have hcompare : compare x y = if x < y then .lt else if x = y then .eq else .gt := rfl
  rw [hcompare]
  cases op <;> simp only [Operator.ofCompare, Operator.onInts?, Host.holds] <;> congr 2 <;> grind

theorem isShift_ofCompare (op : CompareOp) : (Operator.ofCompare op).isShift = false := by
  cases op <;> rfl

theorem isComparison_ofCompare (op : CompareOp) : (Operator.ofCompare op).isComparison = true := by
  cases op <;> rfl

theorem compare_agrees {op : CompareOp} {a b : Scalar} (ha : a.kind.isWord = true)
    (hb : b.kind.isWord = true) (u : Unknown) :
    (Operator.ofCompare op).apply (.ofScalar a) (.ofScalar b) u
      = some (.ofInt .int (Operator.truth (Host.satisfies op (.scalar a) (.scalar b))), u) := by
  have htype : (Operator.ofCompare op).operandType (Val.ofScalar a).ty (Val.ofScalar b).ty
      = .ofKind (a.kind.promote b.kind) := by
    rw [Operator.operandType, isShift_ofCompare, Val.ty_ofScalar, Val.ty_ofScalar,
      ← common_ofKind ha hb]
    rfl
  have hresult : (Operator.ofCompare op).resultType (Val.ofScalar a).ty (Val.ofScalar b).ty
      = .int := by
    rw [Operator.resultType, isComparison_ofCompare]
    rfl
  obtain ⟨hpromote, hleft, hright⟩ := promote_word ha hb
  rw [← hresult]
  apply apply_of_onInts?
  rw [htype, isShift_ofCompare, toInt_convert ha hpromote hleft, onInts?_ofCompare, Host.satisfies,
    order?_word ha hb, if_neg Bool.false_ne_true, toInt_convert hb hpromote hright]

/-! ### No operator is stuck -/

theorem apply_isSome (op : Operator) (a b : Val) (u : Unknown) :
    ∃ w u', op.apply a b u = some (w, u') ∧ w.ty = op.resultType a.ty b.ty := by
  simp only [Operator.apply]
  generalize (if op.isShift = true then b.toInt
    else (b.convert (op.operandType a.ty b.ty)).toInt) = y
  cases hn : op.onInts? (op.operandType a.ty b.ty).width
      (a.convert (op.operandType a.ty b.ty)).toInt y with
  | some n => exact ⟨_, _, rfl, Val.ty_ofInt _ _⟩
  | none =>
    refine ⟨_, _, rfl, ?_⟩
    rw [Val.ty_ofInt, Operator.resultType]
    cases op with
    | less | greater | lessEqual | greaterEqual | equal | unequal => cases hn
    | _ => rfl

end Program

end Kernelwright
