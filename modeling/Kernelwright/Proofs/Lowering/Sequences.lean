import Kernelwright.PortableArray.Sequence
import Kernelwright.Proofs.Code.Execution
import Kernelwright.Proofs.Code.Progressions
import Kernelwright.Proofs.Request.RoundTrip

/-!
# Sequences decoded on the host and in a kernel

An element of a sequence is computed by the host, which divides by the bound or takes the remainder,
and by the text of a kernel, which shifts and masks where the bound is a power of two. Both compute
the same integer, except where the text shifts by more than the width of an index.
-/

namespace Kernelwright

variable {s t : Scalar} {vars : Vars} {i : Int32} {n : Nat}

/-! ### The host -/

/-- The element of a progression at an index, as the host computes it. -/
def Progression.element (p : Progression) (i : Nat) : Value :=
  PortableArray.progressionAt p.start p.stride
    (PortableArray.progressionIndex p.rule p.bound.asInt64.toInt.toNat i)

namespace PortableArray

mutual

theorem decode?_of_progressions (i : Nat) : {a : PortableArray} → {ps : List Progression} →
    progressions? a = some ps →
      ∃ v, decode? i a = some v ∧ v.leaves = ps.flatMap fun p => (p.element i).leaves
  | flat h s, ps, hps => by
    rw [progressions?] at hps
    split at hps
    · next hmark =>
      obtain ⟨p, hp, rfl⟩ := Option.map_eq_some_iff.1 hps
      obtain ⟨start, hstart, hp⟩ := Option.bind_eq_some_iff.1 hp
      obtain ⟨stride, hstride, hp⟩ := Option.bind_eq_some_iff.1 hp
      obtain ⟨bound, hbound, hp⟩ := Option.bind_eq_some_iff.1 hp
      cases hp
      rw [decode?, if_pos hmark, decodeFlat?, hstart, hstride, hbound]
      exact ⟨_, rfl, by simp [Progression.element]⟩
    · cases hps
  | fields h cs, ps, hps => by
    rw [progressions?] at hps
    split at hps
    · next hmark =>
      obtain ⟨vs, hvs, hleaves⟩ := decodeAll?_of_progressions i hps
      rw [decode?, if_pos hmark, hvs]
      exact ⟨.tuple vs, rfl, hleaves⟩
    · cases hps

theorem decodeAll?_of_progressions (i : Nat) : {cs : List PortableArray} → {ps : List Progression} →
    progressionsAll? cs = some ps →
      ∃ vs, decodeAll? i cs = some vs ∧
        Value.leavesAll vs = ps.flatMap fun p => (p.element i).leaves
  | [], ps, hps => by
    cases hps
    exact ⟨[], rfl, rfl⟩
  | c :: cs, ps, hps => by
    rw [progressionsAll?] at hps
    split at hps
    · next hc hcs =>
      cases hps
      obtain ⟨v, hv, hleaves⟩ := decode?_of_progressions i hc
      obtain ⟨vs, hvs, hleavesAll⟩ := decodeAll?_of_progressions i hcs
      rw [decodeAll?, hv, hvs]
      exact ⟨v :: vs, rfl, by rw [Value.leavesAll, hleaves, hleavesAll, List.flatMap_append]⟩
    · cases hps

end

theorem progressionAt_integral (hs : s.kind.isIntegral = true) (m : Nat) :
    progressionAt (.scalar s) (.scalar t) m = .scalar ((Scalar.long
      (Int64.ofInt (s.asInt64.toInt + t.asInt64.toInt * m))).cast s.kind) := by
  have hfloat : s.kind.isFloating = false := by
    generalize s.kind = k at hs
    cases k <;> cases hs <;> rfl
  have hsum : Int64.ofInt (s.asInt64.toInt + t.asInt64.toInt * m)
      = s.asInt64 + t.asInt64 * Int64.ofNat m := by
    rw [Int64.ofInt_add, Int64.ofInt_mul, Int64.ofInt_toInt, Int64.ofInt_toInt]
    rfl
  rw [hsum]
  show (if s.kind.isFloating then _ else _) = _
  rw [hfloat]
  rfl

end PortableArray

namespace Program

variable {e : Expr}

theorem ofScalar_cast_integral {k : ScalarKind} (hk : k.isIntegral = true) (n : Int) :
    Val.ofScalar ((Scalar.long (.ofInt n)).cast k) = .ofInt (.ofKind k) n := by
  rw [← ofInt_toInt_ofInt hk]
  generalize Int64.ofInt n = m
  cases k with
  | byte => exact congrArg Val.char (Int8.ofInt_int64ToInt m).symm
  | char => rfl
  | short => exact congrArg Val.short (Int16.ofInt_int64ToInt m).symm
  | int => exact congrArg Val.int (Int32.ofInt_int64ToInt m).symm
  | long => exact congrArg Val.long (Int64.ofInt_toInt m).symm
  | float | double | boolean => cases hk

/-! ### The value of a progression in a program -/

/-- A sum of an integer and a multiple of another is known in the kind of the first. -/
theorem eval_progression (hs : s.kind.isIntegral = true) (ht : t.kind = s.kind)
    (he : ∀ u, e.eval vars u = some (.int i, u)) :
    ∃ v, (∀ u, (Expr.binary .add (ofInteger s) (.binary .mul (ofInteger t) e)).eval vars u
        = some (v, u)) ∧
      v.convert (.ofKind s.kind)
        = .ofInt (.ofKind s.kind) (s.asInt64.toInt + t.asInt64.toInt * i.toInt) := by
  obtain ⟨a, ha, habits, hanumber⟩ := eval_ofInteger hs
  obtain ⟨b, hb, hbbits, hbnumber⟩ := eval_ofInteger (s := t) (ht ▸ hs)
  rw [ht] at hbbits hbnumber
  have hproduct : (Ty.ofKind s.kind).bits ≤ (b.ty.common (Val.int i).ty).bits :=
    hbbits.trans (Ty.bits_le_common_left _ _)
  obtain ⟨c, hc, -, hcnumber⟩ := Operator.isModular_mul.apply (b := .int i) hproduct hbnumber
    (Int.ModEq.refl i.toInt)
  have hsum : (Ty.ofKind s.kind).bits ≤ (a.ty.common c.ty).bits :=
    habits.trans (Ty.bits_le_common_left _ _)
  obtain ⟨v, hv, -, hvnumber⟩ := Operator.isModular_add.apply hsum hanumber hcnumber
  refine ⟨v, fun u => ?_, Val.convert_eq_ofInt (ofKind_integral hs).1 hvnumber⟩
  rw [Expr.eval_binary (ha vars u) ((Expr.eval_binary (hb vars u) (he u)).trans (hc u)), hv u]

theorem toInt_operands (op : Operator) (i : Int32) (hn : n < 9223372036854775808) :
    ((Val.int i).convert (op.operandType .int (numeral n false).ty)).toInt = i.toInt ∧
      (if op.isShift then (numeral n false).toInt
        else ((numeral n false).convert (op.operandType .int (numeral n false).ty)).toInt) = n := by
  have hnumber : (numeral n false).toInt = n := toInt_numeral (by omega) false
  have hcommon : Ty.int.common (numeral n false).ty = (numeral n false).ty := by
    unfold numeral
    split
    · rfl
    · rfl
  have hint : ((Val.int i).convert (numeral n false).ty).toInt = i.toInt := by
    unfold numeral
    split
    · exact congrArg Val.toInt (Val.convert_ty (.int i))
    · exact ofInt_toInt_int32 i
  unfold Operator.operandType
  cases op.isShift with
  | true => exact ⟨congrArg Val.toInt (Val.convert_ty (.int i)), hnumber⟩
  | false =>
    simp only [Bool.false_eq_true, if_false, hcommon, Val.convert_ty]
    exact ⟨hint, hnumber⟩

theorem eval_wordOperation {op : Operator} {r : Int} (hop : op.isComparison = false)
    (hn : n < 9223372036854775808)
    (hr : ∀ width, (op.isShift = true → width = 32) → op.onInts? width i.toInt n = some r)
    (he : ∀ u, e.eval vars u = some (.int i, u)) :
    ∃ v, (∀ u, (Expr.binary op e (.literal (numeral n false))).eval vars u = some (v, u)) ∧
      v.convert .int = .ofInt .int r := by
  obtain ⟨hleft, hright⟩ := toInt_operands op i hn
  have hresult : op.resultType .int (numeral n false).ty
      = op.operandType .int (numeral n false).ty := by
    rw [Operator.resultType, hop]
    rfl
  have hbits : 32 ≤ (op.operandType .int (numeral n false).ty).bits := by
    unfold Operator.operandType
    split
    · exact le_refl 32
    · exact Ty.word_le_common _ _
  refine ⟨.ofInt (op.operandType .int (numeral n false).ty) r, fun u => ?_, ?_⟩
  · rw [Expr.eval_binary (he u) rfl, ← hresult]
    apply apply_of_onInts?
    show op.onInts? _ ((Val.int i).convert (op.operandType .int (numeral n false).ty)).toInt _ = _
    rw [hleft]
    refine Eq.trans (congrArg _ hright) (hr _ fun hshift => ?_)
    show (op.operandType .int (numeral n false).ty).width = 32
    rw [Operator.operandType, hshift]
    rfl
  · exact Val.convert_eq_ofInt (by decide)
      ((Val.toInt_ofInt_modEq _ r).of_dvd (pow_dvd_pow 2 hbits))

end Program

namespace Lowering

open Code
open Program (Vars Val Operator numeral)

variable {p : Progression} {rule : IndexRule} {m field : Nat} {e : Program.Expr}
variable {layout : SequenceLayout} {x : Name}

theorem indexRule?_eq_some (h : indexRule? p = some rule) :
    ∃ bound : Nat, p.bound.asInt64.toInt = bound ∧ 0 < bound ∧
      ((p.rule = .divide ∧ ∃ k, bound = 2 ^ k ∧ rule = .shift k) ∨
       (p.rule = .divide ∧ rule = .divide bound) ∨
       (p.rule = .modulo ∧ ∃ k, bound = 2 ^ k ∧ rule = .mask (bound - 1 : Nat)) ∨
       (p.rule = .modulo ∧ rule = .modulo bound)) := by
  unfold indexRule? at h
  simp only at h
  split at h
  · cases h
  · rename_i hpos
    obtain ⟨bound, hbound⟩ := Int.eq_ofNat_of_zero_le (not_le.1 hpos).le
    rw [hbound] at h hpos
    refine ⟨bound, hbound, by omega, ?_⟩
    simp only [Int.toNat_natCast, Nat.pow_eq] at h
    split at h
    · cases h
    · next hrule =>
      cases h
      split
      · next hpower => exact .inl ⟨hrule, _, hpower, rfl⟩
      · exact .inr (.inl ⟨hrule, rfl⟩)
    · next hrule =>
      cases h
      split
      · next hpower =>
        refine .inr (.inr (.inl ⟨hrule, _, hpower, ?_⟩))
        rw [Int.ofNat_sub (by omega)]
        rfl
      · exact .inr (.inr (.inr ⟨hrule, rfl⟩))

def kernelIndex (p : Progression) (i : Nat) : Nat := (indexRule? p).elim i (·.index i)

/-- A kernel makes the index of the host, but for shifts by a word or more. -/
theorem kernelIndex_eq (h : ∀ k, indexRule? p = some (.shift k) → k < 32) (i : Nat) :
    kernelIndex p i
      = PortableArray.progressionIndex p.rule p.bound.asInt64.toInt.toNat i := by
  unfold kernelIndex
  cases hrule : indexRule? p with
  | none =>
    -- either the bound is not positive or the rule is linear
    unfold indexRule? at hrule
    simp only at hrule
    split at hrule
    · rename_i hle
      have hzero : p.bound.asInt64.toInt.toNat = 0 := by omega
      rw [hzero]
      cases p.rule <;> rfl
    · cases hlinear : p.rule with
      | linear => rfl
      | divide | modulo => rw [hlinear] at hrule; cases hrule
  | some rule =>
    obtain ⟨bound, hbound, hpos, hcases⟩ := indexRule?_eq_some hrule
    have hne : bound ≠ 0 := by omega
    rw [hbound, Int.toNat_natCast]
    obtain ⟨hdecode, k, hpower, rfl⟩ | ⟨hdecode, rfl⟩ | ⟨hdecode, k, hpower,
        rfl⟩ | ⟨hdecode, rfl⟩ :=
      hcases
    · show i >>> (k % 32) = _
      rw [hdecode, PortableArray.progressionIndex, if_neg hne, Nat.mod_eq_of_lt (h k hrule),
        Nat.shiftRight_eq_div_pow, hpower]
    · rw [hdecode, PortableArray.progressionIndex, if_neg hne]
      rfl
    · show i &&& ((bound - 1 : Nat) : Int).toNat = _
      rw [hdecode, PortableArray.progressionIndex, if_neg hne, Int.toNat_natCast, hpower,
        Nat.and_two_pow_sub_one_eq_mod]
    · rw [hdecode, PortableArray.progressionIndex, if_neg hne]
      rfl

theorem bitwise_and_natCast (hm : m < 9223372036854775808) (hn : n < 9223372036854775808) :
    Operator.bitwise (· &&& ·) m n = (m &&& n : Nat) := by
  have hle : m &&& n ≤ m := Nat.and_le_left
  rw [Operator.bitwise, BitVec.toInt_eq_toNat_cond, BitVec.toNat_and]
  have htoNat : ∀ k : Nat, k < 9223372036854775808 → (BitVec.ofInt 64 (k : Int)).toNat = k := by
    intro k hk
    rw [BitVec.toNat_ofInt]
    omega
  rw [htoNat m hm, htoNat n hn, if_pos (by omega)]

theorem amount_of_indexRule? (h : indexRule? p = some rule) :
    0 ≤ rule.amount ∧ rule.amount.natAbs < 9223372036854775808 := by
  obtain ⟨bound, hbound, hpos, hcases⟩ := indexRule?_eq_some h
  have hlt := p.bound.asInt64.toInt_lt
  rw [hbound] at hlt
  obtain ⟨-, k, hpower, rfl⟩ | ⟨-, rfl⟩ | ⟨-, k, -, rfl⟩ | ⟨-, rfl⟩ := hcases
  · have hk : k < 2 ^ k := Nat.lt_two_pow_self
    constructor <;> simp only [IndexRule.amount] <;> omega
  all_goals constructor <;> simp only [IndexRule.amount] <;> omega

theorem onInts?_of_indexRule? (h : indexRule? p = some rule) (hm : m < 2147483648) (width : Nat)
    (hwidth : rule.operator.isShift = true → width = 32) :
    rule.operator.onInts? width m rule.amount.natAbs = some (rule.index m : Int) := by
  obtain ⟨bound, hbound, hpos, hcases⟩ := indexRule?_eq_some h
  have hlt := p.bound.asInt64.toInt_lt
  have hne : (bound : Int) ≠ 0 := by omega
  rw [hbound] at hlt
  obtain ⟨-, k, -, rfl⟩ | ⟨-, rfl⟩ | ⟨-, k, -, rfl⟩ | ⟨-, rfl⟩ := hcases
  · rw [hwidth rfl]
    show some ((m : Int) >>> ((k : Int) % (32 : Nat)).toNat) = _
    rw [← Int.natCast_emod, Int.toNat_natCast]
    rfl
  · show (if (bound : Int) = 0 then none else some ((m : Int).tdiv bound)) = _
    rw [if_neg hne, ← Int.ofNat_tdiv]
    rfl
  · show some (Operator.bitwise (· &&& ·) m (bound - 1 : Nat)) = _
    rw [bitwise_and_natCast (by omega) (by omega)]
    rfl
  · show (if (bound : Int) = 0 then none else some ((m : Int).tmod bound)) = _
    rw [if_neg hne, ← Int.ofNat_tmod]
    rfl

theorem eval_indexRule (h : indexRule? p = some rule) (hi : 0 ≤ i.toInt)
    (he : ∀ u, e.eval vars u = some (.int i, u)) :
    ∃ v, (∀ u, (Program.Expr.binary rule.operator e
        (.literal (numeral rule.amount.natAbs false))).eval vars u = some (v, u)) ∧
      v.convert .int = .ofInt .int (rule.index i.toInt.toNat) := by
  have hlt := i.toInt_lt
  have hnat : (i.toInt.toNat : Int) = i.toInt := Int.toNat_of_nonneg hi
  have hop : rule.operator.isComparison = false := by cases rule <;> rfl
  refine Program.eval_wordOperation hop (amount_of_indexRule? h).2 (fun width hwidth => ?_) he
  rw [← hnat]
  exact onInts?_of_indexRule? h (by omega) width hwidth

theorem index_le (rule : IndexRule) (m : Nat) : rule.index m ≤ m := by
  cases rule with
  | shift k => exact Nat.shiftRight_le m _
  | divide b => exact Nat.div_le_self m _
  | mask b => exact Nat.and_le_left
  | modulo b => exact Nat.mod_le m _

/-! ### The text of a progression -/

/-- The declarations of an element of a progression: of its index, where a rule makes one, and of
the element. -/
def declarations (p : Progression) (s t : Scalar) (x m name : Name) : List Stmt :=
  match indexRule? p with
  | some rule =>
    [.declare (.scalar .int) m (.progressionIndex rule x) .none,
      .declare (.scalar s.kind) name (.progression (.ofScalar s) (.ofScalar t) m) .none]
  | none =>
    [.declare (.scalar s.kind) name (.linearProgression (.ofScalar s) (.ofScalar t) x) .none]

/-- Computing an element in place emits its declarations, and takes a name for each of them. -/
theorem lowerProgression_eq (hp : layout.fields[field]? = some p) (hs : p.start = .scalar s)
    (ht : p.stride = .scalar t) (id : NodeId) (x : Name) (progress : Progress) :
    lowerProgression layout id field x progress
      = .ok (.fresh .field progress.symbols.counter, { progress with
        symbols := { progress.symbols with
          counter := progress.symbols.counter + if (indexRule? p).isSome then 2 else 1 }
        block := (declarations p s (t.cast s.kind) x (.fresh .thread (progress.symbols.counter + 1))
          (.fresh .field progress.symbols.counter)).reverse ++ progress.block }) := by
  have hkind : p.start.kind? = some s.kind := by rw [hs]; rfl
  have hstart : Literal.ofValue? p.start = some (.ofScalar s) := by rw [hs]; rfl
  have hstride : Literal.ofValue? (p.stride.cast s.kind) = some (.ofScalar (t.cast s.kind)) := by
    rw [ht]
    rfl
  unfold lowerProgression declarations
  simp only [hp, hkind, hstart, hstride]
  cases indexRule? p with
  | none => rfl
  | some rule => rfl

/-- The declarations of an element are read back from their text, and declare the element at the
index that the kernel makes. -/
theorem exec_declarations (hs : s.kind.isIntegral = true) (ht : t.kind = s.kind) (hx : x.Reads e)
    (hi : 0 ≤ i.toInt) (he : ∀ u, e.eval vars u = some (.int i, u)) (n m : Nat) :
    ∃ program vars', Program.readBlock (Stmt.bareText
        (declarations p s t x (.fresh .thread m) (.fresh .field n))) = some program ∧
      (∀ u, Program.execAll vars program u = some (.running vars', u)) ∧
      vars'.lookup (Name.fresh .field n).text = some (.ofInt (.ofKind s.kind)
        (s.asInt64.toInt + t.asInt64.toInt * kernelIndex p i.toInt.toNat)) := by
  have hlt := i.toInt_lt
  have ht' : t.kind.isIntegral = true := ht ▸ hs
  have hname : (Name.fresh .field n).Reads (.var (Name.fresh .field n).text) := .fresh _ _
  have hindex : (Name.fresh .thread m).Reads (.var (Name.fresh .thread m).text) := .fresh _ _
  unfold declarations kernelIndex
  cases hrule : indexRule? p with
  | none =>
    obtain ⟨v, hv, hvalue⟩ := Program.eval_progression hs ht he
    have hreads := Stmt.BareReads.declare hs hname (bareReads_progression hs ht' hx
      (fun _ _ => rfl) (.inr ⟨rfl, rfl⟩)) .nil
    refine ⟨_, _, hreads.readBlock, fun u => Program.execAll_declare (hv u) [], ?_⟩
    rw [List.lookup_cons_self, hvalue, Option.elim_none, Int.toNat_of_nonneg hi]
  | some rule =>
    obtain ⟨hnonneg, hfits⟩ := amount_of_indexRule? hrule
    obtain ⟨w, hw, hword⟩ := eval_indexRule hrule hi he
    -- the index of the progression is a word again, and not negative
    have hle := index_le rule i.toInt.toNat
    have hexact : (Int32.ofInt (rule.index i.toInt.toNat)).toInt = rule.index i.toInt.toNat :=
      Int32.toInt_ofInt_of_le (by omega) (by omega)
    have hvar : ∀ u, (Program.Expr.var (Name.fresh .thread m).text).eval
        (((Name.fresh .thread m).text, w.convert .int) :: vars) u
          = some (.int (.ofInt (rule.index i.toInt.toNat)), u) := by
      intro u
      rw [Program.Expr.eval, List.lookup_cons_self, hword]
      rfl
    obtain ⟨v, hv, hvalue⟩ := Program.eval_progression hs ht hvar
    have hreads := Stmt.BareReads.declare (k := .int) rfl hindex
      (bareReads_progressionIndex hx hnonneg (by omega))
      (.declare hs hname (bareReads_progression hs ht' hindex (fun _ _ => rfl)
        (.inl ⟨rfl, rfl⟩)) .nil)
    refine ⟨_, _, hreads.readBlock, fun u => (Program.execAll_declare (hw u) _).trans
      (Program.execAll_declare (hv u) []), ?_⟩
    rw [List.lookup_cons_self, hvalue, hexact]
    rfl

/-! ### Agreement -/

theorem two_pow_cast (k : Nat) : (2 ^ k : Int) = (2 ^ k : Nat) := by
  rw [Int.natCast_pow]
  rfl

/-- The rule of a bound that is a power of two, where indices are divided by it, is a shift. -/
theorem indexRule?_eq_shift {k : Nat} :
    indexRule? p = some (.shift k) ↔ p.rule = .divide ∧ p.bound.asInt64.toInt = 2 ^ k := by
  constructor
  · intro h
    obtain ⟨bound, hbound, -, hcases⟩ := indexRule?_eq_some h
    obtain ⟨hrule, j, hpower, hshift⟩ | ⟨-, hshift⟩ | ⟨-, j, -, hshift⟩ | ⟨-, hshift⟩ := hcases
    · cases hshift
      exact ⟨hrule, by rw [hbound, hpower, Int.natCast_pow]; rfl⟩
    all_goals cases hshift
  · rintro ⟨hrule, hbound⟩
    have hpos := Nat.two_pow_pos k
    unfold indexRule?
    rw [hbound, two_pow_cast]
    simp only [hrule, if_neg (show ¬ ((2 ^ k : Nat) : Int) ≤ 0 by omega), Int.toNat_natCast,
      Nat.pow_eq, Nat.log2_two_pow, if_true]

/-- All slots of a progression are integers of one kind. -/
def IsIntegral (p : Progression) : Prop :=
  ∃ kind : ScalarKind, kind.isIntegral = true ∧ ∀ v ∈ p.slots, v.kind? = some kind

theorem IsIntegral.scalars (h : IsIntegral p) :
    ∃ s t : Scalar, p.start = .scalar s ∧ p.stride = .scalar t ∧ s.kind.isIntegral = true ∧
      t.kind = s.kind := by
  obtain ⟨kind, hkind, hslots⟩ := h
  simp only [Progression.slots, List.forall_mem_cons, List.not_mem_nil] at hslots
  obtain ⟨hstart, hstride, -⟩ := hslots
  cases hs : p.start with
  | tuple vs => rw [hs] at hstart; cases hstart
  | scalar s =>
  cases ht : p.stride with
  | tuple vs => rw [ht] at hstride; cases hstride
  | scalar t =>
    rw [hs] at hstart
    rw [ht] at hstride
    cases Option.some.inj hstart
    exact ⟨s, t, rfl, rfl, hkind, Option.some.inj hstride⟩

theorem IsIntegral.leaves (h : IsIntegral p) (i : Nat) : ∃ s, p.element i = .scalar s := by
  obtain ⟨s, t, hs, ht, hkind, -⟩ := h.scalars
  rw [Progression.element, hs, ht, PortableArray.progressionAt_integral hkind]
  exact ⟨_, rfl⟩

theorem decode?_leaf {a : PortableArray} (hlayout : a.sequenceLayout? = some layout)
    (hkinds : ∀ p ∈ layout.fields, IsIntegral p) (hp : layout.fields[field]? = some p) (i : Nat) :
    ∃ v s, a.decode? i = some v ∧ v.leaves[field]? = some s ∧ p.element i = .scalar s := by
  have hps : a.progressions? = some layout.fields := by
    rw [PortableArray.sequenceLayout?] at hlayout
    obtain ⟨ps, hps, rfl⟩ := Option.map_eq_some_iff.1 hlayout
    exact hps
  obtain ⟨v, hv, hleaves⟩ := PortableArray.decode?_of_progressions i hps
  obtain ⟨s, hs⟩ := (hkinds p (List.mem_of_getElem? hp)).leaves i
  refine ⟨v, s, hv, ?_, hs⟩
  have hsingle : layout.fields.flatMap (fun p => (p.element i).leaves)
      = layout.fields.map fun p => (p.element i).scalar?.getD (.int 0) := by
    rw [List.map_eq_flatMap, List.flatMap_def, List.flatMap_def]
    refine congrArg List.flatten (List.map_congr_left fun q hq => ?_)
    obtain ⟨r, hr⟩ := (hkinds q hq).leaves i
    rw [hr]
    rfl
  rw [hleaves, hsingle, List.getElem?_map, hp, Option.map_some, hs]
  rfl

/-- The text that decodes a field declares a name, which holds `r` once the text has run. -/
def DecodesTo (layout : SequenceLayout) (id : NodeId) (field : Nat) (x : Name) (progress : Progress)
    (vars : Vars) (r : Scalar) : Prop :=
  ∃ name progress' ss program vars',
    lowerProgression layout id field x progress = .ok (name, progress') ∧
    progress'.block = ss.reverse ++ progress.block ∧
    Program.readBlock (Stmt.bareText ss) = some program ∧
    (∀ u, Program.execAll vars program u = some (.running vars', u)) ∧
    vars'.lookup name.text = some (.ofScalar r)

theorem lowerProgression_computes (hp : layout.fields[field]? = some p) (hkind : IsIntegral p)
    (hx : x.Reads e) (hi : 0 ≤ i.toInt) (he : ∀ u, e.eval vars u = some (.int i, u)) (id : NodeId)
    (progress : Progress) :
    ∃ r, DecodesTo layout id field x progress vars r ∧
      .scalar r = PortableArray.progressionAt p.start p.stride (kernelIndex p i.toInt.toNat) := by
  obtain ⟨s, t, hs, ht, hintegral, hsame⟩ := hkind.scalars
  have hlower := lowerProgression_eq hp hs ht id x progress
  rw [← hsame, Scalar.cast_kind] at hlower
  obtain ⟨program, vars', hread, hexec, hvalue⟩ :=
    exec_declarations (p := p) hintegral hsame hx hi he
    progress.symbols.counter (progress.symbols.counter + 1)
  rw [← Program.ofScalar_cast_integral hintegral] at hvalue
  refine ⟨_, ⟨_, _, _, program, vars', hlower, rfl, hread, hexec, hvalue⟩, ?_⟩
  rw [hs, ht, PortableArray.progressionAt_integral hintegral]

/-- Host and kernel decode a sequence of integers alike, unless indices are divided by a power of
two above all words: then the kernel shifts by what is left of the exponent modulo the width of a
word, where the host's quotient is zero. -/
theorem kernel_decodes_sequence {a : PortableArray} {layout : SequenceLayout}
    (hlayout : a.sequenceLayout? = some layout) (hkinds : ∀ p ∈ layout.fields, IsIntegral p)
    {field : Nat} {p : Progression} (hp : layout.fields[field]? = some p) {x : Name}
    {e : Program.Expr} (hx : x.Reads e) {vars : Vars} {i : Int32} (hi : 0 ≤ i.toInt)
    (he : ∀ u, e.eval vars u = some (.int i, u)) (id : NodeId) (progress : Progress) :
    ∃ v leaf, a.decode? i.toInt.toNat = some v ∧ v.leaves[field]? = some leaf ∧
    ∃ r, DecodesTo layout id field x progress vars r ∧
      ((∀ k, p.rule = .divide → p.bound.asInt64.toInt = 2 ^ k → k < 32) → r = leaf) ∧
      (∀ k, p.rule = .divide → p.bound.asInt64.toInt = 2 ^ k → 32 ≤ k →
        .scalar leaf = PortableArray.progressionAt p.start p.stride 0 ∧
        .scalar r = PortableArray.progressionAt p.start p.stride (i.toInt.toNat >>> (k - 32))) := by
  obtain ⟨v, leaf, hv, hleaf, helement⟩ := decode?_leaf hlayout hkinds hp i.toInt.toNat
  obtain ⟨r, hdecodes, hr⟩ :=
    lowerProgression_computes hp (hkinds p (List.mem_of_getElem? hp)) hx hi he id progress
  refine ⟨v, leaf, hv, hleaf, r, hdecodes, fun hnarrow => ?_,
    fun k hrule hbound hwide => ⟨?_, ?_⟩⟩
  · have hindex := kernelIndex_eq (p := p) (fun k hk => by
      obtain ⟨hrule, hbound⟩ := indexRule?_eq_shift.1 hk
      exact hnarrow k hrule hbound) i.toInt.toNat
    rw [hindex, ← Progression.element, helement] at hr
    exact Value.scalar.inj hr
  · have hlt := i.toInt_lt
    have hpower : 2 ^ 32 ≤ 2 ^ k := Nat.pow_le_pow_right Nat.two_pos hwide
    have hquotient : i.toInt.toNat / 2 ^ k = 0 := Nat.div_eq_of_lt (by omega)
    rw [← helement, Progression.element, hrule, hbound, two_pow_cast, Int.toNat_natCast,
      PortableArray.progressionIndex, if_neg (by omega), hquotient]
  · have hlt := p.bound.asInt64.toInt_lt
    have hk : k < 64 := by
      by_contra hge
      have hpower : 2 ^ 64 ≤ 2 ^ k := Nat.pow_le_pow_right Nat.two_pos (not_lt.1 hge)
      rw [hbound, two_pow_cast] at hlt
      omega
    have hamount : k % 32 = k - 32 := by omega
    rw [hr, kernelIndex, indexRule?_eq_shift.2 ⟨hrule, hbound⟩, Option.elim_some, IndexRule.index,
      hamount]

/-- A sequence of pairs: a long that changes at every eighth element, and a byte that repeats with
every third. -/
def pairs : PortableArray :=
  .fields ⟨.record [.scalar .long, .scalar .byte], .nativeBuffers, 3, ⟨true, false, false⟩, some 20⟩
    [.flat ⟨.scalar .long, .nativeBuffers, 3, ⟨true, false, true⟩, some 20⟩
      (.native .long #[.long (-7), .long 3, .long 8]),
     .flat ⟨.scalar .byte, .nativeBuffers, 3, ⟨true, true, false⟩, some 20⟩
      (.native .byte #[.byte 100, .byte 50, .byte 3])]

def pairsLayout : SequenceLayout :=
  ⟨[⟨.scalar (.long (-7)), .scalar (.long 3), .scalar (.long 8), .divide⟩,
    ⟨.scalar (.byte 100), .scalar (.byte 50), .scalar (.byte 3), .modulo⟩]⟩

theorem isIntegral_pairs : ∀ p ∈ pairsLayout.fields, IsIntegral p := by
  intro p hp
  simp only [pairsLayout, List.mem_cons, List.not_mem_nil, or_false] at hp
  obtain rfl | rfl := hp
  · exact ⟨.long, rfl, by simp [Progression.slots, Value.kind?, Value.scalar?, Scalar.kind]⟩
  · exact ⟨.byte, rfl, by simp [Progression.slots, Value.kind?, Value.scalar?, Scalar.kind]⟩

/-- Element thirteen of the pairs: of its second field, both sides have the byte that the sum wraps
to. -/
theorem kernel_decodes_pairs :
    pairs.sequenceLayout? = some pairsLayout ∧ (∀ p ∈ pairsLayout.fields, IsIntegral p) ∧
    pairs.decode? 13 = some (.tuple [.scalar (.long (-4)), .scalar (.byte (-106))]) ∧
    DecodesTo pairsLayout 0 1 (.literal (.int 13)) (.start .empty .empty) [] (.byte (-106)) := by
  have hlayout : pairs.sequenceLayout? = some pairsLayout := rfl
  have hdecode : pairs.decode? 13 = some
      (.tuple [.scalar (.long (-4)), .scalar (.byte (-106))]) := by
    decide
  have hp : pairsLayout.fields[1]?
      = some ⟨.scalar (.byte 100), .scalar (.byte 50), .scalar (.byte 3), .modulo⟩ := rfl
  have hx : (Name.literal (.int 13)).Reads (.literal (.int 13)) := .int (n := 13) (by decide)
  have he : ∀ u, (Program.Expr.literal (.int 13)).eval [] u = some (.int 13, u) := fun u => rfl
  obtain ⟨v, leaf, hv, hleaf, r, hdecodes, hsame, -⟩ :=
    kernel_decodes_sequence hlayout isIntegral_pairs hp hx (by decide) he 0 (.start .empty .empty)
  cases Option.some.inj (hv.symm.trans hdecode)
  cases Option.some.inj hleaf
  rw [hsame nofun] at hdecodes
  exact ⟨hlayout, isIntegral_pairs, hdecode, hdecodes⟩

/-- A sequence of longs whose indices are divided by a power of two above all words. -/
def plateau : PortableArray :=
  .flat ⟨.scalar .long, .nativeBuffers, 3, ⟨true, false, true⟩, some 8⟩
    (.native .long #[.long 0, .long 1, .long 4294967296])

def plateauLayout : SequenceLayout :=
  ⟨[⟨.scalar (.long 0), .scalar (.long 1), .scalar (.long 4294967296), .divide⟩]⟩

/-- Where indices are divided by a power of two above all words, only the host decodes the start. -/
theorem plateau_decoded_apart :
    plateau.sequenceLayout? = some plateauLayout ∧
    plateau.decode? 5 = some (.scalar (.long 0)) ∧
    DecodesTo plateauLayout 0 0 (.literal (.int 5)) (.start .empty .empty) [] (.long 5) := by
  have hp : plateauLayout.fields[0]?
      = some ⟨.scalar (.long 0), .scalar (.long 1), .scalar (.long 4294967296), .divide⟩ := rfl
  have hx : (Name.literal (.int 5)).Reads (.literal (.int 5)) := .int (n := 5) (by decide)
  have he : ∀ u, (Program.Expr.literal (.int 5)).eval [] u = some (.int 5, u) := fun u => rfl
  have hkind : IsIntegral
      ⟨.scalar (.long 0), .scalar (.long 1), .scalar (.long 4294967296), .divide⟩ :=
    ⟨.long, rfl, by simp [Progression.slots, Value.kind?, Value.scalar?, Scalar.kind]⟩
  obtain ⟨r, hdecodes, hr⟩ :=
    lowerProgression_computes hp hkind hx (by decide) he 0 (.start .empty .empty)
  have hshift : indexRule?
    ⟨.scalar (.long 0), .scalar (.long 1), .scalar (.long 4294967296), .divide⟩
      = some (.shift 32) := indexRule?_eq_shift.2 ⟨rfl, rfl⟩
  have helement : PortableArray.progressionAt (.scalar (.long 0)) (.scalar (.long 1)) 5
      = .scalar (.long 5) := by decide
  rw [kernelIndex, hshift] at hr
  cases Value.scalar.inj (hr.trans helement)
  exact ⟨rfl, by decide, hdecodes⟩

end Lowering

end Kernelwright
