import Kernelwright.Proofs.Code.Execution
import Kernelwright.Proofs.Host.Skeletons

/-!
# Laws of execution

One equation for each kind of statement that kernels are made of, and a rule for loops that count:
what every round carries on to the next number holds at the bound. Sums and products of integers are
computed in words or in sixty-four bits, which keeps the bits of narrower kinds.
-/

namespace Kernelwright.Code

open Ieee
open Program (Ty Val ofKind_integral)

variable {d : Device} {rounds : Nat} {s s' : State} {ss ts : List Stmt}
variable {e : Expr} {v x : Scalar}
variable {k : ScalarKind} {i : Nat}

/-! ### Statements -/

@[simp] theorem execAll_nil : execAll d rounds s [] = some (.next, s) := by rw [execAll]

@[simp] theorem execAll_mark (kind : String) (id : NodeId) :
    execAll d rounds s (.mark kind id :: ss) = execAll d rounds s ss := by
  rw [execAll, Stmt.exec]
  rfl

@[simp] theorem execAll_declare {x : Name} (remark : Remark) :
    execAll d rounds s (.declare (.scalar k) x e remark :: ss)
      = (e.eval d s).bind fun v => execAll d rounds (s.declare x (v.cast k)) ss := by
  rw [execAll, Stmt.exec]
  cases e.eval d s <;> rfl

@[simp] theorem execAll_assign {target : Place} :
    execAll d rounds s (.assign target e :: ss)
      = ((e.eval d s).bind (s.write d target)).bind fun s' => execAll d rounds s' ss := by
  rw [execAll, Stmt.exec]
  cases e.eval d s with
  | none => rfl
  | some v =>
    show ((s.write d target v).bind _).bind _ = (s.write d target v).bind _
    cases s.write d target v <;> rfl

theorem execAll_append (h : execAll d rounds s ss = some (.next, s')) :
    execAll d rounds s (ss ++ ts) = execAll d rounds s' ts := by
  induction ss generalizing s with
  | nil =>
    cases execAll_nil.symm.trans h
    rfl
  | cons stmt ss ih =>
    rw [execAll] at h
    rw [List.cons_append, execAll]
    obtain ⟨⟨flow, t⟩, hstmt, h⟩ := Option.bind_eq_some_iff.1 h
    rw [hstmt]
    cases flow with
    | next => exact ih h
    | left | stopped => cases h

attribute [simp] State.declare

@[simp] theorem State.value?_fresh (role : Role) (n : Nat) :
    s.value? (.fresh role n) = s.vars.lookup (.fresh role n) := rfl

@[simp] theorem State.read_name (x : Name) : s.read d (.name x) = s.value? x := rfl

/-! ### Scopes -/

theorem State.backTo_eq (new : List (Name × Scalar)) (h : s'.vars = new ++ s.vars) :
    s'.backTo s = { s' with vars := s.vars } := by
  simp [State.backTo, h]

theorem execAll_branch {c : Name} {onTrue onFalse : List Stmt} {new : List (Name × Scalar)}
    (hc : s.value? c = some (.boolean true)) (h : execAll d rounds s onTrue = some (.next, s'))
    (hnew : s'.vars = new ++ s.vars) :
    execAll d rounds s (.branch c onTrue onFalse :: ss)
      = execAll d rounds { s' with vars := s.vars } ss := by
  rw [execAll, Stmt.exec, hc, ← State.backTo_eq new hnew]
  simp [Scalar.asBool, h]

/-! ### Memory -/

def word (i : Nat) : Scalar := .int (.ofNat i)

theorem int_ofNat (i : Nat) : Scalar.int (.ofNat i) = word i := rfl

@[simp] theorem cast_word (i : Nat) : (word i).cast .int = word i := (word i).cast_kind

theorem position?_word (hi : i < 2147483648) : position? (word i) = some i := by
  have hint : (Int32.ofNat i).toInt = i := Int32.toInt_ofNat_of_lt hi
  rw [word, position?, if_pos (by omega), hint]
  rfl

section

variable {array index : Name} {region : Region} {i : Nat}

theorem address?_offsetCell (hoffset : s.metadata? d array 1 = some 0)
    (hindex : s.value? index = some (word i)) (hi : i < 2147483648) :
    s.address? d (.offsetCell array array index) = some (array, i) := by
  rw [State.address?, hoffset, hindex]
  show ((position? (word i)).bind fun i => (position? (.int (0 + .ofNat i))).bind _) = _
  rw [position?_word hi, Option.bind_some, Int32.zero_add]
  show ((position? (word i)).bind _) = _
  rw [position?_word hi]
  rfl

variable (haddress : s.address? d (.offsetCell array array index) = some (array, i))
variable (hmemory : s.memory array = some region)
include haddress hmemory

theorem read_offsetCell : s.read d (.offsetCell array array index) = region.cells[i]? := by
  rw [State.read, haddress]
  · show ((s.memory array).bind _) = _
    rw [hmemory]
    rfl
  · nofun

theorem write_offsetCell (hi : i < region.cells.length) (v : Scalar) :
    s.write d (.offsetCell array array index) v = some (s.store array (region.set i v)) := by
  rw [State.write, haddress]
  · show ((s.memory array).bind fun r => (r.set? i v).bind _) = _
    rw [hmemory, Option.bind_some, Region.set?, if_pos hi]
    rfl
  · nofun

end

/-! ### Counting -/

theorem combine_word_one (i : Nat) :
    combine (· + ·) Binary64.add (word i) (.int 1) = word (i + 1) := by
  show Scalar.int (Int64.ofInt (Int32.ofNat i).toInt + Int64.ofInt (1 : Int32).toInt).toInt32 = _
  rw [← Int64.ofInt_add, Int64.toInt32_ofInt, Int32.ofInt_add, Int32.ofInt_toInt, Int32.ofInt_toInt,
    word, Int32.ofNat_add]
  rfl

section

variable {counter bound : Name} {body : State → Option (Flow × State)} {n : Nat}
variable {test : State → Option Bool} {round : State → Option (Flow × State)}
variable {I : Nat → State → Prop}

theorem increment_declare (hcounter : (s.declare counter (word i)).value? counter = some (word i)) :
    increment counter (s.declare counter (word i)) = some (s.declare counter (word (i + 1))) := by
  rw [increment, hcounter]
  show (State.assignVar counter (combine _ _ (word i) (.int 1)) ((counter, word i) :: s.vars)).map
    _ = _
  rw [State.assignVar, if_pos rfl, combine_word_one]
  rfl

theorem repeatWhile_counts
    (htest : ∀ i s, I i s → i ≤ n → test (s.declare counter (word i)) = some (decide (i < n)))
    (hround : ∀ i s, I i s → i < n → ∃ s', round (s.declare counter (word i))
      = some (.next, s'.declare counter (word (i + 1))) ∧ I (i + 1) s') (hi : i ≤ n)
    (hrounds : n - i < rounds) (hs : I i s) :
    ∃ s', repeatWhile test round rounds (s.declare counter (word i))
      = some (.next, s'.declare counter (word n)) ∧ I n s' := by
  induction rounds generalizing i s with
  | zero => exact absurd hrounds (Nat.not_lt_zero _)
  | succ rounds ih =>
    obtain rfl | hlt := Nat.eq_or_lt_of_le hi
    · refine ⟨s, ?_, hs⟩
      rw [repeatWhile, htest i s hs (Nat.le_refl i), decide_eq_false (Nat.lt_irrefl i)]
      rfl
    · obtain ⟨s₁, hs₁, hI⟩ := hround i s hs hlt
      rw [repeatWhile, htest i s hs hi, decide_eq_true hlt, Option.bind_eq_bind, Option.bind_some,
        if_pos rfl, hs₁]
      exact ih hlt (by omega) hI

/-- A loop that counts carries what holds before each round on to the bound. What a round declares
is forgotten at its end. -/
theorem countUp_eq_some {vars : List (Name × Scalar)} (hn : n < 2147483648)
    (hcounter : ∀ (s : State) v, (s.declare counter v).value? counter = some v)
    (hvars : ∀ i s, I i s → s.vars = vars)
    (hbound : ∀ i s, I i s → (s.declare counter (word i)).value? bound = some (word n))
    (hbody : ∀ i s, I i s → i < n → ∃ s' new, body (s.declare counter (word i)) = some (.next, s') ∧
      s'.vars = new ++ (counter, word i) :: vars ∧ I (i + 1) { s' with vars := vars }) (hi : i ≤ n)
    (hrounds : n - i < rounds) (hs : I i s) :
    ∃ s', countUp counter bound (word i) body rounds s = some (.next, s') ∧ I n s' := by
  have hround : ∀ i s, I i s → i < n → ∃ s', countRound counter body (s.declare counter (word i))
      = some (.next, s'.declare counter (word (i + 1))) ∧ I (i + 1) s' := by
    intro i s hs hlt
    obtain ⟨t, new, hrun, hnew, hI⟩ := hbody i s hs hlt
    -- the variables of the body go, the counter stays
    have hback : t.backTo (s.declare counter (word i))
        = { t with vars := vars }.declare counter (word i) := by
      rw [State.backTo_eq new (by rw [hnew, ← hvars i s hs]; rfl), State.declare, hvars i s hs]
      rfl
    refine ⟨_, ?_, hI⟩
    rw [countRound, hrun]
    show (increment counter (t.backTo (s.declare counter (word i)))).bind _ = _
    rw [hback, increment_declare (hcounter _ _)]
    rfl
  have hbelow i s (hs : I i s) (hi : i ≤ n) :
      isBelow counter bound (s.declare counter (word i)) = some (decide (i < n)) := by
    rw [isBelow, hcounter, hbound i s hs, ← Host.satisfies_index (Nat.lt_of_le_of_lt hi hn) hn]
    rfl
  obtain ⟨s', hloop, hI⟩ := repeatWhile_counts hbelow hround hi hrounds hs
  refine ⟨s', ?_, hI⟩
  have hback : (s'.declare counter (word n)).backTo s = s' := by
    have hsame : s'.vars = s.vars := (hvars n s' hI).trans (hvars i s hs).symm
    have hvars : (s'.declare counter (word n)).vars = [(counter, word n)] ++ s.vars := by
      rw [← hsame]
      rfl
    rw [State.backTo_eq _ hvars, ← hsame]
    rfl
  rw [countUp, cast_word, hloop]
  show some (Flow.next, (s'.declare counter (word n)).backTo s) = _
  rw [hback]

theorem execAll_reduction {init : Name} {body : List Stmt} (hinit : s.value? init = some v)
    (hloop : countUp .reductionIndex bound v (execAll d rounds · body) rounds s = some
      (.next, s')) :
    execAll d rounds s (.loop (.reduction init bound) body :: ss) = execAll d rounds s' ss := by
  rw [execAll, Stmt.exec, hinit]
  simp [hloop]

end

/-! ### Integers -/

variable {k : ScalarKind} {m n : Int64}

theorem ofInt64_asInt64 (hx : x.kind.isIntegral = true) : Scalar.ofInt64 x.kind x.asInt64 = x := by
  cases x with
  | byte v => exact congrArg Scalar.byte (Int64.toInt8_ofInt.trans (Int8.ofInt_toInt v))
  | char v =>
    have hlt := v.toNat_lt
    have hmod : ((v.toNat : Int) % 2 ^ 8).toNat = v.toNat := by omega
    show Scalar.char (UInt8.ofInt (Int64.ofNat v.toNat).toInt) = _
    rw [Int64.toInt_ofNat_of_lt (by omega), UInt8.ofInt, hmod, UInt8.ofNat_toNat]
  | short v => exact congrArg Scalar.short (Int64.toInt16_ofInt.trans (Int16.ofInt_toInt v))
  | int v => exact congrArg Scalar.int (Int64.toInt32_ofInt.trans (Int32.ofInt_toInt v))
  | long v => rfl
  | float | double | boolean => cases hx

theorem cast_integral (hx : x.kind.isIntegral = true) (hk : k.isIntegral = true) :
    x.cast k = .ofInt64 k x.asInt64 := by
  by_cases hkind : x.kind = k
  · rw [← hkind, Scalar.cast_kind, ofInt64_asInt64 hx]
  · unfold Scalar.cast
    rw [if_neg hkind]
    cases k with
    | float | double | boolean => cases hk
    | _ => rfl

theorem ofInt64_eq_ofInt64 (hk : k.isIntegral = true)
    (h : m.toInt ≡ n.toInt [ZMOD 2 ^ (Ty.ofKind k).bits]) : Scalar.ofInt64 k m = .ofInt64 k n := by
  have hval := Val.ofInt_eq_ofInt (ofKind_integral hk).1 h
  cases k with
  | byte => simpa [Scalar.ofInt64] using Val.char.inj hval
  | char => exact congrArg Scalar.char (Val.uchar.inj hval)
  | short => simpa [Scalar.ofInt64] using Val.short.inj hval
  | int => simpa [Scalar.ofInt64] using Val.int.inj hval
  | long => simpa [Scalar.ofInt64] using Val.long.inj hval
  | float | double | boolean => cases hk

theorem promote_int (hk : k.isIntegral = true) :
    (k.promote .int = .int ∨ k.promote .int = .long) ∧ k.promote (k.promote .int) = k.promote .int ∧
      (Ty.ofKind k).bits ≤ (Ty.ofKind (k.promote .int)).bits := by
  revert hk
  cases k <;> decide

theorem asInt64_ofInt64_modEq (hk : k = .int ∨ k = .long) (m : Int64) :
    (Scalar.ofInt64 k m).asInt64.toInt ≡ m.toInt [ZMOD 2 ^ (Ty.ofKind k).bits] := by
  obtain rfl | rfl := hk
  · have hle := m.toInt32.le_toInt
    have hlt := m.toInt32.toInt_lt
    show (Int64.ofInt m.toInt32.toInt).toInt ≡ _ [ZMOD 2 ^ 32]
    rw [Int64.toInt_ofInt_of_le (by omega) (by omega), Int64.toInt_toInt32]
    exact Val.bmod_modEq _ _
  · exact Int.ModEq.refl _

theorem combine_eq {onIntegers : Int64 → Int64 → Int64} {onFloats : Binary64 → Binary64 → Binary64}
    {a b : Scalar} (hkind : a.kind.promote b.kind = k) (hk : k = .int ∨ k = .long) :
    combine onIntegers onFloats a b = .ofInt64 k (onIntegers a.asInt64 b.asInt64) := by
  rw [combine, hkind]
  obtain rfl | rfl := hk <;> rfl

/-- A sum of an integer and a multiple of another is known in the kind of both, however often it
wrapped on the way. -/
theorem cast_multipleAbove {s t : Scalar} (hs : s.kind.isIntegral = true) (ht : t.kind = s.kind)
    (hi : i < 2147483648) :
    (multipleAbove s t (word i)).cast s.kind
      = (Scalar.long (.ofInt (s.asInt64.toInt + t.asInt64.toInt * i))).cast s.kind := by
  obtain ⟨hpromote, htwice, hbits⟩ := promote_int hs
  have hwide : (Ty.ofKind s.kind).bits ≤ 64 := (ofKind_integral hs).2
  have hlow : ∀ m : Int64, (Scalar.ofInt64 (s.kind.promote .int) m).asInt64.toInt
      ≡ m.toInt [ZMOD 2 ^ (Ty.ofKind s.kind).bits] :=
    fun m => (asInt64_ofInt64_modEq hpromote m).of_dvd (pow_dvd_pow 2 hbits)
  let product : Scalar := .ofInt64 (s.kind.promote .int) (t.asInt64 * (word i).asInt64)
  have hproduct : combine (· * ·) Binary64.mul t (word i) = product :=
    combine_eq (by rw [ht]; rfl) hpromote
  have hsum : multipleAbove s t (word i)
      = .ofInt64 (s.kind.promote .int) (s.asInt64 + product.asInt64) := by
    rw [multipleAbove, hproduct]
    exact combine_eq (by rw [Scalar.kind_ofInt64, htwice]) hpromote
  have hintegral :
    (Scalar.ofInt64 (s.kind.promote .int) (s.asInt64 + product.asInt64)).kind.isIntegral
      = true := by
    rw [Scalar.kind_ofInt64]
    obtain h | h := hpromote <;> rw [h] <;> rfl
  have hindex : (word i).asInt64.toInt = i := Host.asInt64_index hi
  have hlong : ∀ v, (Scalar.long v).kind.isIntegral = true := fun _ => rfl
  rw [hsum, cast_integral hintegral hs, cast_integral (hlong _) hs]
  -- wherever the arithmetic wraps, it keeps the bits that the kind has
  refine ofInt64_eq_ofInt64 hs ?_
  calc _ ≡ (s.asInt64 + product.asInt64).toInt [ZMOD 2 ^ (Ty.ofKind s.kind).bits] := hlow _
    _ ≡ s.asInt64.toInt + product.asInt64.toInt [ZMOD 2 ^ (Ty.ofKind s.kind).bits] := by
      rw [Int64.toInt_add]
      exact (Val.bmod_modEq _ _).of_dvd (pow_dvd_pow 2 hwide)
    _ ≡ s.asInt64.toInt + (t.asInt64 * (word i).asInt64).toInt [ZMOD 2 ^ (Ty.ofKind s.kind).bits] :=
      (hlow _).add_left _
    _ ≡ s.asInt64.toInt + t.asInt64.toInt * i [ZMOD 2 ^ (Ty.ofKind s.kind).bits] := by
      rw [← hindex, Int64.toInt_mul]
      exact ((Val.bmod_modEq _ _).of_dvd (pow_dvd_pow 2 hwide)).add_left _
    _ ≡ _ [ZMOD 2 ^ (Ty.ofKind s.kind).bits] :=
      ((Val.toInt_ofInt_modEq .long _).of_dvd (pow_dvd_pow 2 hwide)).symm

end Kernelwright.Code
