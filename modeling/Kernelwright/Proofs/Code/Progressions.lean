import Kernelwright.Proofs.Code.Reading
import Kernelwright.Proofs.Program.Execution
import Kernelwright.Text.Replace

/-!
# Progressions in kernel text

An element of a progression is declared by one line or two, in which a placeholder stands for the
offset of the device. With the placeholder left out the lines are read back as declarations, and the
integers in them stand for what was written, up to the bits of their kind.
-/

namespace Kernelwright.Program

/-! ### Operands -/

/-- The tokens of an operand, whatever stands behind them. -/
def IsOperand (ts : List Token) (e : Expr) : Prop :=
  ∀ fuel rest, operand? (fuel + 3) (ts ++ rest) = some (e, rest)

theorem closedExpr?_sum {A B C : List Token} {a b c : Expr} (hA : IsOperand A a)
    (hB : IsOperand B b) (hC : IsOperand C c) (fuel : Nat) (rest : List Token) :
    closedExpr? (fuel + 16)
        (A ++ .operator .add :: (B ++ .operator .mul :: (C ++ .semicolon :: rest)))
      = some (.binary .add a (.binary .mul b c), rest) := by
  have hproduct : operators? (fuel + 14) 7 b (.operator .mul :: (C ++ .semicolon :: rest))
      = some (.binary .mul b c, .semicolon :: rest) := by
    rw [operators?]
    simp only [Operator.level, Nat.lt_irrefl, if_false, hC (fuel + 10), Option.bind_eq_bind,
      Option.bind_some]
    rfl
  have hsum : operators? (fuel + 15) 0 a
      (.operator .add :: (B ++ .operator .mul :: (C ++ .semicolon :: rest)))
      = some (.binary .add a (.binary .mul b c), .semicolon :: rest) := by
    rw [operators?]
    simp only [Nat.not_lt_zero, if_false, hB (fuel + 11), Option.bind_eq_bind, Option.bind_some]
    rw [show Operator.add.level + 1 = 7 from rfl, hproduct]
    rfl
  rw [closedExpr?, expr?, hA (fuel + 12)]
  simp only [Option.bind_eq_bind, Option.bind_some, hsum, expect_cons]
  rfl

/-! ### Numerals -/

/-- The value of a numeral that fits sixty-four bits. -/
def numeral (n : Nat) (marked : Bool) : Val :=
  if n < 2147483648 ∧ ¬marked then .int (.ofNat n)
  else if n < 9223372036854775808 then .long (.ofNat n)
  else .ulong (.ofNat n)

theorem literal?_eq_numeral {n : Nat} (h : n < 18446744073709551616) (marked : Bool) :
    literal? n marked = some (.operand (.literal (numeral n marked))) := by
  unfold literal? numeral
  rw [if_pos h]
  split
  · rfl
  · split <;> rfl

theorem toInt_numeral {n : Nat} (h : n < 18446744073709551616) (marked : Bool) :
    (numeral n marked).toInt = n := by
  unfold numeral
  split
  · rename_i hn
    exact Int32.toInt_ofNat_of_lt (by omega)
  · split
    · exact Int64.toInt_ofNat_of_lt (by omega)
    · show ((UInt64.ofNat n).toNat : Int) = n
      rw [UInt64.toNat_ofNat', Nat.mod_eq_of_lt h]

theorem bits_numeral (n : Nat) (marked : Bool) :
    (if marked then 64 else 32) ≤ (numeral n marked).ty.bits ∧
      (numeral n marked).ty.promoted = (numeral n marked).ty := by
  unfold numeral
  by_cases h : n < 2147483648 ∧ ¬marked
  · rw [if_pos h, if_neg h.2]
    exact ⟨le_refl 32, rfl⟩
  · have hle : (if marked then 64 else 32) ≤ 64 := by split <;> decide
    rw [if_neg h]
    by_cases hlong : n < 9223372036854775808
    · rw [if_pos hlong]
      exact ⟨hle, rfl⟩
    · rw [if_neg hlong]
      exact ⟨hle, rfl⟩

def signed (n : Int) (marked : Bool) : Expr :=
  if n < 0 then .sign .neg (.literal (numeral n.natAbs marked))
  else .literal (numeral n.natAbs marked)

theorem eval_signed {n : Int} (h : n.natAbs < 18446744073709551616) (marked : Bool) :
    ∃ v, (∀ vars u, (signed n marked).eval vars u = some (v, u)) ∧
      v.ty = (numeral n.natAbs marked).ty ∧ v.toInt ≡ n [ZMOD 2 ^ v.ty.bits] := by
  have hvalue := toInt_numeral h marked
  have htype := (bits_numeral n.natAbs marked).2
  unfold signed
  generalize numeral n.natAbs marked = v at hvalue htype ⊢
  by_cases hn : n < 0
  · simp only [if_pos hn]
    refine ⟨.ofInt v.ty (-v.toInt), fun vars u => ?_, Val.ty_ofInt _ _, ?_⟩
    · show some (Sign.apply .neg v, u) = _
      rw [Sign.apply, htype, Val.convert_ty]
    · have hneg : n = -v.toInt := by omega
      rw [hneg, Val.ty_ofInt]
      exact Val.toInt_ofInt_modEq _ _
  · simp only [if_neg hn]
    refine ⟨v, fun vars u => rfl, rfl, ?_⟩
    have hpos : n = v.toInt := by omega
    rw [hpos]

def signedTokens (n : Int) (marked : Bool) : List Token :=
  if n < 0 then [.operator .sub, .operand (.literal (numeral n.natAbs marked))]
  else [.operand (.literal (numeral n.natAbs marked))]

theorem operand?_signedTokens (n : Int) (marked : Bool) (fuel : Nat) (rest : List Token) :
    operand? (fuel + 2) (signedTokens n marked ++ rest) = some (signed n marked, rest) := by
  unfold signedTokens signed
  split <;> rfl

/-! ### Integers in the type of their kind -/

/-- Whether literals of the kind are written with a cast. -/
def isNarrow (k : ScalarKind) : Bool := (Ty.ofKind k).bits < 32

def ofInteger (s : Scalar) : Expr :=
  if isNarrow s.kind then .cast (.ofKind s.kind) (signed s.asInt64.toInt false)
  else signed s.asInt64.toInt (s.kind = .long)

def integerTokens (s : Scalar) : List Token :=
  if isNarrow s.kind then
    [.openParen, .type (.ofKind s.kind), .closeParen] ++ signedTokens s.asInt64.toInt false
  else signedTokens s.asInt64.toInt (s.kind = .long)

theorem isOperand_integerTokens (s : Scalar) : IsOperand (integerTokens s) (ofInteger s) := by
  intro fuel rest
  unfold integerTokens ofInteger
  split
  · simp only [List.cons_append, List.nil_append]
    rw [operand?]
    simp [operand?_signedTokens]
  · exact operand?_signedTokens _ _ (fuel + 1) rest

theorem natAbs_asInt64_lt (s : Scalar) : s.asInt64.toInt.natAbs < 18446744073709551616 := by
  have hle := s.asInt64.le_toInt
  have hlt := s.asInt64.toInt_lt
  omega

theorem eval_ofInteger {s : Scalar} (hs : s.kind.isIntegral = true) :
    ∃ v, (∀ vars u, (ofInteger s).eval vars u = some (v, u)) ∧
      (Ty.ofKind s.kind).bits ≤ v.ty.bits ∧
      v.toInt ≡ s.asInt64.toInt [ZMOD 2 ^ (Ty.ofKind s.kind).bits] := by
  unfold ofInteger
  split
  · rename_i hnarrow
    obtain ⟨v, heval, htype, hvalue⟩ := eval_signed (natAbs_asInt64_lt s) false
    have hbits := (bits_numeral s.asInt64.toInt.natAbs false).1
    have hle : (Ty.ofKind s.kind).bits ≤ v.ty.bits := by
      rw [htype]
      exact (of_decide_eq_true hnarrow).le.trans hbits
    refine ⟨v.convert (.ofKind s.kind), fun vars u => ?_, ?_, ?_⟩
    · rw [Expr.eval_cast (heval vars u)]
    · rw [Val.ty_convert]
    · exact Val.toInt_convert_modEq le_rfl (hvalue.of_dvd (pow_dvd_pow 2 hle))
  · rename_i hwide
    obtain ⟨v, heval, htype, hvalue⟩ := eval_signed (natAbs_asInt64_lt s) (s.kind = .long)
    have hbits := (bits_numeral s.asInt64.toInt.natAbs (s.kind = .long)).1
    have hle : (Ty.ofKind s.kind).bits ≤ v.ty.bits := by
      rw [htype]
      refine le_trans ?_ hbits
      generalize s.kind = k at hs hwide
      revert hs hwide
      cases k <;> decide
    exact ⟨v, heval, hle, hvalue.of_dvd (pow_dvd_pow 2 hle)⟩

end Kernelwright.Program

namespace Kernelwright.Code

open Grammar (isDigit)
open Program (Token Ty Val Operator IsWord isWordChar tokens? numeral signedTokens
      integerTokens ofInteger)
open Text

variable {c : Char} {cs : List Char} {n : Nat} {text : String} {ts : List Token} {s : Scalar}

/-! ### Text without the placeholder -/

/-- The characters of a text from which the placeholder for an offset is taken out. -/
def bare (cs : List Char) : List Char := replaceFrom offsetDevice.toList [] 0 cs

theorem toList_offsetDevice : offsetDevice.toList = '<' :: "offsetDevice>".toList := by decide

@[simp] theorem bare_cons (hc : c ≠ '<') (cs : List Char) : bare (c :: cs) = c :: bare cs := by
  have hprefix : offsetDevice.toList.isPrefixOf (c :: cs) = false := by
    rw [toList_offsetDevice, List.isPrefixOf_cons_cons, beq_eq_false_iff_ne.2 hc.symm,
      Bool.false_and]
  simp only [bare, replaceFrom, hprefix, Bool.false_eq_true, if_false]

theorem bare_append (h : '<' ∉ cs) (rest : List Char) : bare (cs ++ rest) = cs ++ bare rest := by
  induction cs with
  | nil => rfl
  | cons c cs ih =>
    have hc : c ≠ '<' := fun e => h (e ▸ List.mem_cons_self)
    rw [List.cons_append, bare_cons hc, ih fun hmem => h (List.mem_cons_of_mem c hmem),
      List.cons_append]

theorem replaceFrom_front (c : Char) (front replacement rest : List Char) :
    replaceFrom (c :: front) replacement 0 (c :: front ++ rest)
      = replacement ++ replaceFrom (c :: front) replacement 0 rest := by
  have hprefix : (c :: front).isPrefixOf (c :: (front ++ rest)) = true :=
    List.isPrefixOf_iff_prefix.2 (List.prefix_append (c :: front) rest)
  rw [List.cons_append, replaceFrom, if_pos hprefix]
  exact congrArg (replacement ++ ·) (replaceFrom_skip _ _ front rest)

@[simp] theorem bare_placeholder (rest : List Char) :
    bare (offsetDevice.toList ++ rest) = bare rest := by
  rw [bare, bare, toList_offsetDevice]
  exact replaceFrom_front '<' "offsetDevice>".toList [] rest

/-! ### Words and literals -/

/-- A text without a placeholder that is cut into tokens wherever a character follows that is no
part of a word. -/
structure Spells (text : String) (ts : List Token) : Prop where
  plain : '<' ∉ text.toList
  tokens : ∀ {d : Char}, ¬ isWordChar d → ∀ cs : List Char,
    tokens? (text.toList ++ d :: cs) = (tokens? (d :: cs)).map (ts ++ ·)

theorem Spells.of_word {w : String} {t : Token} (h : IsWord w.toList t) : Spells w [t] :=
  ⟨fun hmem => absurd (h.chars _ hmem) (by decide), h.tokens⟩

theorem Spells.minus (h : Spells text ts) (htext : text.toList = c :: cs)
    (hc : isWordChar c = true) :
    Spells ("-" ++ text) (.operator .sub :: ts) := by
  refine ⟨by simpa using h.plain, fun hd cs' => ?_⟩
  have hpair : ¬ Program.isPair '-' c := Program.isPair_of_isWordChar hc
  have htokens := h.tokens hd cs'
  rw [htext, List.cons_append] at htokens
  simp +decide [htext, Program.tokens?_single _ hpair, htokens, Function.comp_def]

theorem Spells.cast {name : String} {t : Ty} (hname : Spells name [.type t]) (h : Spells text ts) :
    Spells ("(" ++ name ++ ") " ++ text) ([.openParen, .type t, .closeParen] ++ ts) := by
  refine ⟨by simp [hname.plain, h.plain], fun hd cs => ?_⟩
  simp +decide [hname.tokens, h.tokens hd, Function.comp_def]

theorem spells_signed {n : Int} (h : n.natAbs < 18446744073709551616) (marked : Bool) :
    Spells (toString n ++ if marked then "L" else "") (signedTokens n marked) := by
  have hnumeral := Spells.of_word (isWord_numeral _ marked (Program.literal?_eq_numeral h marked))
  unfold Program.signedTokens
  by_cases hn : n < 0
  · obtain ⟨m, rfl⟩ := Int.eq_negSucc_of_lt_zero hn
    have htext : toString (Int.negSucc m) = "-" ++ toString (m + 1) := rfl
    obtain ⟨d, ds, hds, hd⟩ : ∃ d ds, (toString (m + 1) ++ if marked then "L" else "").toList = d ::
      ds ∧
        isWordChar d = true := by
      obtain ⟨d, ds, hds⟩ := List.exists_cons_of_ne_nil (toString_nat_ne_nil (m + 1))
      refine ⟨d, _, by rw [String.toList_append, hds, List.cons_append], ?_⟩
      exact isWordChar_of_mem_toString (n := m + 1) (hds ▸ List.mem_cons_self)
    rw [if_pos hn, htext, String.append_assoc]
    exact Spells.minus hnumeral hds hd
  · obtain ⟨m, rfl⟩ := Int.eq_ofNat_of_zero_le (not_lt.1 hn)
    rw [if_neg hn]
    exact hnumeral

theorem text_ofScalar (hs : s.kind.isIntegral = true) :
    (Literal.ofScalar s).text =
    (if Program.isNarrow s.kind then "(" ++ s.kind.cName ++ ") " else "")
      ++ (toString s.asInt64.toInt ++ if s.kind = .long then "L" else "") := by
  rw [← Val.toInt_ofScalar]
  apply String.toList_inj.1
  cases s with
  | byte n | short n | int n | long n =>
    simp [Literal.ofScalar, Literal.text, Program.isNarrow, Ty.ofKind, Ty.bits, Scalar.kind,
      ScalarKind.cName, Val.ofScalar, Val.toInt, Scalar.asInt64]
  | char n =>
    have hnat : (n.toNat : Int).repr = n.toNat.repr := rfl
    simp [Literal.ofScalar, Literal.text, Program.isNarrow, Ty.ofKind, Ty.bits, Scalar.kind,
      ScalarKind.cName, Val.ofScalar, Val.toInt, hnat]
  | float | double | boolean => cases hs

theorem spells_ofScalar (hs : s.kind.isIntegral = true) :
    Spells (Literal.ofScalar s).text (integerTokens s) := by
  have hname := Spells.of_word (cName_word (.inr hs))
  have hnumber := spells_signed (Program.natAbs_asInt64_lt s) (s.kind = .long)
  rw [text_ofScalar hs]
  unfold Program.integerTokens
  by_cases hnarrow : Program.isNarrow s.kind = true
  · have hlong : s.kind ≠ .long := fun h => by rw [h] at hnarrow; cases hnarrow
    simp only [hlong, decide_false, Bool.false_eq_true, if_false] at hnumber ⊢
    rw [if_pos hnarrow, if_pos hnarrow]
    exact hname.cast hnumber
  · rw [if_neg hnarrow, if_neg hnarrow, String.empty_append]
    simpa using hnumber

/-! ### Expressions -/

def IndexRule.operator : IndexRule → Operator
  | shift _ => .shr
  | divide _ => .div
  | mask _ => .and
  | modulo _ => .rem

/-- The number to the right of the operator. -/
def IndexRule.amount : IndexRule → Int
  | shift amount => amount
  | divide bound => bound
  | mask bits => bits
  | modulo bound => bound

def IndexRule.symbol : IndexRule → String
  | shift _ => ">>"
  | divide _ => "/"
  | mask _ => "&"
  | modulo _ => "%"

theorem IndexRule.text_eq (rule : IndexRule) (x : Name) :
    rule.text x = "( " ++ x.text ++ " " ++ offsetDevice ++ " ) " ++ rule.symbol ++ " "
      ++ toString rule.amount := by
  apply String.toList_inj.1
  cases rule with
  | shift amount =>
    have hnat : (amount : Int).repr = amount.repr := rfl
    simp [text, symbol, IndexRule.amount, hnat]
  | divide | mask | modulo => simp [text, symbol, IndexRule.amount]

theorem IndexRule.tokens?_symbol (rule : IndexRule) (cs : List Char) :
    tokens? (rule.symbol.toList ++ ' ' :: cs)
      = (tokens? cs).map (.operator rule.operator :: ·) := by
  cases rule <;> simp +decide [symbol, operator]

/-- An expression that is printed as tokens once placeholders are taken out, and whose tokens are
read as an expression of a program. -/
structure Expr.BareReads (e : Expr) (ts : List Token) (p : Program.Expr) : Prop where
  tokens : ∀ cs, tokens? (bare (e.text.toList ++ ';' :: cs))
    = (tokens? (bare cs)).map (ts ++ .semicolon :: ·)
  closed : ∀ fuel rest, Program.closedExpr? (fuel + 16) (ts ++ .semicolon :: rest) = some (p, rest)

section Expressions

variable {s t : Scalar} {x : Name} {p : Program.Expr}

theorem bareReads_progressionIndex (hx : x.Reads p) {rule : IndexRule} (h : 0 ≤ rule.amount)
    (h' : rule.amount.natAbs < 18446744073709551616) :
    (Expr.progressionIndex rule x).BareReads
      [.openParen, .operand p, .closeParen, .operator rule.operator,
        .operand (.literal (numeral rule.amount.natAbs false))]
      (.binary rule.operator p (.literal (numeral rule.amount.natAbs false))) := by
  have hx := Spells.of_word hx.word
  have hn := spells_signed h' false
  rw [Program.signedTokens, if_neg (not_lt.2 h), if_neg nofun, String.append_empty] at hn
  refine ⟨fun cs => ?_, fun fuel rest => ?_⟩
  · have hop : '<' ∉ rule.symbol.toList := by cases rule <;> simp [IndexRule.symbol]
    rw [Expr.text, rule.text_eq]
    generalize toString rule.amount = number at hn
    simp +decide [bare_append hx.plain, bare_append hop, bare_append hn.plain, hx.tokens,
      rule.tokens?_symbol, hn.tokens, Function.comp_def]
  · cases rule <;> rfl

variable (hs : s.kind.isIntegral = true) (ht : t.kind.isIntegral = true) (hx : x.Reads p)
include hs ht hx

/-- An element of a progression, with the index in parentheses or without. -/
theorem bareReads_progression {e : Expr} {C : List Token} (hC : Program.IsOperand C p)
    (he : e = .progression (.ofScalar s) (.ofScalar t) x ∧ C = [.operand p] ∨
      e = .linearProgression (.ofScalar s) (.ofScalar t) x ∧
        C = [.openParen, .operand p, .closeParen]) :
    e.BareReads (integerTokens s ++ .operator .add :: (integerTokens t ++ .operator .mul :: C))
      (.binary .add (ofInteger s) (.binary .mul (ofInteger t) p)) := by
  have hx := Spells.of_word hx.word
  have hs' := spells_ofScalar hs
  have ht' := spells_ofScalar ht
  refine ⟨fun cs => ?_, fun fuel rest => ?_⟩
  · obtain ⟨rfl, rfl⟩ | ⟨rfl, rfl⟩ := he <;>
      simp +decide [Expr.text, bare_append hs'.plain, bare_append ht'.plain, bare_append hx.plain,
        hs'.tokens, ht'.tokens, hx.tokens, Function.comp_def]
  · have hread := Program.closedExpr?_sum (Program.isOperand_integerTokens s)
      (Program.isOperand_integerTokens t) hC fuel rest
    simpa using hread

end Expressions

/-! ### Declarations -/

/-- The text of statements of their own, on a device that has no offset. -/
def Stmt.bareText (ss : List Stmt) : String :=
  Text.replace (Stmt.writeAll (.empty false) ss).out offsetDevice ""

/-- Declarations of integers are printed as tokens, which are read as declarations of a program. -/
inductive Stmt.BareReads : List Stmt → List Token → List Program.Stmt → Prop
  | nil : BareReads [] [] []
  | declare {k x e es p ss ts ps} : ScalarKind.isIntegral k = true → x.Reads (.var x.text) →
      e.BareReads es p → BareReads ss ts ps →
      BareReads (.declare (.scalar k) x e .none :: ss)
        (.type (.ofKind k) :: .operand (.var x.text) :: .assign :: (es ++ .semicolon :: ts))
        (.declare (.ofKind k) x.text (some p) :: ps)

namespace Stmt.BareReads

variable {ss : List Stmt} {ts : List Token} {ps : List Program.Stmt}

theorem tokens (h : BareReads ss ts ps) {b : Buffer} (hstart : b.atLineStart = true)
    (hdepth : b.depth = 0) :
    ∃ new, (Stmt.writeAll b ss).out = b.out ++ new ∧
      ∀ cs, tokens? (bare (new.toList ++ cs)) = (tokens? (bare cs)).map (ts ++ ·) := by
  induction h generalizing b with
  | nil => exact ⟨"", by simp [Stmt.writeAll], fun cs => by simp⟩
  | @declare k x e es p ss ts ps hk hx he _ ih =>
    have hname := Spells.of_word (cName_word (.inr hk))
    have hx := Spells.of_word hx.word
    obtain ⟨new, hnew, htokens⟩ :=
      ih (b := Stmt.write b (.declare (.scalar k) x e .none)) rfl hdepth
    refine ⟨k.cName ++ " " ++ x.text ++ " = " ++ e.text ++ ";" ++ "\n" ++ new, ?_, fun cs => ?_⟩
    · rw [Stmt.writeAll, hnew, Stmt.write, Buffer.line, if_pos hstart, hdepth]
      apply String.toList_inj.1
      simp [Buffer.indentation, CType.text, Remark.text]
    · simp +decide [bare_append hname.plain, bare_append hx.plain, hname.tokens, hx.tokens,
        he.tokens, htokens, Function.comp_def]

theorem block? (h : BareReads ss ts ps) (hn : ts.length + 17 ≤ n) :
    Program.block? n (ts ++ [.closeBrace]) = some (ps, [.closeBrace]) := by
  induction h generalizing n with
  | nil =>
    obtain ⟨m, rfl⟩ : ∃ m, n = m + 1 := ⟨n - 1, by simp at hn; omega⟩
    rfl
  | @declare _ _ _ es _ _ us _ hk hx he _ ih =>
    simp only [List.length_cons, List.length_append] at hn
    obtain ⟨m, rfl⟩ : ∃ m, n = m + 17 := ⟨n - 17, by omega⟩
    simp only [List.cons_append, List.append_assoc]
    refine Program.block?_simple ?_ (ih (by omega))
    simp [Program.simple?, he.closed m]

theorem readBlock (h : BareReads ss ts ps) :
    Program.readBlock (Stmt.bareText ss) = some ps := by
  obtain ⟨new, hnew, htokens⟩ := h.tokens (b := .empty false) rfl rfl
  have hcut : tokens? (Stmt.bareText ss).toList = some ts := by
    have hall := htokens []
    rw [List.append_nil] at hall
    rw [Stmt.bareText, hnew, Text.replace, String.toList_ofList]
    simpa [bare, Buffer.empty] using hall
  have hfuel : ts.length + 17 ≤ 4 * (ts ++ [Token.closeBrace]).length + 16 := by
    rw [List.length_append, List.length_singleton]
    omega
  have hblock := h.block? hfuel
  simp only [Program.readBlock, hcut, Option.bind_eq_bind, Option.bind_some, hblock, if_true]

end Stmt.BareReads

end Kernelwright.Code
