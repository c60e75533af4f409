import Kernelwright.Proofs.Code.Rows
import Kernelwright.Proofs.Code.Vocabulary
import Kernelwright.Proofs.Text.Runs
import Mathlib.Data.List.Infix

/-!
# The spelling of texts

The printer itself never writes a line feed inside a line, nor the word `ILLEGAL` for anything but
an illegal name, nor a brace but for blocks. All are said of one `Foreign` word: what is printed of
a statement lacks the word if what comes from outside does. A word reaches across the border of two
texts only if the characters on both sides of it are in the word, and almost all that the printer
puts between names is `Inert`.
-/

namespace Kernelwright

variable {c : Char} {digits : List Char} {exponent : Int}

namespace Text

/-- The word stands somewhere in the text. -/
def Holds (s w : String) : Prop := w.toList <:+: s.toList

instance (s w : String) : Decidable (Holds s w) :=
  inferInstanceAs (Decidable (w.toList <:+: s.toList))

/-- The word stands nowhere in the text. -/
def Lacks (w s : String) : Prop := ¬ Holds s w

instance (w s : String) : Decidable (Lacks w s) := inferInstanceAs (Decidable (¬ Holds s w))

/-- A word that the printer never writes by itself. -/
def Foreign (w : String) : Prop := w = "ILLEGAL" ∨ w = "\n" ∨ w = "\x7b" ∨ w = "\x7d"

/-- The text has no character of the word. -/
def Apart (w s : String) : Prop := ∀ c ∈ s.toList, c ∉ w.toList

instance (w s : String) : Decidable (Apart w s) := List.decidableBAll (· ∉ w.toList) s.toList

/-- A text without the characters of foreign words. -/
def Inert (s : String) : Prop := Apart "ILEGA\n\x7b\x7d" s

instance (s : String) : Decidable (Inert s) := inferInstanceAs (Decidable (Apart _ s))

variable {w a b s : String}

/-- A word does not reach across a border where a character on one side is not in the word. -/
theorem Lacks.append (ha : Lacks w a) (hb : Lacks w b)
    (h : (∀ c ∈ a.toList.getLast?, c ∉ w.toList) ∨ ∀ c ∈ b.toList.head?, c ∉ w.toList) :
    Lacks w (a ++ b) := by
  rw [Lacks, Holds, String.toList_append, List.infix_append_iff]
  rintro (hin | hin | ⟨l₁, l₂, hw, h₁, h₂⟩)
  · exact ha hin
  · exact hb hin
  · obtain rfl | ⟨front, x, rfl⟩ := List.eq_nil_or_concat l₁
    · exact hb (by simpa [Holds, hw] using h₂.isInfix)
    · cases l₂ with
      | nil => exact ha (by simpa [Holds, hw] using h₁.isInfix)
      | cons y back =>
        obtain ⟨before, h₁⟩ := h₁
        obtain ⟨after, h₂⟩ := h₂
        rcases h with h | h
        · exact h x (by simp [← h₁, ← List.append_assoc]) (by simp [hw])
        · exact h y (by simp [← h₂]) (by simp [hw])

theorem Lacks.not_mem (h : Lacks w s) (hw : w.toList = [c]) : c ∉ s.toList := by
  intro hmem
  obtain ⟨before, after, hsplit⟩ := List.append_of_mem hmem
  exact h ⟨before, after, by simp [hw, hsplit]⟩

theorem Inert.append (ha : Inert a) (hb : Inert b) : Inert (a ++ b) := by
  intro c hc
  rcases List.mem_append.1 (String.toList_append ▸ hc) with hc | hc
  · exact ha c hc
  · exact hb c hc

namespace Foreign

variable (hw : Foreign w)
include hw

@[simp] theorem apart (hs : Inert s) : Apart w s := by
  have hchars : w.toList ⊆ "ILEGA\n\x7b\x7d".toList := by
    rcases hw with rfl | rfl | rfl | rfl <;> decide
  exact fun c hc h => hs c hc (hchars h)

theorem lacks (h : Lacks "ILLEGAL" s ∧ Lacks "\n" s ∧ Lacks "\x7b" s ∧ Lacks "\x7d" s) :
    Lacks w s := by
  rcases hw with rfl | rfl | rfl | rfl
  · exact h.1
  · exact h.2.1
  · exact h.2.2.1
  · exact h.2.2.2

@[simp] theorem lacks_apart (hs : Apart w s) : Lacks w s := by
  have hne : w.toList ≠ [] := by rcases hw with rfl | rfl | rfl | rfl <;> decide
  intro hin
  obtain ⟨c, hc⟩ := List.exists_mem_of_ne_nil _ hne
  exact hs c (hin.subset hc) hc

@[simp] theorem append_apart (hs : Apart w s) : Lacks w (a ++ s) ↔ Lacks w a := by
  refine ⟨fun h hin => h (hin.trans ?_), fun ha => ha.append (hw.lacks_apart hs)
    (.inr fun c hc => ?_)⟩
  · exact String.toList_append ▸ (List.prefix_append ..).isInfix
  · exact hs c (List.mem_of_head? hc)

@[simp] theorem apart_append (hs : Apart w s) : Lacks w (s ++ b) ↔ Lacks w b := by
  refine ⟨fun h hin => h (hin.trans ?_), fun hb => (hw.lacks_apart hs).append hb
    (.inl fun c hc => ?_)⟩
  · exact String.toList_append ▸ (List.suffix_append ..).isInfix
  · exact hs c (List.mem_of_getLast? hc)

/-- What is apart from the word keeps two texts apart. -/
@[simp] theorem join (hs : Apart w s ∧ s ≠ "") : Lacks w (a ++ s ++ b) ↔ Lacks w a ∧ Lacks w b := by
  constructor
  · intro h
    refine ⟨(hw.append_apart hs.1).1 fun hin => h (hin.trans ?_), fun hin => h (hin.trans ?_)⟩ <;>
      rw [String.toList_append (s := a ++ s)]
    · exact (List.prefix_append ..).isInfix
    · exact (List.suffix_append ..).isInfix
  · rintro ⟨ha, hb⟩
    refine ((hw.append_apart hs.1).2 ha).append hb (.inl fun c hc => ?_)
    have hlast : s.toList.getLast? = some c := by
      rw [Option.mem_def, String.toList_append,
        List.getLast?_append_of_ne_nil _ fun h => hs.2 (String.toList_eq_nil_iff.1 h)] at hc
      exact hc
    exact hs.1 c (List.mem_of_getLast? hlast)

@[simp] theorem intercalate {ts : List String} :
    Lacks w (", ".intercalate ts) ↔ ∀ t ∈ ts, Lacks w t := by
  induction ts with
  | nil => simp +decide [hw]
  | cons t ts ih =>
    cases ts with
    | nil => simp
    | cons u ts => simp +decide [String.intercalate_cons_cons, hw, ih]

end Foreign

@[simp] theorem inert_nat (n : Nat) : Inert n.repr :=
  fun _ hc => not_mem_of_class (by decide) (isDigit_of_mem_toString hc)

@[simp] theorem inert_int (n : Int) : Inert n.repr := by
  cases n with
  | ofNat n => exact inert_nat n
  | negSucc n => exact Inert.append (a := "-") (by decide) (inert_nat (n + 1))

end Text

open Text

/-! ### Literals -/

theorem mem_positional (hc : c ∈ Decimal.positional digits exponent) :
    c ∈ digits ∨ c = '0' ∨ c = '.' := by
  unfold Decimal.positional at hc
  split at hc
  · simp only [List.cons_append, List.mem_cons, List.mem_append, List.mem_replicate] at hc
    tauto
  · have hpadded {n : Nat} (h : c ∈ digits ++ List.replicate n '0') : c ∈ digits ∨ c = '0' := by
      exact (List.mem_append.1 h).imp_right List.eq_of_mem_replicate
    dsimp only at hc
    rcases List.mem_append.1 hc with hc | hc
    · exact (hpadded (List.mem_of_mem_take hc)).imp_right .inl
    · obtain rfl | hc := List.mem_cons.1 hc
      · exact .inr (.inr rfl)
      · split at hc
        · exact .inr (.inl (List.mem_singleton.1 hc))
        · exact (hpadded (List.mem_of_mem_drop hc)).imp_right .inl

theorem mem_exponential {layout : Decimal.Layout} (hc : c ∈ layout.exponential digits exponent) :
    c ∈ digits ∨ c ∈ ['.', 'e', '+'] ∨ c ∈ (toString exponent).toList := by
  simp only [Decimal.Layout.exponential, List.append_assoc, List.mem_append, List.mem_cons] at hc
  rcases hc with hc | (rfl | hc) | hc
  · match digits, hc with
    | [d], hc => exact .inl hc
    | d :: d' :: rest, hc =>
      simp only [List.mem_cons] at hc ⊢
      tauto
  · exact .inr (.inl (by decide))
  · split at hc
    · cases List.mem_singleton.1 hc
      exact .inr (.inl (by decide))
    · cases hc
  · exact .inr (.inr hc)

@[simp] theorem inert_display (f : Ieee.Format) (d : Ieee.Datum) :
    Inert (Scalar.display.text f d) := by
  cases d with
  | nan => exact (by decide : Inert "NaN")
  | infinite s =>
    cases s with
    | false => exact (by decide : Inert "inf")
    | true => exact (by decide : Inert "-inf")
  | finite s m e =>
    have hrender (d : Decimal.Scientific) : Inert (String.ofList (Scalar.display.render d)) := by
      intro c hc
      rw [String.toList_ofList, Decimal.Layout.render] at hc
      split at hc
      · rcases mem_positional hc with hc | rfl | rfl
        · exact inert_nat _ c hc
        · decide
        · decide
      · rcases mem_exponential hc with hc | hc | hc
        · exact inert_nat _ c hc
        · exact (by decide : Inert ".e+") c hc
        · exact inert_int _ c hc
    rw [Decimal.Layout.text, String.ofList_append]
    refine Inert.append ?_ ?_
    · cases s <;> decide
    · split
      · decide
      · split
        · exact hrender _
        · decide

namespace Code

variable {w : String}
variable {is : List Ident} {x : Name}

section

variable (hw : Foreign w)
include hw

@[simp] theorem lacks_literal (l : Literal) : Lacks w l.text := by
  cases l with
  | nan | infinity | negativeInfinity => exact hw.lacks (by decide)
  | long n => simp [Literal.text, hw, hw.lacks (s := "L") (by decide)]
  | bool b => cases b <;> simp +decide [Literal.text, hw]
  | _ => simp +decide [Literal.text, hw]

end

/-! ### Names -/

/-- What is named may be spelled out: `ILLEGAL` is in no legal name, other words in none. -/
def Sayable (w : String) (is : List Ident) : Prop := w ≠ "ILLEGAL" ∨ ∀ i ∈ is, i.isLegal = true

@[simp] theorem sayable_append {js : List Ident} :
    Sayable w (is ++ js) ↔ Sayable w is ∧ Sayable w js := by
  rw [Sayable, List.forall_mem_append, or_and_left]
  rfl

@[simp] theorem sayable_cons {i : Ident} :
    Sayable w (i :: is) ↔ (w ≠ "ILLEGAL" ∨ i.isLegal = true) ∧ Sayable w is := by
  rw [Sayable, List.forall_mem_cons, or_and_left]
  rfl

theorem sayable_flatMap {α : Type} {l : List α} {f : α → List Ident} (h : Sayable w (l.flatMap f)) :
    ∀ a ∈ l, Sayable w (f a) :=
  fun a ha => h.imp_right fun h i hi => h i (List.mem_flatMap.2 ⟨a, ha, hi⟩)

section

variable (hw : Foreign w)
include hw

theorem lacks_name_of_legal (hx : w ≠ "ILLEGAL" ∨ x.isLegal = true) : Lacks w x.text := by
  induction x with
  | fresh role n => cases role <;> simp +decide [Name.text, Role.numbered, Role.text, hw]
  | reductionIndex => exact hw.lacks (by decide)
  | illegal =>
    -- this name is the one word itself, and no other word is in it
    obtain hother | hlegal := hx
    · rcases hw with rfl | rfl | rfl | rfl
      · exact absurd rfl hother
      all_goals decide
    · cases hlegal
  | _ => simp_all +decide [Name.text, Name.isLegal]

@[simp] theorem lacks_name (hx : Sayable w x.uses) : Lacks w x.text :=
  lacks_name_of_legal hw (hx.imp_right Name.uses_legal_iff.1)

@[simp] theorem lacks_metadata (hx : w ≠ "ILLEGAL" ∨ x.isLegal = true) : Lacks w x.metadata :=
  (hw.append_apart (hw.apart (by decide))).2 (lacks_name_of_legal hw hx)

@[simp] theorem lacks_dimension (hx : w ≠ "ILLEGAL" ∨ x.isLegal = true) : Lacks w x.dimension :=
  (hw.append_apart (hw.apart (by decide))).2 (lacks_name_of_legal hw hx)

/-! ### Expressions -/

theorem lacks_place {p : Place} (hp : Sayable w p.uses) : Lacks w p.text := by
  cases p <;> simp_all +decide [Place.text, Place.uses]

theorem lacks_argument {a : Argument} (ha : Sayable w a.uses) : Lacks w a.text := by
  cases a <;> simp_all +decide [Argument.text, Argument.uses, lacks_place]

omit hw in
@[simp] theorem inert_kind (k : ScalarKind) : Inert k.cName := by cases k <;> decide

@[simp] theorem lacks_call {f : String} {args : List String} :
    Lacks w (callText f args) ↔ Lacks w f ∧ ∀ a ∈ args, Lacks w a := by
  simp +decide [callText, hw]

theorem lacks_expr {e : Expr} (he : Sayable w e.uses) (hwords : ∀ u ∈ e.words, Lacks w u) :
    Lacks w e.text := by
  induction e with
  | math op args =>
    rw [Expr.text, lacks_call hw, List.forall_mem_map]
    refine ⟨by cases op <;> simp +decide [MathOp.name, hw], fun arg harg => ?_⟩
    have hname := lacks_name hw (sayable_flatMap he arg harg)
    obtain ⟨_ | kind, x⟩ := arg
    · exact hname
    · simpa +decide [castText, hw] using hname
  | builtin f args =>
    rw [Expr.text, lacks_call hw, List.forall_mem_map]
    exact ⟨hwords f (.head _), fun x hx => lacks_name hw (sayable_flatMap he x hx)⟩
  | call f args =>
    rw [Expr.text, lacks_call hw, List.forall_mem_map]
    exact ⟨hwords f (.head _), fun a ha => lacks_argument hw (sayable_flatMap he a ha)⟩
  | minimum x capacity ih => simp +decide [Expr.text, hw, ih he hwords]
  | binary op => cases op <;> simp_all +decide [Expr.text, Expr.uses, infixText, BinaryOp.symbol]
  | compare op => cases op <;> simp_all +decide [Expr.text, Expr.uses, infixText, CompareOp.symbol]
  | unsignedShift result wide => cases wide <;> simp_all +decide
      [Expr.text, Expr.uses, infixText, castText]
  | progressionIndex rule => cases rule <;> simp_all +decide [Expr.text, Expr.uses, IndexRule.text]
  | _ => simp_all +decide [Expr.text, Expr.uses, lacks_place, infixText, castText]

end

/-! ### Types -/

mutual

theorem inert_nameToken : (t : ElementType) → Inert t.nameToken
  | .scalar k => inert_kind k
  | .record [] => by decide
  | .record [t] => by
    rw [ElementType.nameToken]
    exact inert_nameToken t
  | .record (t :: t' :: ts) => by
    rw [ElementType.nameToken]
    · exact ((by decide : Inert "Tuple").append (inert_nat _)).append
        (inert_nameTokens (t :: t' :: ts))
    · simp

theorem inert_nameTokens : (ts : List ElementType) → Inert (ElementType.nameTokens ts)
  | [] => by decide
  | t :: ts => by
    rw [ElementType.nameTokens]
    exact ((by decide : Inert "_").append (inert_nameToken t)).append (inert_nameTokens ts)

end

@[simp] theorem inert_type (c : CType) : Inert c.text := by
  cases c with
  | scalar k => exact inert_kind k
  | struct t =>
    change Inert t.cName
    unfold ElementType.cName
    split
    · split
      · exact (by decide : Inert "Tuple").append (inert_nameTokens _)
      · exact inert_nameToken _
    · exact inert_nameToken _
  | void => decide

/-! ### Lines -/

def Stmt.hasBraces : Stmt → Bool
  | guard .. | branch .. | loop .. => true
  | _ => false

@[simp] theorem inert_node (id : NodeId) : Inert id.text := Inert.append (by decide) (inert_nat _)

section

variable (hw : Foreign w)
include hw

theorem lacks_kind (k : NodeKind) : Lacks w k.name := by
  cases k with
  | control c => cases c <;> dsimp only [NodeKind.name, Control.name] <;> exact hw.lacks (by decide)
  | operation o => cases o <;> dsimp only [NodeKind.name, Operation.name] <;>
      exact hw.lacks (by decide)
  | unsupported => simp +decide [NodeKind.name, hw]

theorem lacks_start {head : LoopHead} (hdeclares : Sayable w head.declares)
    (huses : Sayable w head.uses) :
    ∀ start ∈ head.text?, Lacks w start := by
  have hindex : Lacks w Name.reductionIndex.text := lacks_name_of_legal hw (.inr rfl)
  cases head <;> simp_all +decide [LoopHead.text?, LoopHead.declares, LoopHead.uses,
    lacks_name_of_legal]

/-- What is printed of a statement lacks a foreign word if what comes from outside does, but for the
braces of blocks. -/
theorem Stmt.lacks_lines {s : Stmt} (hbraces : (w = "ILLEGAL" ∨ w = "\n") ∨ s.hasBraces = false)
    (hmark : ∀ kind id, s = .mark kind id → ∃ k : NodeKind, kind = k.name)
    (hnames : Sayable w s.idents) (hwords : ∀ u ∈ s.words, Lacks w u) :
    ∀ l ∈ s.lines, Lacks w l := by
  have hcalm (hs : s.hasBraces = true) : w = "ILLEGAL" ∨ w = "\n" :=
    hbraces.resolve_right (by simp [hs])
  cases s with
  | mark kind node =>
    obtain ⟨k, rfl⟩ := hmark kind node rfl
    simp +decide [Stmt.lines, markLine, hw, lacks_kind]
  | declare type x value remark =>
    have hremark : Lacks w remark.text := by cases remark <;> exact hw.lacks (by decide)
    have hvalue : Lacks w value.text := lacks_expr hw (sayable_cons.1 hnames).2 hwords
    simp_all +decide [Stmt.lines, Stmt.code?, Stmt.idents, Stmt.declares, Stmt.uses,
      lacks_name_of_legal]
  | assign target value =>
    have hvalue : Lacks w value.text :=
      lacks_expr hw (sayable_append.1 (sayable_append.1 hnames).2).2 hwords
    simp_all +decide [Stmt.lines, Stmt.code?, Stmt.idents, Stmt.declares, Stmt.uses, lacks_place]
  | ret value => cases value <;> simp_all +decide [Stmt.lines, Stmt.code?, Stmt.idents, Stmt.uses]
  | failed name node =>
    have hname := hwords name (.head _)
    have hfirst : Lacks w "/* #ERROR: no lowering for " := hw.lacks (by decide)
    have hsecond : Lacks w "// #ERROR: " := hw.lacks (by decide)
    have hwhat : Lacks w (name ++ " (" ++ node.text ++ ")") := by simp +decide [hw, hname]
    -- the words in front end with a blank
    have hblank : ' ' ∉ w.toList := by rcases hw with rfl | rfl | rfl | rfl <;> decide
    have hlines := And.intro (hfirst.append hwhat (.inl (by simpa using hblank)))
      (hsecond.append hwhat (.inl (by simpa using hblank)))
    simpa +decide [Stmt.lines, hw] using hlines
  | guard c negated =>
    rcases hcalm rfl with rfl | rfl <;> cases negated <;>
      simp_all +decide [Stmt.lines, Stmt.code?, Stmt.idents, Stmt.declares, Stmt.uses, raiseText]
  | branch c onTrue onFalse =>
    rcases hcalm rfl with rfl | rfl <;>
      simp_all +decide [Stmt.lines, Stmt.idents, Stmt.declares, Stmt.uses]
  | loop head body =>
    obtain ⟨hdeclares, huses⟩ := sayable_append.1 hnames
    have hstart := lacks_start hw hdeclares huses
    rw [Stmt.lines, LoopHead.line]
    cases hhead : head.text? <;> rcases hcalm rfl with rfl | rfl <;> simp_all +decide
  | _ =>
    simp_all +decide [Stmt.lines, Stmt.code?, Stmt.idents, Stmt.declares, Stmt.uses,
      lacks_name_of_legal, raiseText]

theorem Function.lacks_header {f : Function}
    (hparameters : ∀ q ∈ f.parameters, Sayable w q.declares)
    (hname : Lacks w f.name) : Lacks w f.header := by
  rw [Function.header, lacks_call hw, List.forall_mem_map]
  refine ⟨?_, fun q hq => ?_⟩
  · unfold Function.name at hname
    cases hentry : f.entry <;> simp_all +decide [Entry.text, Entry.name]
  · have hq := hparameters q hq
    cases q <;> simp_all +decide [Parameter.text, Parameter.declares, lacks_name_of_legal]

end

theorem Function.whole_of_lacks {f : Function} (hheader : Lacks "\n" f.header)
    (hbody : ∀ s ∈ Stmt.allParts f.body, ∀ l ∈ s.lines, Lacks "\n" l) : f.Whole where
  header :=
    (f.endsBy_header.imp fun _ hc => (Bool.and_eq_true_iff.1 hc).2).whole (hheader.not_mem rfl)
  body s hs l hl := Stmt.whole_of_mem_lines hl ((hbody s hs l hl).not_mem rfl)

end Code

end Kernelwright
