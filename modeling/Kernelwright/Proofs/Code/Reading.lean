import Kernelwright.Proofs.Code.Spelling
import Kernelwright.Proofs.Program.Arithmetic
import Kernelwright.Proofs.Program.Tokens

/-!
# Printed text is read back

Statements of kernel text without loops, calls and arrays, over names of truth values and words, are
read back from their printed form. `Stmt.Reads ss ts ps` says which tokens the statements `ss` are
printed as and which statements of a program these are read as.
-/

namespace Kernelwright.Code

open Grammar (isLetter isDigit isSpace decimalValue)
open Program (Token Ty Val Operator Sign IsWord isWordChar wordToken? tokens?)
open Text

variable {c : Char} {w cs : List Char} {t : Token}

/-! ### Names -/

/-- A name is read as an operand: a variable, or a literal of a number that is not negative. -/
inductive Name.Reads : Name → Program.Expr → Prop
  | parameter (n : Nat) : Reads (parameter n) (.var (parameter n).text)
  | fresh (role : Role) (n : Nat) : Reads (fresh role n) (.var (fresh role n).text)
  | int {n : Int32} (h : 0 ≤ n.toInt) : Reads (literal (.int n.toInt)) (.literal (.int n))
  | long {n : Int64} (h : 0 ≤ n.toInt) : Reads (literal (.long n)) (.literal (.long n))
  | bool (b : Bool) : Reads (literal (.bool b)) (.literal (.bool b))

theorem isWordChar_of_mem_toString {n : Nat} (h : c ∈ (toString n).toList) :
    isWordChar c = true := by
  simp [isWordChar, isDigit_of_mem_toString h]

theorem reservedWords_lookup (hc : c ∈ w) (hdigit : isDigit c = true) :
    Program.reservedWords.lookup (String.ofList w) = none := by
  rw [List.lookup_eq_none_iff]
  intro p hp
  have hreserved : ∀ p ∈ Program.reservedWords, ∀ d ∈ p.1.toList, isDigit d = false := by
    simp only [← Bool.not_eq_true', ← List.all_eq_true]
    decide
  rw [bne_iff_ne]
  intro heq
  have hw : w = p.1.toList := by rw [← heq, String.toList_ofList]
  have hfalse := hreserved p hp c (hw ▸ hc)
  rw [hdigit] at hfalse
  cases hfalse

theorem isWord_numbered (hw : ∀ c ∈ w, isWordChar c = true)
    (hhead : ∃ c cs, w = c :: cs ∧ isDigit c = false) (n : Nat) :
    IsWord (w ++ (toString n).toList)
      (.operand (.var (String.ofList (w ++ (toString n).toList)))) := by
  refine ⟨List.forall_mem_append.2 ⟨hw, fun _ => isWordChar_of_mem_toString⟩, ?_⟩
  obtain ⟨d, ds, hds⟩ := List.exists_cons_of_ne_nil (toString_nat_ne_nil n)
  have hd : d ∈ (toString n).toList := hds ▸ List.mem_cons_self
  have hlookup := reservedWords_lookup (List.mem_append_right w hd) (isDigit_of_mem_toString hd)
  obtain ⟨c, cs, rfl, hc⟩ := hhead
  simp only [List.cons_append] at hlookup ⊢
  simp only [wordToken?, hc, hlookup]
  rfl

theorem isWord_numeral (n : Nat) (marked : Bool) (h : Program.literal? n marked = some t) :
    IsWord (toString n ++ if marked then "L" else "").toList t := by
  have hdigits : ∀ c ∈ (toString n).toList, isDigit c = true := fun _ => isDigit_of_mem_toString
  have hsuffix : Stops isDigit (if marked then "L" else "").toList ∧
      (if marked then "L" else "").toList.all isWordChar = true := by
    cases marked
    · exact ⟨stops_nil _, rfl⟩
    · exact ⟨stops_cons rfl, rfl⟩
  obtain ⟨d, ds, hds⟩ := List.exists_cons_of_ne_nil (toString_nat_ne_nil n)
  rw [String.toList_append]
  refine ⟨List.forall_mem_append.2
    ⟨fun _ => isWordChar_of_mem_toString, List.all_eq_true.1 hsuffix.2⟩, ?_⟩
  have hnumeral (cs : List Char) : wordToken? ((toString n).toList ++ cs)
      = Program.numeral? ((toString n).toList ++ cs) := by
    rw [hds, List.cons_append, wordToken?, if_pos (hdigits d (hds ▸ List.mem_cons_self))]
  rw [hnumeral, Program.numeral?, dropWhile_append_of_stops hdigits hsuffix.1,
    takeWhile_append_of_stops hdigits hsuffix.1, decimalValue_toString]
  cases marked <;> exact h

theorem toString_toNat {n : Int} (h : 0 ≤ n) : toString n.toNat = toString n := by
  obtain ⟨m, rfl⟩ := Int.eq_ofNat_of_zero_le h
  rfl

theorem Role.text_word (role : Role) : (∀ c ∈ (role.text ++ "_").toList, isWordChar c = true) ∧
    ∃ c cs, (role.text ++ "_").toList = c :: cs ∧ isDigit c = false := by
  constructor
  · rw [← List.all_eq_true]
    cases role <;> rfl
  · cases role <;> exact ⟨_, _, rfl, rfl⟩

theorem Name.Reads.word {x : Name} {e : Program.Expr} (h : x.Reads e) :
    IsWord x.text.toList (.operand e) := by
  cases h with
  | parameter n =>
    have hword := isWord_numbered (w := ['p']) (List.all_eq_true.1 rfl) ⟨_, _, rfl, rfl⟩ n
    have htext : ['p'] ++ (toString n).toList = (Name.parameter n).text.toList := by
      simp [Name.text]
    rwa [htext, String.ofList_toList] at hword
  | fresh role n =>
    have hword := isWord_numbered role.text_word.1 role.text_word.2 n
    rwa [← String.toList_append, String.ofList_toList] at hword
  | @int n hn =>
    have hlt := n.toInt_lt
    have hword := isWord_numeral n.toInt.toNat false (if_pos ⟨by omega, Bool.false_ne_true⟩)
    rw [toString_toNat hn, ← Int32.ofInt_eq_ofNat, Int.toNat_of_nonneg hn,
      Int32.ofInt_toInt] at hword
    simpa [Name.text, Literal.text] using hword
  | @long n hn =>
    have hlt := n.toInt_lt
    have hword := isWord_numeral n.toInt.toNat true
      ((if_neg fun h => h.2 rfl).trans (if_pos (by omega)))
    rw [toString_toNat hn, ← Int64.ofInt_eq_ofNat, Int.toNat_of_nonneg hn,
      Int64.ofInt_toInt] at hword
    simpa [Name.text, Literal.text] using hword
  | bool b => cases b <;> exact .of_eq rfl rfl

/-! ### Types -/

theorem cName_word {k : ScalarKind} (hk : k.isWord = true ∨ k.isIntegral = true) :
    IsWord k.cName.toList (.type (.ofKind k)) := by
  cases k with
  | float | double => rcases hk with hk | hk <;> cases hk
  | _ => exact .of_eq rfl rfl

/-! ### Expressions -/

/-- An expression is printed as tokens, which are read as an expression of a program. -/
inductive Expr.Reads : Expr → List Token → Program.Expr → Prop
  | name {x p} : x.Reads p → Reads (.place (.name x)) [.operand p] p
  | neg {x p} : x.Reads p → Reads (.neg x) [.operator .sub, .operand p] (.sign .neg p)
  | not {x p} : x.Reads p → Reads (.not x) [.bang, .operand p] (.sign .not p)
  | complement {x p} : x.Reads p →
      Reads (.complement x) [.tilde, .operand p] (.sign .complement p)
  | binary {x y p q} (op : BinaryOp) : x.Reads p → y.Reads q →
      Reads (.binary op x y) [.operand p, .operator (.ofBinary op), .operand q]
        (.binary (.ofBinary op) p q)
  | unsignedShift {k x y p q} (wide : Bool) : ScalarKind.isWord k = true → x.Reads p → y.Reads q →
      Reads (.unsignedShift k wide x y)
        [.openParen, .type (.ofKind k), .closeParen, .openParen, .openParen, .type (.unsigned wide),
          .closeParen, .operand p, .operator .shr, .operand q, .closeParen]
        (.cast (.ofKind k) (.binary .shr (.cast (.unsigned wide) p) q))
  | compare {x y p q} (op : CompareOp) : x.Reads p → y.Reads q →
      Reads (.compare op x y) [.operand p, .operator (.ofCompare op), .operand q]
        (.binary (.ofCompare op) p q)
  | sign {x y p q} : x.Reads p → y.Reads q →
      Reads (.sign x y)
        [.operand p, .operator .less, .operand q, .question, .operator .sub,
          .operand (.literal (.int 1)), .colon, .operand p, .operator .equal, .operand q, .question,
          .operand (.literal (.int 0)), .colon, .operand (.literal (.int 1))]
        (.select (.binary .less p q) (.sign .neg (.literal (.int 1)))
          (.select (.binary .equal p q) (.literal (.int 0)) (.literal (.int 1))))
  | select {c x y r p q} : c.Reads r → x.Reads p → y.Reads q →
      Reads (.select c x y)
        [.openParen, .operand r, .closeParen, .question, .operand p, .colon, .operand q]
        (.select r p q)
  | cast {k x p} : ScalarKind.isWord k = true → x.Reads p →
      Reads (.cast k x) [.openParen, .type (.ofKind k), .closeParen, .operand p]
        (.cast (.ofKind k) p)

theorem Expr.Reads.closedExpr? {e : Expr} {ts : List Token} {p : Program.Expr} (h : e.Reads ts p)
    (n : Nat) (rest : List Token) :
    Program.closedExpr? (n + 16) (ts ++ .semicolon :: rest) = some (p, rest) := by
  cases h with
  | binary op | compare op => cases op <;> rfl
  | _ => rfl

theorem tokens?_symbol (op : BinaryOp) :
    tokens? (op.symbol.toList ++ ' ' :: cs) = (tokens? cs).map (.operator (.ofBinary op) :: ·) := by
  cases op <;> simp +decide [BinaryOp.symbol, Operator.ofBinary]

theorem tokens?_compareSymbol (op : CompareOp) :
    tokens? (op.symbol.toList ++ ' ' :: cs) = (tokens? cs).map
      (.operator (.ofCompare op) :: ·) := by
  cases op <;> simp +decide [CompareOp.symbol, Operator.ofCompare]

theorem unsigned_word (wide : Bool) :
    IsWord (if wide then "ulong" else "uint").toList (.type (.unsigned wide)) := by
  cases wide <;> exact .of_eq rfl rfl

theorem Expr.Reads.tokens {e : Expr} {ts : List Token} {p : Program.Expr} (h : e.Reads ts p) :
    tokens? (e.text.toList ++ ';' :: cs) = (tokens? (';' :: cs)).map (ts ++ ·) := by
  cases h with
  | name hx => exact hx.word.tokens (by decide) cs
  | neg hx | not hx | complement hx => simp +decide [Expr.text, hx.word.sign, Function.comp_def]
  | binary op hx hy =>
    simp +decide [Expr.text, infixText, hx.word.tokens, hy.word.tokens, tokens?_symbol,
      Function.comp_def]
  | compare op hx hy =>
    simp +decide [Expr.text, infixText, hx.word.tokens, hy.word.tokens, tokens?_compareSymbol,
      Function.comp_def]
  | select hc hx hy =>
    simp +decide [Expr.text, hc.word.tokens, hx.word.tokens, hy.word.tokens, Function.comp_def]
  | cast hk hx =>
    simp +decide [Expr.text, castText, (cName_word (.inl hk)).tokens, hx.word.tokens,
      Function.comp_def]
  | unsignedShift wide hk hx hy =>
    simp +decide [Expr.text, castText, infixText, (cName_word (.inl hk)).tokens,
      (unsigned_word wide).tokens, hx.word.tokens, hy.word.tokens, Function.comp_def]
  | sign hx hy =>
    have h0 : IsWord ['0'] (.operand (.literal (.int 0))) := .of_eq rfl rfl
    have h1 : IsWord ['1'] (.operand (.literal (.int 1))) := .of_eq rfl rfl
    simp +decide [Expr.text, infixText, hx.word.tokens, hy.word.tokens, h0.char, h1.char,
      Function.comp_def]

theorem Expr.Reads.words_eq {e : Expr} {ts : List Token} {p : Program.Expr} (h : e.Reads ts p) :
    e.words = [] := by
  cases h <;> rfl

/-! ### Statements -/

/-- The tokens of a second arm; an empty one is left out. -/
def elseTokens (ts : List Token) : List Token :=
  if ts = [] then [] else .elseWord :: .openBrace :: (ts ++ [.closeBrace])

/-- Statements are printed as tokens, which are read as statements of a program. Marks are not
printed. -/
inductive Stmt.Reads : List Stmt → List Token → List Program.Stmt → Prop
  | nil : Reads [] [] []
  | mark {kind node ss ts ps} : Reads ss ts ps → Reads (.mark (NodeKind.name kind) node :: ss) ts ps
  | declare {k x e es p ss ts ps} : ScalarKind.isWord k = true → x.Reads (.var x.text) →
      e.Reads es p → Reads ss ts ps →
      Reads (.declare (.scalar k) x e .none :: ss)
        (.type (.ofKind k) :: .operand (.var x.text) :: .assign :: (es ++ .semicolon :: ts))
        (.declare (.ofKind k) x.text (some p) :: ps)
  | reserve {k x ss ts ps} : ScalarKind.isWord k = true → x.Reads (.var x.text) → Reads ss ts ps →
      Reads (.reserve (.scalar k) x :: ss)
        (.type (.ofKind k) :: .operand (.var x.text) :: .semicolon :: ts)
        (.declare (.ofKind k) x.text none :: ps)
  | assign {x v p ss ts ps} : x.Reads (.var x.text) → v.Reads p → Reads ss ts ps →
      Reads (.assign (.name x) (.place (.name v)) :: ss)
        (.operand (.var x.text) :: .assign :: .operand p :: .semicolon :: ts)
        (.assign x.text p :: ps)
  | ret {v p ss ts ps} : v.Reads p → Reads ss ts ps →
      Reads (.ret (some v) :: ss) (.returnWord :: .operand p :: .semicolon :: ts) (.ret p :: ps)
  | branch {c p t ts tp f fs fp ss us ps} : c.Reads p → Reads t ts tp → Reads f fs fp →
      Reads ss us ps →
      Reads (.branch c t f :: ss)
        (.ifWord :: .openParen :: .operand p :: .closeParen :: .openBrace ::
          (ts ++ .closeBrace :: (elseTokens fs ++ us)))
        (.branch p tp fp :: ps)

namespace Stmt.Reads

variable {ss : List Stmt} {ts : List Token} {ps : List Program.Stmt}

variable (h : Reads ss ts ps)
include h

theorem append {ss' : List Stmt} {ts' : List Token} {ps' : List Program.Stmt}
    (h' : Reads ss' ts' ps') : Reads (ss ++ ss') (ts ++ ts') (ps ++ ps') := by
  induction h with
  | nil => exact h'
  | mark _ ih => exact .mark ih
  | declare hk hx he _ ih => simpa using Reads.declare hk hx he ih
  | reserve hk hx _ ih => exact .reserve hk hx ih
  | assign hx hv _ ih => exact .assign hx hv ih
  | ret hv _ ih => exact .ret hv ih
  | branch hc ht hf _ _ _ ih => simpa using Reads.branch hc ht hf ih

theorem head?_ne_elseWord (rest : List Token) :
    (ts ++ .closeBrace :: rest).head? ≠ some .elseWord := by
  induction h with
  | mark _ ih => exact ih
  | _ => simp

theorem tokens_eq_nil_iff : ts = [] ↔ ps = [] := by
  induction h with
  | nil => simp
  | mark _ ih => exact ih
  | _ => simp

theorem block? {n : Nat} (hn : ts.length + 17 ≤ n) (rest : List Token) :
    Program.block? n (ts ++ .closeBrace :: rest) = some (ps, .closeBrace :: rest) := by
  induction h generalizing n rest with
  | nil =>
    obtain ⟨m, rfl⟩ : ∃ m, n = m + 1 := ⟨n - 1, by simp at hn; omega⟩
    rfl
  | mark _ ih => exact ih hn rest
  | @declare _ _ _ es _ _ us _ hk hx he _ ih =>
    simp only [List.length_cons, List.length_append] at hn
    obtain ⟨m, rfl⟩ : ∃ m, n = m + 17 := ⟨n - 17, by omega⟩
    simp only [List.cons_append, List.append_assoc]
    refine Program.block?_simple ?_ (ih (by omega) rest)
    simp [Program.simple?, he.closedExpr? m]
  | reserve hk hx _ ih =>
    simp only [List.length_cons] at hn
    obtain ⟨m, rfl⟩ : ∃ m, n = m + 1 := ⟨n - 1, by omega⟩
    exact Program.block?_simple rfl (ih (by omega) rest)
  | assign _ _ _ ih | ret _ _ ih =>
    simp only [List.length_cons] at hn
    obtain ⟨m, rfl⟩ : ∃ m, n = m + 17 := ⟨n - 17, by omega⟩
    exact Program.block?_simple rfl (ih (by omega) rest)
  | @branch c p t ts tp f fs fp ss us ps hc ht hf hss iht ihf ih =>
    simp only [List.length_cons, List.length_append] at hn
    obtain ⟨m, rfl⟩ : ∃ m, n = m + 17 := ⟨n - 17, by omega⟩
    simp only [List.cons_append, List.append_assoc]
    have hrest := ih (n := m + 16) (by omega) rest
    by_cases hempty : fs = []
    · have hfp : fp = [] := hf.tokens_eq_nil_iff.1 hempty
      have helse : elseTokens fs = [] := if_pos hempty
      rw [helse, List.nil_append, hfp]
      exact Program.block?_branch_of_ne rfl (iht (by omega) _) (hss.head?_ne_elseWord rest) hrest
    · have helse : elseTokens fs = .elseWord :: .openBrace :: (fs ++ [.closeBrace]) := if_neg hempty
      rw [helse, List.length_cons, List.length_cons, List.length_append] at hn
      rw [helse]
      simp only [List.cons_append, List.append_assoc, List.nil_append]
      exact Program.block?_branch rfl (iht (by omega) _) (ihf (by omega) _) hrest

theorem words_eq : ∀ s ∈ Stmt.allParts ss, s.words = [] ∧
    ∀ kind id, s = .mark kind id → ∃ k : NodeKind, kind = k.name := by
  induction h with
  | nil => simp
  | mark _ ih => simpa [Stmt.allParts, Stmt.parts, Stmt.words] using ih
  | declare _ _ he _ ih => simpa [Stmt.allParts, Stmt.parts, Stmt.words, he.words_eq] using ih
  | reserve _ _ _ ih | ret _ _ ih | assign _ _ _ ih =>
    simpa [Stmt.allParts, Stmt.parts, Stmt.words, Expr.words] using ih
  | branch _ _ _ _ iht ihf ih =>
    rw [Stmt.allParts, Stmt.parts]
    refine List.forall_mem_append.2 ⟨List.forall_mem_cons.2 ⟨⟨rfl, ?_⟩, ?_⟩, ih⟩
    · exact fun _ _ h => by cases h
    · exact List.forall_mem_append.2 ⟨iht, ihf⟩

theorem lacks_lines : ∀ s ∈ Stmt.allParts ss, ∀ l ∈ s.lines, Lacks "\n" l := by
  intro s hs
  obtain ⟨hwords, hmark⟩ := h.words_eq s hs
  exact Stmt.lacks_lines (.inr (.inl rfl)) (.inl (.inr rfl)) hmark (.inl (by decide))
    (by simp [hwords])

end Stmt.Reads

/-! ### Rows -/

/-- Rows of a text are cut into tokens. -/
structure Cuts (rows : List String) (ts : List Token) : Prop where
  nil : rows = [] ↔ ts = []
  tokens : ∀ cs, tokens? ((unlines rows).toList ++ cs) = (tokens? cs).map (ts ++ ·)

namespace Cuts

variable {rows rows' : List String} {code : String} {ts us : List Token}

theorem empty : Cuts [] [] := ⟨by simp, fun cs => by simp [toList_unlines]⟩

theorem append (h : Cuts rows ts) (h' : Cuts rows' us) : Cuts (rows ++ rows') (ts ++ us) := by
  refine ⟨?_, fun cs => ?_⟩
  · rw [List.append_eq_nil_iff, List.append_eq_nil_iff, h.nil, h'.nil]
  · rw [unlines_append, String.toList_append, List.append_assoc, h.tokens, h'.tokens,
      Option.map_map]
    simp [Function.comp_def]

theorem line (hts : ts ≠ [])
    (htokens : ∀ cs, tokens? (code.toList ++ '\n' :: cs) = (tokens? cs).map (ts ++ ·)) :
    Cuts [code] ts := by
  refine ⟨by simp [hts], fun cs => ?_⟩
  rw [toList_unlines, List.flatMap_cons, List.flatMap_nil, List.append_nil, List.append_assoc,
    List.singleton_append, htokens]

theorem indented (depth : Nat) (hts : ts ≠ [])
    (htokens : ∀ cs, tokens? (code.toList ++ '\n' :: cs) = (tokens? cs).map (ts ++ ·)) :
    Cuts [Buffer.indented depth code] ts := by
  have hblank (n : Nat) (cs : List Char) : tokens? (List.replicate n ' ' ++ cs) = tokens? cs := by
    induction n with
    | zero => rfl
    | succ n ih => exact (Program.tokens?_space (.inl rfl)).trans ih
  refine line hts fun cs => ?_
  rw [Buffer.indented, Buffer.indentation, String.toList_append, String.toList_ofList,
    List.append_assoc, hblank, htokens]

theorem stmt {s : Stmt} (hcode : s.code? = some code) (hts : ts ≠ [])
    (htokens : ∀ cs, tokens? (code.toList ++ '\n' :: cs) = (tokens? cs).map (ts ++ ·))
    (depth : Nat) :
    Cuts (s.rows false depth) ts := by
  rw [Stmt.rows_of_code? hcode]
  exact .indented depth hts htokens

end Cuts

theorem cuts_branch {c : Name} {p : Program.Expr} {t f : List Stmt} {ts fs : List Token}
    (hc : c.Reads p) (ht : ∀ depth, Cuts (Stmt.allRows false depth t) ts)
    (hf : ∀ depth, Cuts (Stmt.allRows false depth f) fs) (depth : Nat) :
    Cuts (Stmt.rows false depth (.branch c t f))
      (.ifWord :: .openParen :: .operand p :: .closeParen :: .openBrace ::
        (ts ++ .closeBrace :: elseTokens fs)) := by
  have hif := (IsWord.of_eq (w := "if".toList) (t := .ifWord) rfl rfl).tokens (d := ' ') (by decide)
  have helse :=
    (IsWord.of_eq (w := "else".toList) (t := .elseWord) rfl rfl).tokens (d := ' ') (by decide)
  simp at hif helse
  have hopen : Cuts [Buffer.indented depth ("if (" ++ c.text ++ ") \x7b")]
      [.ifWord, .openParen, .operand p, .closeParen, .openBrace] := by
    refine .indented depth (List.cons_ne_nil _ _) fun cs => ?_
    simp +decide [hif, hc.word.tokens, Function.comp_def]
  have hbetween : Cuts [Buffer.indented depth "\x7d else \x7b"]
      [.closeBrace, .elseWord, .openBrace] := by
    refine .indented depth (List.cons_ne_nil _ _) fun cs => ?_
    simp +decide [helse, Function.comp_def]
  have hclose : Cuts [Buffer.indented depth "\x7d"] [.closeBrace] :=
    .indented depth (List.cons_ne_nil _ _) fun cs => by simp +decide
  have hfalse := hf (depth + 1)
  rw [Stmt.rows, elseTokens]
  by_cases hfs : fs = []
  · simpa [hfs, hfalse.nil.2 hfs] using hopen.append ((ht (depth + 1)).append hclose)
  · simpa [hfs, mt hfalse.nil.1 hfs] using
      hopen.append ((ht (depth + 1)).append ((hbetween.append hfalse).append hclose))

theorem Stmt.Reads.cuts {ss : List Stmt} {ts : List Token} {ps : List Program.Stmt}
    (h : Stmt.Reads ss ts ps) (depth : Nat) : Cuts (Stmt.allRows false depth ss) ts := by
  induction h generalizing depth with
  | nil => exact .empty
  | mark _ ih => simpa [Stmt.allRows, Stmt.rows] using ih depth
  | @declare k x e es _ _ _ _ hk hx he _ ih =>
    have hcuts : Cuts (Stmt.rows false depth (.declare (.scalar k) x e .none))
        (.type (.ofKind k) :: .operand (.var x.text) :: .assign :: (es ++ [.semicolon])) := by
      refine .stmt rfl (List.cons_ne_nil _ _) (fun cs => ?_) depth
      simp +decide [CType.text, Remark.text, (cName_word (.inl hk)).tokens, hx.word.tokens,
        he.tokens, Function.comp_def]
    simpa [Stmt.allRows] using hcuts.append (ih depth)
  | reserve hk hx _ ih =>
    refine .append (.stmt rfl (List.cons_ne_nil _ [_, _]) (fun cs => ?_) depth) (ih depth)
    simp +decide [CType.text, (cName_word (.inl hk)).tokens, hx.word.tokens, Function.comp_def]
  | assign hx hv _ ih =>
    refine .append (.stmt rfl (List.cons_ne_nil _ [_, _, _]) (fun cs => ?_) depth) (ih depth)
    simp +decide [Place.text, Expr.text, hx.word.tokens, hv.word.tokens, Function.comp_def]
  | ret hv _ ih =>
    have hreturn :=
      (IsWord.of_eq (w := "return".toList) (t := .returnWord) rfl rfl).tokens (d := ' ') (by decide)
    simp at hreturn
    refine .append (.stmt rfl (List.cons_ne_nil _ [_, _]) (fun cs => ?_) depth) (ih depth)
    simp +decide [hreturn, hv.word.tokens, Function.comp_def]
  | branch hc _ _ _ iht ihf ih =>
    rw [Stmt.allRows]
    simpa using (cuts_branch hc iht ihf depth).append (ih depth)

/-! ### Functions -/

/-- The parameters of a function are printed as tokens up to the closing parenthesis. -/
inductive Parameter.Reads : List Parameter → List Token → List Program.Param → Prop
  | nil : Reads [] [.closeParen] []
  | flag : Reads [.deoptFlag]
      [.globalWord, .type .int, .operator .mul, .operand (.var "deoptFlag"), .closeParen]
      [.pointer "deoptFlag"]
  | last {k x} : ScalarKind.isWord k = true → x.Reads (.var x.text) →
      Reads [.byValue (.scalar k) x] [.type (.ofKind k), .operand (.var x.text), .closeParen]
        [.value (.ofKind k) x.text]
  | cons {k x q qs ts ps} : ScalarKind.isWord k = true → x.Reads (.var x.text) →
      Reads (q :: qs) ts ps →
      Reads (.byValue (.scalar k) x :: q :: qs)
        (.type (.ofKind k) :: .operand (.var x.text) :: .comma :: ts)
        (.value (.ofKind k) x.text :: ps)

namespace Parameter.Reads

variable {qs : List Parameter} {ts : List Token} {ps : List Program.Param}

theorem params? (h : Reads qs ts ps) (rest : List Token) :
    Program.params? (ts ++ rest) = some (ps, rest) := by
  induction h with
  | nil | flag | last => rfl
  | cons hk hx _ ih =>
    rw [List.cons_append, List.cons_append, List.cons_append, Program.params?, ih]
    rfl

theorem toList_text_byValue (k : ScalarKind) (x : Name) :
    (Parameter.byValue (.scalar k) x).text.toList = k.cName.toList ++ ' ' :: x.text.toList := by
  rw [show (Parameter.byValue (.scalar k) x).text = k.cName ++ " " ++ x.text from rfl]
  simp

theorem toList_text_deoptFlag : Parameter.deoptFlag.text.toList
    = "__global".toList ++ ' ' :: ("int".toList ++ ' ' :: '*' :: "deoptFlag".toList) := by
  decide

theorem tokens (h : Reads qs ts ps) (cs : List Char) :
    tokens? ((", ".intercalate (qs.map Parameter.text)).toList ++ ')' :: cs)
      = (tokens? cs).map (ts ++ ·) := by
  induction h with
  | nil => exact Program.tokens?_alone (by decide)
  | flag =>
    have hglobal : IsWord "__global".toList .globalWord := .of_eq rfl rfl
    have hint : IsWord "int".toList (.type .int) := .of_eq rfl rfl
    have hname : IsWord "deoptFlag".toList (.operand (.var "deoptFlag")) := .of_eq rfl rfl
    rw [List.map_singleton, String.intercalate_singleton, toList_text_deoptFlag]
    simp only [List.append_assoc, List.cons_append]
    rw [hglobal.tokens (by decide), Program.tokens?_space (.inl rfl), hint.tokens (by decide),
      Program.tokens?_space (.inl rfl), hname.sign rfl (by decide)]
    simp +decide [Function.comp_def]
  | last hk hx =>
    simp +decide [toList_text_byValue, (cName_word (.inl hk)).tokens, hx.word.tokens,
      Function.comp_def]
  | @cons k x q qs ts ps hk hx _ ih =>
    simp_all +decide [toList_text_byValue, String.intercalate_cons_cons,
      (cName_word (.inl hk)).tokens, hx.word.tokens, Function.comp_def]

end Parameter.Reads

variable {k : ScalarKind} {name : String} {qs : List Parameter} {us ts : List Token}
variable {ps : List Program.Param} {body : List Stmt} {ss : List Program.Stmt}

theorem function?_tokens (hqs : Parameter.Reads qs us ps) (hbody : Stmt.Reads body ts ss) :
    Program.function? (.type (.ofKind k) :: .operand (.var name) :: .openParen ::
      (us ++ .openBrace :: (ts ++ [.closeBrace]))) = some ⟨.ofKind k, name, ps, ss⟩ := by
  have hblock := hbody.block? (n := 4 * (Token.type (.ofKind k) :: .operand (.var name) ::
    .openParen :: (us ++ .openBrace :: (ts ++ [.closeBrace]))).length) (by simp; omega) []
  simp only [Program.function?, hqs.params?, Option.bind_eq_bind, Option.bind_some,
    Program.expect_cons, hblock, if_true]

/-- A function of kernel text is read back from its printed form. -/
theorem read_text (hk : k.isWord = true) (hname : IsWord name.toList (.operand (.var name)))
    (hqs : Parameter.Reads qs us ps) (hbody : Stmt.Reads body ts ss) :
    Program.read (Function.text ⟨.function (.scalar k) name, qs, body⟩ false)
      = some ⟨.ofKind k, name, ps, ss⟩ := by
  let f : Function := ⟨.function (.scalar k) name, qs, body⟩
  have hwhole : f.Whole := by
    have hheader := Function.lacks_header (f := f) (.inr (.inl rfl)) (fun _ _ => .inl (by decide))
    refine Function.whole_of_lacks (hheader fun hfeed => ?_) hbody.lacks_lines
    exact absurd (hname.chars '\n' (hfeed.subset (.head _))) (by decide)
  have hhead : Cuts [f.header] (.type (.ofKind k) :: .operand (.var name) :: .openParen :: us) := by
    refine .line (List.cons_ne_nil _ _) fun cs => ?_
    have htext : f.header.toList = k.cName.toList ++ ' ' :: (name.toList ++ '(' ::
        ((", ".intercalate (qs.map Parameter.text)).toList ++ [')'])) := by
      rw [show f.header = callText (k.cName ++ " " ++ name) (qs.map Parameter.text) from rfl]
      simp only [callText, String.toList_append]
      simp
    rw [htext]
    simp only [List.append_assoc, List.cons_append, List.nil_append]
    rw [(cName_word (.inl hk)).tokens (by decide), Program.tokens?_space (.inl rfl),
      hname.tokens (by decide), Program.tokens?_alone (by decide), hqs.tokens]
    simp +decide [Function.comp_def]
  have hopen : Cuts ["\x7b"] [.openBrace] := .line (List.cons_ne_nil _ _) fun cs => by simp +decide
  have hclose : Cuts ["\x7d"] [.closeBrace] :=
    .line (List.cons_ne_nil _ _) fun cs => by simp +decide
  have hcut := (((hhead.append hopen).append (hbody.cuts 1)).append hclose).tokens []
  rw [List.append_nil, Program.tokens?_nil, Option.map_some, List.append_nil] at hcut
  rw [Program.read, Function.text_eq_unlines hwhole, Function.rows]
  simp only [List.cons_append, List.nil_append] at hcut ⊢
  rw [hcut]
  simpa using function?_tokens hqs hbody

end Kernelwright.Code
