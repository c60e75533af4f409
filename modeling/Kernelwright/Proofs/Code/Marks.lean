import Kernelwright.Proofs.Code.Rows

/-!
# Marks in printed text

With comments, a text has a row for each mark. Without these rows it is the text without comments,
except where the second arm of a branch holds nothing but marks: of such a hollow branch the row
stays that starts the arm.
-/

namespace Kernelwright.Code

open Text Buffer

variable {line : String} {depth : Nat} {ss : List Stmt}

def isMarkRow (row : String) : Bool :=
  let cs := row.toList.dropWhile (· == ' ')
  "/* visited ".toList.isPrefixOf cs && " */".toList.isSuffixOf cs

/-- The text without the rows that are comments on visited nodes. -/
def dropMarks (text : String) : String := unlines ((lines text).filter fun row => !isMarkRow row)

/-- Whether the statement is a branch with marks in its second arm and nothing else. -/
def Stmt.isHollow : Stmt → Bool
  | branch _ _ onFalse => !onFalse.isEmpty && onFalse.all isMark
  | _ => false

/-! ### Rows that are marks -/

theorem dropWhile_indented (depth : Nat) {c : Char} {cs : List Char} (hline : line.toList = c :: cs)
    (hc : c ≠ ' ') : (indented depth line).toList.dropWhile (· == ' ') = line.toList := by
  rw [indented, indentation, String.toList_append, String.toList_ofList]
  rw [List.dropWhile_append_of_pos fun d hd => by simp [List.eq_of_mem_replicate hd], hline,
    List.dropWhile_cons_of_neg (by simpa using hc)]

theorem isMarkRow_markLine (depth : Nat) (kind : String) (node : NodeId) :
    isMarkRow (indented depth (markLine kind node)) = true := by
  have hstart : (markLine kind node).toList =
      '/' :: ("* visited " ++ kind ++ " " ++ node.text ++ " */").toList := by
    simp [markLine]
  rw [isMarkRow, dropWhile_indented depth hstart (by decide), Bool.and_eq_true,
    List.isPrefixOf_iff_prefix, List.isSuffixOf_iff_suffix]
  constructor
  · exact ⟨(kind ++ " " ++ node.text ++ " */").toList, by simp [markLine]⟩
  · exact ⟨("/* visited " ++ kind ++ " " ++ node.text).toList, by simp [markLine]⟩

theorem not_isMarkRow_of_endsBy (depth : Nat) (hline : EndsBy isCodeEnd line) :
    isMarkRow (indented depth line) = false := by
  rw [isMarkRow, Bool.and_eq_false_iff]
  refine .inr (Bool.eq_false_iff.2 fun hsuffix => ?_)
  have hne : line ≠ "" := by
    rintro rfl
    cases hline
  obtain ⟨front, hfront⟩ := (List.isSuffixOf_iff_suffix.1 hsuffix).trans (List.dropWhile_suffix _)
  have hlast : (indented depth line).toList.getLast? = some '/' := by
    rw [← hfront]
    simp
  rw [← endsBy_append hne (indentation depth), ← indented, EndsBy, hlast] at hline
  cases hline

theorem not_isMarkRow_failed (depth : Nat) (what : String) :
    isMarkRow (indented depth ("/* #ERROR: no lowering for " ++ what ++ " */")) = false := by
  have hstart : ("/* #ERROR: no lowering for " ++ what ++ " */").toList =
      '/' :: ("* #ERROR: no lowering for " ++ what ++ " */").toList := by
    simp
  rw [isMarkRow, dropWhile_indented depth hstart (by decide), Bool.and_eq_false_iff]
  exact .inl (by simp [List.isPrefixOf_cons_cons])

/-! ### Rows that stay -/

/-- Of the rows `on`, all those of `off` stay, and `n` more. -/
structure Thinned (on off : List String) (n : Nat) : Prop where
  sublist : off.Sublist (on.filter fun row => !isMarkRow row)
  length : (on.filter fun row => !isMarkRow row).length = off.length + n

namespace Thinned

variable {on off on' off' : List String} {m n : Nat} {row : String}

theorem nil : Thinned [] [] 0 := ⟨List.Sublist.refl _, rfl⟩

theorem append (h : Thinned on off m) (h' : Thinned on' off' n) :
    Thinned (on ++ on') (off ++ off') (m + n) := by
  refine ⟨?_, ?_⟩
  · rw [List.filter_append]
    exact h.sublist.append h'.sublist
  · rw [List.filter_append, List.length_append, List.length_append, h.length, h'.length]
    omega

theorem code (h : isMarkRow row = false) : Thinned [row] [row] 0 := by
  constructor <;> simp [h]

theorem codeLine (depth : Nat) (h : EndsBy isCodeEnd line) :
    Thinned [indented depth line] [indented depth line] 0 :=
  code (not_isMarkRow_of_endsBy depth h)

theorem mark (h : isMarkRow row = true) : Thinned [row] [] 0 := by
  constructor <;> simp [h]

theorem extra (h : isMarkRow row = false) : Thinned [row] [] 1 := by
  constructor <;> simp [h]

theorem filter_eq_iff (h : Thinned on off n) :
    on.filter (fun row => !isMarkRow row) = off ↔ n = 0 := by
  constructor
  · intro heq
    have hlength := h.length
    rw [heq] at hlength
    omega
  · rintro rfl
    exact (h.sublist.eq_of_length h.length.symm).symm

end Thinned

/-! ### Statements -/

theorem Stmt.rows_false_eq_nil_iff {s : Stmt} : s.rows false depth = [] ↔ s.isMark = true := by
  cases s <;> simp [Stmt.rows, Stmt.lines, Stmt.code?, Stmt.isMark]

theorem Stmt.allRows_true_eq_nil_iff : Stmt.allRows true depth ss = [] ↔ ss = [] := by
  cases ss with
  | nil => simp [Stmt.allRows]
  | cons s ss => cases s <;> simp [Stmt.allRows, Stmt.rows, Stmt.lines, Stmt.code?]

theorem Stmt.allRows_false_eq_nil_iff :
    Stmt.allRows false depth ss = [] ↔ ss.all Stmt.isMark = true := by
  induction ss with
  | nil => simp [Stmt.allRows]
  | cons s ss ih => rw [Stmt.allRows, List.append_eq_nil_iff, ih, Stmt.rows_false_eq_nil_iff]; simp

theorem Stmt.thinned_of_code? {s : Stmt} {code : String} (h : s.code? = some code) (depth : Nat) :
    Thinned (s.rows true depth) (s.rows false depth) 0 := by
  rw [Stmt.rows_of_code? h, Stmt.rows_of_code? h]
  exact .codeLine depth (Stmt.endsBy_code? h)

theorem Stmt.thinned_arm {n : Nat} {row : String} (hrow : isMarkRow row = false)
    (h : Thinned (Stmt.allRows true depth ss) (Stmt.allRows false depth ss) n) :
    Thinned (if Stmt.allRows true depth ss = [] then [] else row :: Stmt.allRows true depth ss)
      (if Stmt.allRows false depth ss = [] then [] else row :: Stmt.allRows false depth ss)
      ((if !ss.isEmpty && ss.all Stmt.isMark then 1 else 0) + n) := by
  simp only [Stmt.allRows_true_eq_nil_iff, Stmt.allRows_false_eq_nil_iff]
  by_cases hempty : ss = []
  · subst hempty
    simpa [Stmt.allRows] using h
  · rw [if_neg hempty]
    -- an arm of marks has rows with comments and none without
    by_cases hmarks : ss.all Stmt.isMark = true
    · rw [Stmt.allRows_false_eq_nil_iff.2 hmarks] at h
      simpa [hempty, hmarks] using (Thinned.extra hrow).append h
    · simpa [hmarks] using (Thinned.code hrow).append h

mutual

/-- Without marks, the rows of a statement are those without comments, and one for each hollow
branch. -/
theorem Stmt.thinned (depth : Nat) : (s : Stmt) →
    Thinned (s.rows true depth) (s.rows false depth) (s.parts.countP Stmt.isHollow)
  | mark kind node => by
    simp only [Stmt.rows, Stmt.parts, if_true, Bool.false_eq_true, if_false]
    exact .mark (isMarkRow_markLine depth kind node)
  | failed name node => by
    rw [Stmt.rows_failed, Stmt.rows_failed]
    exact (Thinned.code (not_isMarkRow_failed depth _)).append (.codeLine depth (by simp +decide))
  | branch c onTrue onFalse => by
    have hopen : EndsBy isCodeEnd ("if (" ++ c.text ++ ") \x7b") := by simp +decide
    have helse : EndsBy isCodeEnd "\x7d else \x7b" := by decide
    have hclose : EndsBy isCodeEnd "\x7d" := by decide
    have harm := Stmt.thinned_arm (not_isMarkRow_of_endsBy depth helse)
      (Stmt.allThinned (depth + 1) onFalse)
    have hrows := (Thinned.codeLine depth hopen).append
      (((Stmt.allThinned (depth + 1) onTrue).append harm).append (.codeLine depth hclose))
    -- the branch itself is counted where its second arm starts
    have hcount (t f k : Nat) : t + f + k = 0 + (t + (k + f) + 0) := by omega
    rw [Stmt.rows, Stmt.rows, Stmt.parts, List.countP_cons, List.countP_append, Stmt.isHollow,
      hcount]
    exact hrows
  | loop head body => by
    rw [Stmt.rows, Stmt.rows, Stmt.parts, List.countP_cons_of_neg (by simp [Stmt.isHollow])]
    have hclose : EndsBy isCodeEnd "\x7d" := by decide
    have hrows := (Thinned.codeLine depth head.endsBy_line).append
      ((Stmt.allThinned (depth + 1) body).append (.codeLine depth hclose))
    rwa [Nat.zero_add] at hrows
  | declare .. | reserve .. | reserveArray .. | dimension
      _ | globalSize | clearFlag | raiseFlag | guard ..
  | assign .. | ret _ | leave => Stmt.thinned_of_code? rfl depth

theorem Stmt.allThinned (depth : Nat) : (ss : List Stmt) →
    Thinned (Stmt.allRows true depth ss) (Stmt.allRows false depth ss)
      ((Stmt.allParts ss).countP Stmt.isHollow)
  | [] => by
    rw [Stmt.allRows, Stmt.allRows, Stmt.allParts]
    exact .nil
  | s :: ss => by
    rw [Stmt.allRows, Stmt.allRows, Stmt.allParts, List.countP_append]
    exact (Stmt.thinned depth s).append (Stmt.allThinned depth ss)

end

/-! ### Functions -/

theorem Function.thinned (f : Function) :
    Thinned (f.rows true) (f.rows false) ((Stmt.allParts f.body).countP Stmt.isHollow) := by
  have hheader : isMarkRow f.header = false := by
    simpa [indented, indentation] using not_isMarkRow_of_endsBy 0 f.endsBy_header
  have hframe :=
    ((Thinned.code hheader).append (.code (by decide : isMarkRow "\x7b" = false))).append
    (Stmt.allThinned 1 f.body)
  simpa [Function.rows] using hframe.append (.code (by decide : isMarkRow "\x7d" = false))

/-- Dropping the marks of a text gives the text without comments exactly if no branch is hollow. -/
theorem Function.dropMarks_text_iff {f : Function} (hf : f.Whole) :
    dropMarks (f.text true) = f.text false ↔ ∀ s ∈ Stmt.allParts f.body, s.isHollow = false := by
  have hon := Function.laid_rows hf true
  have hoff := Function.laid_rows hf false
  have hkept : ∀ l ∈ (f.rows true).filter fun row => !isMarkRow row, Text.Whole l :=
    fun l hl => hon.whole l (List.mem_filter.1 hl).1
  have hinj : unlines ((f.rows true).filter fun row => !isMarkRow row) = unlines (f.rows false) ↔
      (f.rows true).filter (fun row => !isMarkRow row) = f.rows false := by
    refine ⟨fun h => ?_, congrArg unlines⟩
    rw [← lines_unlines hkept, h, lines_unlines hoff.whole]
  rw [dropMarks, Function.text_eq_unlines hf, Function.text_eq_unlines hf, lines_unlines hon.whole,
    hinj, f.thinned.filter_eq_iff, List.countP_eq_zero]
  simp only [Bool.not_eq_true]

end Kernelwright.Code
