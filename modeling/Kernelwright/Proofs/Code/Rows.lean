import Kernelwright.Code.Printer
import Kernelwright.Proofs.Code.Contents
import Kernelwright.Proofs.Code.Layout

/-!
# Rows of printed text

The text of a function is the list of its rows: the lines of each statement, indented by how deep
the statement stands. A mark is a row only with comments. The second arm of a branch has rows only
if one of its statements has one; this is where comments can make a difference to the code.
-/

namespace Kernelwright.Code

open Text Buffer

variable {code l : String} {p : Char → Bool} {f : Function}
variable {s : Stmt}

/-! ### Lines of statements -/

def markLine (kind : String) (node : NodeId) : String :=
  "/* visited " ++ kind ++ " " ++ node.text ++ " */"

theorem markLine_eq (kind : String) (node : NodeId) :
    markLine kind node = "/* " ++ ("visited " ++ kind ++ " " ++ node.text) ++ " */" := by
  simp [markLine, ← String.append_assoc]

def LoopHead.line (head : LoopHead) : String := head.text?.elim "\x7b" (· ++ " " ++ "\x7b")

/-- The line of a statement that has just one. -/
def Stmt.code? : Stmt → Option String
  | declare type name value remark =>
    some (type.text ++ " " ++ name.text ++ " = " ++ value.text ++ ";" ++ remark.text)
  | reserve type name => some (type.text ++ " " ++ name.text ++ ";")
  | reserveArray type name capacity =>
    some (type.text ++ " " ++ name.text ++ "[" ++ toString capacity ++ "];")
  | dimension array => some ("int " ++ array.dimension ++ " = 0;")
  | globalSize => some "int gs = get_global_size(0);"
  | clearFlag => some "deoptFlag[0] = 0;"
  | raiseFlag => some raiseText
  | guard c negated =>
    some ("if (" ++ (if negated then "" else "!") ++ c.text ++ ") \x7b " ++ raiseText ++ " \x7d")
  | assign target value => some (target.text ++ " = " ++ value.text ++ ";")
  | ret value => some ("return" ++ value.elim "" (" " ++ ·.text) ++ ";")
  | leave => some "break;"
  | mark .. | failed .. | branch .. | loop .. => none

/-- The lines of a statement, apart from the statements in it. -/
def Stmt.lines : Stmt → List String
  | mark kind node => [markLine kind node]
  | failed name node =>
    let what := name ++ " (" ++ node.text ++ ")"
    ["/* #ERROR: no lowering for " ++ what ++ " */", "// #ERROR: " ++ what]
  | branch c _ _ => ["if (" ++ c.text ++ ") \x7b", "\x7d else \x7b", "\x7d"]
  | loop head _ => [head.line, "\x7d"]
  | s => s.code?.toList

theorem Stmt.write_of_code? (h : s.code? = some code) (b : Buffer) : s.write b = b.line code := by
  cases s with
  | mark | failed | branch | loop => cases h
  | _ =>
    cases h
    rw [Stmt.write]

theorem Stmt.lines_of_code? (h : s.code? = some code) : s.lines = [code] := by
  cases s with
  | mark | failed | branch | loop => cases h
  | _ =>
    cases h
    rfl

/-- The last character of a text, if there is one, is as `p` says. -/
def EndsBy (p : Char → Bool) (s : String) : Prop := s.toList.getLast?.any p = true

instance (p : Char → Bool) (s : String) : Decidable (EndsBy p s) :=
  inferInstanceAs (Decidable (s.toList.getLast?.any p = true))

@[simp] theorem endsBy_append {s : String} (hs : s ≠ "") (front : String) :
    EndsBy p (front ++ s) ↔ EndsBy p s := by
  have hsome : s.toList.getLast?.isSome = true := by simp [hs]
  rw [EndsBy, EndsBy, String.toList_append, List.getLast?_append, Option.or_of_isSome hsome]

/-- How lines of code end: not as comments do. -/
def isCodeEnd (c : Char) : Bool := c != '/' && c != '\r'

theorem Stmt.endsBy_code? (h : s.code? = some code) : EndsBy isCodeEnd code := by
  cases s with
  | mark | failed | branch | loop => cases h
  | declare type x value remark =>
    cases h
    cases remark <;> simp +decide [Remark.text]
  | _ =>
    cases h
    simp +decide

theorem EndsBy.imp {q : Char → Bool} (hpq : ∀ c, p c = true → q c = true) {s : String}
    (h : EndsBy p s) : EndsBy q s := by
  unfold EndsBy at h ⊢
  cases hlast : s.toList.getLast? with
  | none => simp [hlast] at h
  | some c =>
    rw [hlast] at h
    exact hpq c h

theorem LoopHead.endsBy_line (head : LoopHead) : EndsBy isCodeEnd head.line := by
  unfold LoopHead.line
  cases head.text? <;> simp +decide

theorem EndsBy.whole (hend : EndsBy (· != '\r') l) (hfeed : '\n' ∉ l.toList) : Whole l := by
  refine ⟨hfeed, fun hlast => ?_⟩
  rw [EndsBy, hlast] at hend
  cases hend

theorem Stmt.whole_of_mem_lines (hl : l ∈ s.lines) (hfeed : '\n' ∉ l.toList) : Whole l := by
  have hcode {l : String} (h : EndsBy isCodeEnd l) : EndsBy (· != '\r') l :=
    h.imp fun c hc => (Bool.and_eq_true_iff.1 hc).2
  refine EndsBy.whole ?_ hfeed
  cases hs : s.code? with
  | some code =>
    rw [Stmt.lines_of_code? hs, List.mem_singleton] at hl
    exact hcode (hl ▸ Stmt.endsBy_code? hs)
  | none =>
    cases s with
    | mark | failed | branch =>
      simp only [Stmt.lines, List.mem_cons, List.not_mem_nil, or_false] at hl
      rcases hl with rfl | rfl | rfl <;> simp +decide [markLine]
    | loop head body =>
      simp only [Stmt.lines, List.mem_cons, List.not_mem_nil, or_false] at hl
      rcases hl with rfl | rfl
      · exact hcode head.endsBy_line
      · decide
    | _ => cases hs

/-! ### Rows -/

mutual

/-- The rows of a statement at a depth, with or without comments. -/
def Stmt.rows (comments : Bool) (depth : Nat) : Stmt → List String
  | mark kind node => if comments then [indented depth (markLine kind node)] else []
  | branch c onTrue onFalse =>
    indented depth ("if (" ++ c.text ++ ") \x7b") :: (Stmt.allRows comments (depth + 1) onTrue
      ++ (if Stmt.allRows comments (depth + 1) onFalse = [] then []
        else indented depth "\x7d else \x7b" :: Stmt.allRows comments (depth + 1) onFalse)
      ++ [indented depth "\x7d"])
  | loop head body =>
    indented depth head.line :: (Stmt.allRows comments (depth + 1) body ++ [indented depth "\x7d"])
  | s => s.lines.map (indented depth)

/-- The rows of statements one after the other. -/
def Stmt.allRows (comments : Bool) (depth : Nat) : List Stmt → List String
  | [] => []
  | s :: ss => s.rows comments depth ++ Stmt.allRows comments depth ss

end

/-- The line that a function starts with. -/
def Function.header (f : Function) : String :=
  callText f.entry.text (f.parameters.map Parameter.text)

def Function.rows (f : Function) (comments : Bool) : List String :=
  [f.header, "\x7b"] ++ Stmt.allRows comments 1 f.body ++ ["\x7d"]

theorem Stmt.rows_of_code? (h : s.code? = some code) (comments : Bool) (depth : Nat) :
    s.rows comments depth = [indented depth code] := by
  cases s with
  | mark | failed | branch | loop => cases h
  | _ =>
    cases h
    simp [Stmt.rows, Stmt.lines, Stmt.code?]

theorem Stmt.rows_failed (name : String) (node : NodeId) (comments : Bool) (depth : Nat) :
    (failed name node).rows comments depth = (failed name node).lines.map (indented depth) := by
  simp [Stmt.rows]

mutual

theorem Stmt.exists_mem_rows {t s : Stmt} {code : String} (h : s.code? = some code)
    (hs : s ∈ t.parts) (comments : Bool) (depth : Nat) :
    ∃ d, indented d code ∈ t.rows comments depth := by
  match t, hs with
  | branch c onTrue onFalse, hs =>
    rw [Stmt.parts, List.mem_cons, List.mem_append] at hs
    rw [Stmt.rows]
    rcases hs with rfl | hs | hs
    · cases h
    · obtain ⟨d, hd⟩ := exists_mem_allRows h hs comments (depth + 1)
      exact ⟨d, by simp [hd]⟩
    · -- the row is there, so the second arm is not dropped
      obtain ⟨d, hd⟩ := exists_mem_allRows h hs comments (depth + 1)
      exact ⟨d, by simp [hd, List.ne_nil_of_mem hd]⟩
  | loop head body, hs =>
    rw [Stmt.parts, List.mem_cons] at hs
    rw [Stmt.rows]
    rcases hs with rfl | hs
    · cases h
    · obtain ⟨d, hd⟩ := exists_mem_allRows h hs comments (depth + 1)
      exact ⟨d, by simp [hd]⟩
  | mark .., hs | failed .., hs | declare .., hs | reserve .., hs | reserveArray ..,
      hs | dimension _, hs
  | globalSize, hs | clearFlag, hs | raiseFlag, hs | guard .., hs | assign .., hs | ret _,
      hs | leave, hs =>
    rw [Stmt.parts] at hs
    · cases List.mem_singleton.1 hs
      exact ⟨depth, by simp [Stmt.rows_of_code? h]⟩
    all_goals simp

theorem Stmt.exists_mem_allRows {ss : List Stmt} {s : Stmt} {code : String}
    (h : s.code? = some code) (hs : s ∈ Stmt.allParts ss) (comments : Bool) (depth : Nat) :
    ∃ d, indented d code ∈ Stmt.allRows comments depth ss := by
  match ss, hs with
  | t :: ss, hs =>
    rw [Stmt.allParts, List.mem_append] at hs
    rw [Stmt.allRows]
    rcases hs with hs | hs
    · obtain ⟨d, hd⟩ := exists_mem_rows h hs comments depth
      exact ⟨d, List.mem_append_left _ hd⟩
    · obtain ⟨d, hd⟩ := exists_mem_allRows h hs comments depth
      exact ⟨d, List.mem_append_right _ hd⟩

end

/-! ### Writing rows -/

/-- Writing from `b` to `b'` adds rows. -/
structure Writes (b b' : Buffer) (rows : List String) : Prop where
  depth : b'.depth = b.depth
  comments : b'.comments = b.comments
  laid : ∀ ls, b.Laid ls → b'.Laid (ls ++ rows)

namespace Writes

variable {b b' b'' : Buffer} {rs rs' : List String} {comments : Bool} {depth : Nat}

theorem refl (b : Buffer) : Writes b b [] := ⟨rfl, rfl, fun ls h => by rwa [List.append_nil]⟩

theorem trans (h : Writes b b' rs) (h' : Writes b' b'' rs') : Writes b b'' (rs ++ rs') :=
  ⟨h'.depth.trans h.depth, h'.comments.trans h.comments,
    fun ls hb => by rw [← List.append_assoc]; exact h'.laid _ (h.laid ls hb)⟩

theorem line (hcode : Whole code) (hdepth : b.depth = depth) :
    Writes b (b.line code) [indented depth code] :=
  ⟨rfl, rfl, fun _ hb => hdepth ▸ hb.line hcode⟩

theorem comment {s : String} (hs : Whole ("/* " ++ s ++ " */")) (hcomments : b.comments = comments)
    (hdepth : b.depth = depth) :
    Writes b (b.comment s) (if comments then [indented depth ("/* " ++ s ++ " */")] else []) := by
  refine ⟨?_, ?_, fun _ hb => hdepth ▸ hcomments ▸ hb.comment hs⟩
  · unfold Buffer.comment
    split <;> rfl
  · unfold Buffer.comment
    split <;> rfl

theorem head {head : LoopHead} (hhead : Whole head.line) (hdepth : b.depth = depth) :
    Writes b (head.write b) [indented depth head.line] := by
  unfold LoopHead.write
  unfold LoopHead.line at hhead ⊢
  cases htext : head.text? with
  | none =>
    rw [htext] at hhead
    exact line hhead hdepth
  | some start =>
    rw [htext] at hhead
    exact ⟨rfl, rfl, fun _ hb => hdepth ▸ hb.openLine_line hhead⟩

theorem block (h : Writes b.beginBlock b' rs) : Writes b b'.endBlock rs := by
  refine ⟨?_, h.comments, fun ls hb => (h.laid ls hb.beginBlock).endBlock⟩
  show b'.depth - 1 = b.depth
  rw [h.depth]
  rfl

theorem dropEmpty (hcode : Whole code) (hdepth : b.depth = depth) (h : Writes (b.line code) b' rs) :
    Writes b (if b'.length = (b.line code).length then b'.removeLast 1 else b')
      (if rs = [] then [] else indented depth code :: rs) := by
  subst hdepth
  refine ⟨?_, ?_, fun ls hb => ?_⟩
  · split <;> exact h.depth
  · split <;> exact h.comments
  · have hline := hb.line hcode
    have hall := h.laid _ hline
    have hlength := hline.length_eq_iff hall
    by_cases hrs : rs = []
    · subst hrs
      rw [if_pos (hlength.2 rfl), if_pos rfl, List.append_nil]
      simpa using hall.removeLast 1
    · rw [if_neg fun e => hrs (hlength.1 e), if_neg hrs]
      rwa [List.append_assoc, List.singleton_append] at hall

end Writes

theorem Stmt.writes_of_code? (hcode : s.code? = some code) {b : Buffer} (h : ∀ l ∈ s.lines, Whole l)
    {comments : Bool} {depth : Nat} (hdepth : b.depth = depth) :
    Writes b (s.write b) (s.rows comments depth) := by
  rw [Stmt.lines_of_code? hcode, List.forall_mem_singleton] at h
  rw [Stmt.write_of_code? hcode, Stmt.rows_of_code? hcode]
  exact .line h hdepth

mutual

theorem Stmt.writes_rows (comments : Bool) (depth : Nat) : (s : Stmt) → (b : Buffer) →
    (∀ t ∈ s.parts, ∀ l ∈ t.lines, Whole l) → b.comments = comments → b.depth = depth →
    Writes b (s.write b) (s.rows comments depth)
  | mark kind node, b, h, hcomments, hdepth => by
    have hline : Whole (markLine kind node) := h _ (mem_parts_self _) _ (.head _)
    rw [Stmt.write, Stmt.rows, markLine_eq]
    exact .comment (markLine_eq kind node ▸ hline) hcomments hdepth
  | failed name node, b, h, _, hdepth => by
    have hlines := h _ (mem_parts_self _)
    rw [Stmt.write, Stmt.rows_failed]
    have hfirst := Writes.line (b := b) (hlines _ (.head _)) hdepth
    exact hfirst.trans (.line (hlines _ (.tail _ (.head _))) hdepth)
  | branch c onTrue onFalse, b, h, hcomments, hdepth => by
    have hlines := h _ (mem_parts_self _)
    rw [Stmt.parts, List.forall_mem_cons, List.forall_mem_append] at h
    have hopen := Writes.line (b := b) (hlines _ (.head _)) hdepth
    have htrue := (Stmt.writes_allRows comments (depth + 1) onTrue
      (b.line ("if (" ++ c.text ++ ") \x7b")).beginBlock h.2.1 hcomments
        (congrArg (· + 1) hdepth)).block
    rw [Stmt.write, Stmt.rows]
    -- of the buffer behind the first arm only depth and comments matter for the second
    generalize (Stmt.writeAll _ onTrue).endBlock = b₂ at htrue ⊢
    have hcomments₂ := htrue.comments.trans hcomments
    have hdepth₂ := htrue.depth.trans hdepth
    have hfalse := (Stmt.writes_allRows comments (depth + 1) onFalse
      (b₂.line "\x7d else \x7b").beginBlock h.2.2 hcomments₂ (congrArg (· + 1) hdepth₂)).block
    have hdrop := Writes.dropEmpty (hlines _ (.tail _ (.head _))) hdepth₂ hfalse
    refine hopen.trans
      ((htrue.trans hdrop).trans (.line (hlines _ (.tail _ (.tail _ (.head _)))) ?_))
    exact hdrop.depth.trans hdepth₂
  | loop head body, b, h, hcomments, hdepth => by
    have hlines := h _ (mem_parts_self _)
    rw [Stmt.parts, List.forall_mem_cons] at h
    have hhead := Writes.head (b := b) (hlines _ (.head _)) hdepth
    have hdepth' := hhead.depth.trans hdepth
    have hbody := (Stmt.writes_allRows comments (depth + 1) body (head.write b).beginBlock h.2
      (hhead.comments.trans hcomments) (congrArg (· + 1) hdepth')).block
    rw [Stmt.write, Stmt.rows]
    refine hhead.trans (hbody.trans (.line (hlines _ (.tail _ (.head _))) ?_))
    exact hbody.depth.trans hdepth'
  | declare .., b, h, _, hdepth | reserve .., b, h, _, hdepth | reserveArray .., b, h, _, hdepth
  | dimension _, b, h, _, hdepth | globalSize, b, h, _, hdepth | clearFlag, b, h, _, hdepth
  | raiseFlag, b, h, _, hdepth | guard .., b, h, _, hdepth | assign .., b, h, _, hdepth
  | ret _, b, h, _, hdepth | leave, b, h, _, hdepth =>
    Stmt.writes_of_code? rfl (h _ (mem_parts_self _)) hdepth

theorem Stmt.writes_allRows (comments : Bool) (depth : Nat) : (ss : List Stmt) → (b : Buffer) →
    (∀ t ∈ Stmt.allParts ss, ∀ l ∈ t.lines, Whole l) → b.comments = comments → b.depth = depth →
    Writes b (Stmt.writeAll b ss) (Stmt.allRows comments depth ss)
  | [], b, _, _, _ => by
    rw [Stmt.writeAll, Stmt.allRows]
    exact .refl b
  | s :: ss, b, h, hcomments, hdepth => by
    rw [Stmt.allParts, List.forall_mem_append] at h
    have hs := Stmt.writes_rows comments depth s b h.1 hcomments hdepth
    rw [Stmt.writeAll, Stmt.allRows]
    exact hs.trans (Stmt.writes_allRows comments depth ss _ h.2 (hs.comments.trans hcomments)
      (hs.depth.trans hdepth))

end

theorem Function.endsBy_header (f : Function) : EndsBy isCodeEnd f.header := by
  simp +decide [Function.header, callText]

/-- All lines of the text of a function are whole. -/
structure Function.Whole (f : Function) : Prop where
  header : Text.Whole f.header
  body : ∀ s ∈ Stmt.allParts f.body, ∀ l ∈ s.lines, Text.Whole l

theorem Function.laid_rows (h : f.Whole) (comments : Bool) :
    (f.write (.empty comments)).Laid (f.rows comments) := by
  have hopen : Text.Whole "\x7b" := ⟨by decide, by decide⟩
  have hclose : Text.Whole "\x7d" := ⟨by decide, by decide⟩
  have hstart : Writes (.empty comments) _ ([indented 0 f.header] ++ [indented 0 "\x7b"]) :=
    (Writes.line h.header rfl).trans (.line hopen rfl)
  have hbody := (Stmt.writes_allRows comments 1 f.body
    (((Buffer.empty comments).line f.header).line "\x7b").beginBlock h.body rfl rfl).block
  have hend : Writes _ _ [indented 0 "\x7d"] := .line hclose hbody.depth
  have hflush (l : String) : indented 0 l = l := by simp [indented, indentation]
  rw [hflush, hflush] at hstart
  rw [hflush] at hend
  exact ((hstart.trans hbody).trans hend).laid [] (laid_empty comments)

theorem Function.text_eq_unlines (h : f.Whole) (comments : Bool) :
    f.text comments = unlines (f.rows comments) :=
  (Function.laid_rows h comments).out

end Kernelwright.Code
