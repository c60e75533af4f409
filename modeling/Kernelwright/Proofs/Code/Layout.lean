import Kernelwright.Code.Buffer

/-!
# Buffers as lists of lines

A buffer that is written line by line is a list of lines. A line is whole if it holds no line feed
of its own and no carriage return at its end; of whole lines, cutting the text at its line breaks
gives the lines back. This is what dropping the last line of a buffer rests on.
-/

namespace Kernelwright

variable {l : String}

namespace Text

variable {m : String} {cs : List Char}

/-- A line that ends where a line feed is put behind it, and not before. -/
def Whole (l : String) : Prop := '\n' ∉ l.toList ∧ l.toList.getLast? ≠ some '\r'

theorem Whole.append (hl : '\n' ∉ l.toList) (hm : Whole m) (hne : m ≠ "") : Whole (l ++ m) := by
  constructor
  · simp [hl, hm.1]
  · have hlast : m.toList.getLast?.isSome = true := by simp [hne]
    rw [String.toList_append, List.getLast?_append, Option.or_of_isSome hlast]
    exact hm.2

theorem unlines_concat (ls : List String) (l : String) :
    unlines (ls ++ [l]) = unlines ls ++ l ++ "\n" := by
  simp [unlines]

theorem toList_unlines (ls : List String) :
    (unlines ls).toList = ls.flatMap fun l => l.toList ++ ['\n'] := by
  have hfold : ∀ (ls : List String) (text : String),
      (ls.foldl (fun text line => text ++ line ++ "\n") text).toList
        = text.toList ++ ls.flatMap fun l => l.toList ++ ['\n'] := by
    intro ls
    induction ls with
    | nil => simp
    | cons l ls ih =>
      intro text
      rw [List.foldl_cons, ih]
      simp
  exact hfold ls ""

theorem unlines_append (ls ms : List String) : unlines (ls ++ ms) = unlines ls ++ unlines ms := by
  apply String.toList_inj.1
  simp [toList_unlines]

theorem closeLine_reverse (h : cs.getLast? ≠ some '\r') : closeLine cs.reverse = cs := by
  unfold closeLine
  split
  · next rest hrest =>
    rw [← List.head?_reverse, hrest] at h
    exact absurd rfl h
  · exact List.reverse_reverse cs

theorem linesFrom_append {current rest : List Char} (h : '\n' ∉ cs) :
    linesFrom current (cs ++ '\n' :: rest) = closeLine (cs.reverse ++ current) ::
      linesFrom [] rest := by
  induction cs generalizing current with
  | nil => rfl
  | cons c cs ih =>
    have hc : c ≠ '\n' := fun e => h (e ▸ List.mem_cons_self)
    have hcs : '\n' ∉ cs := fun e => h (List.mem_cons_of_mem c e)
    rw [List.cons_append, linesFrom]
    · rw [ih hcs, List.reverse_cons, List.append_assoc]
      rfl
    · exact hc

theorem lines_unlines {ls : List String} (h : ∀ l ∈ ls, Whole l) : lines (unlines ls) = ls := by
  rw [lines, toList_unlines]
  induction ls with
  | nil => rfl
  | cons l ls ih =>
    have hl := h l List.mem_cons_self
    have hls := ih fun m hm => h m (List.mem_cons_of_mem l hm)
    rw [List.flatMap_cons, List.append_assoc, List.singleton_append, linesFrom_append hl.1,
      List.append_nil, closeLine_reverse hl.2, List.map_cons, hls, String.ofList_toList]

end Text

namespace Code.Buffer

open Text

variable {code : String} {b' : Buffer} {new : List String}

/-- The text of a line at a depth. -/
def indented (depth : Nat) (code : String) : String := indentation depth ++ code

theorem whole_indented (depth : Nat) (hcode : Whole code) : Whole (indented depth code) := by
  have hblank : Whole (indentation depth) :=
    ⟨by simp [indentation], fun h => by simpa [indentation] using List.mem_of_getLast? h⟩
  by_cases hne : code = ""
  · subst hne
    rwa [indented, String.append_empty]
  · exact hcode.append hblank.1 hne

/-! ### Whole lines -/

/-- A buffer at the start of a line that holds whole lines. -/
structure Laid (b : Buffer) (ls : List String) : Prop where
  atLineStart : b.atLineStart = true
  out : b.out = unlines ls
  whole : ∀ l ∈ ls, Whole l

variable {b : Buffer} {ls : List String}

theorem laid_empty (comments : Bool) : Laid (empty comments) [] := ⟨rfl, rfl, nofun⟩

section

variable (h : b.Laid ls)
include h

theorem Laid.beginBlock : b.beginBlock.Laid ls := ⟨h.1, h.2, h.3⟩

theorem Laid.endBlock : b.endBlock.Laid ls := ⟨h.1, h.2, h.3⟩

theorem Laid.line (hcode : Whole code) : (b.line code).Laid (ls ++ [indented b.depth code]) := by
  refine ⟨rfl, ?_, List.forall_mem_append.2 ⟨h.whole, ?_⟩⟩
  · rw [unlines_concat, ← h.out, indented]
    simp [Buffer.line, h.atLineStart, String.append_assoc]
  · exact List.forall_mem_singleton.2 (whole_indented b.depth hcode)

theorem Laid.openLine_line {start : String} (hcode : Whole (start ++ " " ++ code)) :
    ((b.openLine start).line code).Laid (ls ++ [indented b.depth (start ++ " " ++ code)]) := by
  refine ⟨rfl, ?_, List.forall_mem_append.2 ⟨h.whole, ?_⟩⟩
  · rw [unlines_concat, ← h.out, indented]
    simp [Buffer.line, Buffer.openLine, h.atLineStart, String.append_assoc]
  · exact List.forall_mem_singleton.2 (whole_indented b.depth hcode)

theorem Laid.comment {s : String} (hs : Whole ("/* " ++ s ++ " */")) :
    (b.comment s).Laid (ls ++ if b.comments then [indented b.depth ("/* " ++ s ++ " */")]
      else []) := by
  unfold Buffer.comment
  split
  · refine ⟨rfl, ?_, List.forall_mem_append.2 ⟨h.whole, ?_⟩⟩
    · have hend : (" */\n" : String) = " */" ++ "\n" := rfl
      rw [unlines_concat, ← h.out, indented, hend]
      simp [String.append_assoc]
    · exact List.forall_mem_singleton.2 (whole_indented b.depth hs)
  · rwa [List.append_nil]

theorem Laid.removeLast (n : Nat) : (b.removeLast n).Laid (ls.take (ls.length - n)) := by
  have hlines : lines b.out = ls := by rw [h.out, lines_unlines h.whole]
  refine ⟨rfl, ?_, fun m hm => h.whole m (List.mem_of_mem_take hm)⟩
  simp [Buffer.removeLast, hlines]

theorem Laid.length_eq_iff (h' : b'.Laid (ls ++ new)) : b'.length = b.length ↔ new = [] := by
  rw [Buffer.length, Buffer.length, h.out, h'.out, unlines_append, String.utf8ByteSize_append]
  constructor
  · intro hlength
    have hempty : unlines new = "" := by
      rw [← String.utf8ByteSize_eq_zero_iff]
      omega
    have hflat := congrArg String.toList hempty
    rw [toList_unlines] at hflat
    exact List.eq_nil_iff_forall_not_mem.2 (by simpa using hflat)
  · rintro rfl
    rfl

end

/-! ### Taking lines back -/

/-- A text of one line. -/
def Plain (s : String) : Prop := '\n' ∉ s.toList ∧ '\r' ∉ s.toList

theorem Plain.whole {s : String} (h : Plain s) : Whole s :=
  ⟨h.1, fun hlast => h.2 (List.mem_of_getLast? hlast)⟩

theorem Plain.append {s t : String} (hs : Plain s) (ht : Plain t) : Plain (s ++ t) := by
  simp_all [Plain]

/-- What can be done with a buffer; a line that is opened is completed at once. -/
inductive Edit where
  | line (code : String)
  | comment (s : String)
  | lineUnlessRepeated (code : String)
  | lineUnlessReturned (code : String)
  | joined (start code : String)
  | beginBlock
  | endBlock
  | removeLast (n : Nat)
deriving DecidableEq, Repr

namespace Edit

def apply (b : Buffer) : Edit → Buffer
  | line code => b.line code
  | comment s => b.comment s
  | lineUnlessRepeated code => b.lineUnlessRepeated code
  | lineUnlessReturned code => b.lineUnlessReturned code
  | joined start code => (b.openLine start).line code
  | beginBlock => b.beginBlock
  | endBlock => b.endBlock
  | removeLast n => b.removeLast n

def texts : Edit → List String
  | line code | comment code | lineUnlessRepeated code | lineUnlessReturned code => [code]
  | joined start code => [start, code]
  | beginBlock | endBlock | removeLast _ => []

/-- An edit with plain texts leaves whole lines. -/
theorem exists_laid {e : Edit} (h : b.Laid ls) (he : ∀ s ∈ e.texts, Plain s) :
    ∃ ms, (e.apply b).Laid ms := by
  cases e with
  | line code => exact ⟨_, h.line (he code (.head _)).whole⟩
  | comment s =>
    have hs : Plain ("/* " ++ s ++ " */") :=
      (Plain.append (by simp [Plain]) (he s (.head _))).append (by simp [Plain])
    exact ⟨_, h.comment hs.whole⟩
  | lineUnlessRepeated code =>
    rw [apply, Buffer.lineUnlessRepeated]
    split
    · exact ⟨ls, h⟩
    · exact ⟨_, h.line (he code (.head _)).whole⟩
  | lineUnlessReturned code =>
    rw [apply, Buffer.lineUnlessReturned]
    split
    · exact ⟨ls, h⟩
    · exact ⟨_, h.line (he code (.head _)).whole⟩
  | joined start code =>
    have hcode : Plain (start ++ " " ++ code) :=
      ((he start (.head _)).append (by simp [Plain])).append (he code (.tail _ (.head _)))
    exact ⟨_, h.openLine_line hcode.whole⟩
  | beginBlock => exact ⟨ls, h.beginBlock⟩
  | endBlock => exact ⟨ls, h.endBlock⟩
  | removeLast n => exact ⟨_, h.removeLast n⟩

/-- Edits with plain texts leave whole lines. -/
theorem exists_laid_foldl {edits : List Edit} (h : b.Laid ls)
    (hedits : ∀ e ∈ edits, ∀ s ∈ e.texts, Plain s) : ∃ ms, (edits.foldl apply b).Laid ms := by
  induction edits generalizing b ls with
  | nil => exact ⟨ls, h⟩
  | cons e edits ih =>
    obtain ⟨ms, hms⟩ := exists_laid h (hedits e (.head _))
    exact ih hms fun e he => hedits e (.tail _ he)

end Edit

/-- Lines of code are laid behind those that are there, one for each. -/
theorem Laid.foldl_line {codes : List String} (h : b.Laid ls) (hcodes : ∀ s ∈ codes, Plain s) :
    ∃ new, (codes.foldl Buffer.line b).Laid (ls ++ new) ∧ new.length = codes.length ∧
      (codes.foldl Buffer.line b).depth = b.depth := by
  induction codes generalizing b ls with
  | nil => exact ⟨[], by rwa [List.append_nil], rfl, rfl⟩
  | cons code codes ih =>
    obtain ⟨new, hlaid, hlength, hdepth⟩ :=
      ih (h.line (hcodes code (.head _)).whole) fun s hs => hcodes s (.tail _ hs)
    rw [List.append_assoc] at hlaid
    exact ⟨_, hlaid, congrArg Nat.succ hlength, hdepth⟩

/-- Lines of code that are taken back leave no trace. In any buffer that plain texts have been
written to, writing lines and removing as many gives back the text, with its length and depth; the
last line is then the last one of the text, trimmed. -/
theorem removeLast_takes_back (comments : Bool) (edits : List Edit) (codes : List String)
    (hedits : ∀ e ∈ edits, ∀ s ∈ e.texts, Plain s) (hcodes : ∀ s ∈ codes, Plain s) :
    let b := edits.foldl Edit.apply (empty comments)
    let b' := (codes.foldl Buffer.line b).removeLast codes.length
    b'.out = b.out ∧ b'.length = b.length ∧ b'.depth = b.depth ∧
    ∃ ls, b.out = unlines ls ∧ (∀ l ∈ ls, Whole l) ∧ b'.lastLine = ls.getLast?.elim "" trim := by
  intro b b'
  obtain ⟨ls, hls⟩ := Edit.exists_laid_foldl (laid_empty comments) hedits
  obtain ⟨new, hnew, hlength, hdepth⟩ := hls.foldl_line hcodes
  have htake : (ls ++ new).take ((ls ++ new).length - codes.length) = ls := by simp [← hlength]
  have hlaid : b'.Laid ls := htake ▸ hnew.removeLast codes.length
  have hout : b'.out = b.out := by rw [hlaid.out, hls.out]
  refine ⟨hout, congrArg String.utf8ByteSize hout, hdepth, ls, hls.out, hls.whole, ?_⟩
  have hlast : b'.lastLine = (lines b'.out).getLast?.elim "" trim := rfl
  rw [hlast, hlaid.out, lines_unlines hls.whole]

/-- A joined line is the last one that is left, behind a comment and a block. -/
theorem removeLast_takes_back_joined :
    let edits : List Edit := [.comment "entry", .joined "for ( ; ; )" "\x7b", .beginBlock]
    let b := edits.foldl Edit.apply (empty true)
    let b' := (["x = 1;", "return x;"].foldl Buffer.line b).removeLast 2
    b'.out = "/* entry */\nfor ( ; ; ) \x7b\n" ∧ b'.length = 26 ∧ b'.depth = 1 ∧
      b'.lastLine = "for ( ; ; ) \x7b" := by
  intro edits b b'
  have hmain :=
    removeLast_takes_back true edits ["x = 1;", "return x;"] (by simp [edits, Edit.texts, Plain])
    (by simp [Plain])
  exact ⟨hmain.1, hmain.2.1, hmain.2.2.1, by decide⟩

end Code.Buffer

end Kernelwright
