import Kernelwright.Proofs.Code.Spelling

/-!
# Words that no line has

A word without blanks and line feeds stands in a text only if it stands in a line that was written.
This goes for any lines, whole or not: what dropping the last line of a buffer leaves of a text are
pieces of its lines.
-/

namespace Kernelwright.Code

open Text

variable {w : String}
variable {s l : String} {f : Function}

/-- A buffer at the start of a line that holds no word `w`, and in which none can be under way. -/
structure Buffer.Mute (w : String) (b : Buffer) : Prop where
  atLineStart : b.atLineStart = true
  lacks : Lacks w b.out
  last : ∀ c ∈ b.out.toList.getLast?, c ∉ w.toList

/-- What a buffer writes and drops does not bring a word into it that is in no line. -/
structure Unbroken (w : String) : Prop where
  ne_nil : w.toList ≠ []
  blank : ' ' ∉ w.toList
  feed : '\n' ∉ w.toList

section

variable (hw : Unbroken w)
include hw

theorem Unbroken.lacks_of_forall (hs : ∀ c ∈ s.toList, c ∉ w.toList) : Lacks w s := by
  intro hin
  obtain ⟨c, hc⟩ := List.exists_mem_of_ne_nil _ hw.ne_nil
  exact hs c (hin.subset hc) hc

theorem Unbroken.lacks_feed : Lacks w "\n" := hw.lacks_of_forall (by simpa using hw.feed)

variable {b b' : Buffer} {code : String} {depth : Nat} {ls : List String}

theorem Unbroken.lacks_line (hs : Lacks w s) (hlast : ∀ c ∈ s.toList.getLast?, c ∉ w.toList)
    (hcode : Lacks w code) : Lacks w (s ++ code ++ "\n") :=
  (hs.append hcode (.inl hlast)).append hw.lacks_feed (.inr (by simpa using hw.feed))

theorem Unbroken.last_feed (s : String) : ∀ c ∈ (s ++ "\n").toList.getLast?, c ∉ w.toList := by
  simpa using hw.feed

theorem Unbroken.lacks_unlines (hls : ∀ l ∈ ls, Lacks w l) :
    Lacks w (unlines ls) ∧ ∀ c ∈ (unlines ls).toList.getLast?, c ∉ w.toList := by
  induction ls using List.reverseRecOn with
  | nil => exact ⟨hw.lacks_of_forall nofun, nofun⟩
  | append_singleton ls l ih =>
    rw [List.forall_mem_append, List.forall_mem_singleton] at hls
    obtain ⟨hlacks, hlast⟩ := ih hls.1
    rw [unlines_concat]
    exact ⟨hw.lacks_line hlacks hlast hls.2, hw.last_feed _⟩

theorem Unbroken.mute_of_out (h : b.Mute w) (hcode : Lacks w code) (hstart : b'.atLineStart = true)
    (hout : b'.out = b.out ++ Buffer.indentation depth ++ code ++ "\n") : b'.Mute w := by
  have hblank : ∀ c ∈ (Buffer.indentation depth).toList, c ∉ w.toList := by
    intro c hc
    rw [Buffer.indentation, String.toList_ofList] at hc
    rw [List.eq_of_mem_replicate hc]
    exact hw.blank
  have hindented : Lacks w (b.out ++ Buffer.indentation depth) :=
    h.lacks.append (hw.lacks_of_forall hblank) (.inl h.last)
  refine ⟨hstart, ?_, ?_⟩
  · rw [hout]
    refine hw.lacks_line hindented (fun c hc => ?_) hcode
    rw [Option.mem_def, String.toList_append, List.getLast?_append] at hc
    rcases Option.or_eq_some_iff.1 hc with hc | ⟨-, hc⟩
    · exact hblank c (List.mem_of_getLast? hc)
    · exact h.last c hc
  · rw [hout]
    exact hw.last_feed _

theorem Unbroken.mute_line (h : b.Mute w) (hcode : Lacks w code) : (b.line code).Mute w := by
  refine hw.mute_of_out h hcode rfl (?_ : _ = b.out ++ Buffer.indentation b.depth ++ code ++ "\n")
  rw [Buffer.line, h.atLineStart, if_pos rfl]

theorem Unbroken.mute_comment (h : b.Mute w) (hs : Lacks w ("/* " ++ s ++ " */")) :
    (b.comment s).Mute w := by
  unfold Buffer.comment
  split
  · refine hw.mute_of_out h hs rfl (?_ : _ = b.out ++ Buffer.indentation b.depth ++ _ ++ "\n")
    have hend : (" */\n" : String) = " */" ++ "\n" := rfl
    rw [hend]
    simp [String.append_assoc]
  · exact h

theorem Unbroken.mute_head {head : LoopHead} (h : b.Mute w) (hhead : Lacks w head.line) :
    (head.write b).Mute w := by
  unfold LoopHead.write
  unfold LoopHead.line at hhead
  cases htext : head.text? with
  | none =>
    rw [htext] at hhead
    exact hw.mute_line h hhead
  | some start =>
    rw [htext] at hhead
    refine hw.mute_of_out h hhead rfl (?_ : _ = b.out ++ Buffer.indentation b.depth ++ _ ++ "\n")
    simp [Buffer.line, Buffer.openLine, h.atLineStart, String.append_assoc]

omit hw in
theorem Buffer.Mute.beginBlock (h : b.Mute w) : b.beginBlock.Mute w := ⟨h.1, h.2, h.3⟩

omit hw in
theorem Buffer.Mute.endBlock (h : b.Mute w) : b.endBlock.Mute w := ⟨h.1, h.2, h.3⟩

omit hw in
theorem infix_of_mem_lines (hl : l ∈ lines s) : l.toList <:+: s.toList := by
  have hclose (current : List Char) : closeLine current <+: current.reverse := by
    unfold closeLine
    split
    · simp
    · exact List.prefix_refl _
  have hfrom (cs current : List Char) : ∀ l ∈ linesFrom current cs,
      l <:+: current.reverse ++ cs := by
    induction cs generalizing current with
    | nil =>
      intro l hl
      rw [linesFrom] at hl
      split at hl
      · cases hl
      · cases List.mem_singleton.1 hl
        simp
    | cons c cs ih =>
      intro l hl
      by_cases hc : c = '\n'
      · subst hc
        rw [linesFrom] at hl
        rcases List.mem_cons.1 hl with rfl | hl
        · exact (hclose current).isInfix.trans (List.prefix_append ..).isInfix
        · have hrest := ih [] l hl
          rw [List.reverse_nil, List.nil_append] at hrest
          exact hrest.trans ⟨current.reverse ++ ['\n'], [], by simp⟩
      · rw [linesFrom] at hl
        · simpa using ih (c :: current) l hl
        · exact hc
  obtain ⟨cs, hcs, rfl⟩ := List.mem_map.1 hl
  rw [String.toList_ofList]
  exact hfrom s.toList [] cs hcs

theorem Unbroken.mute_removeLast (h : b.Mute w) (n : Nat) : (b.removeLast n).Mute w := by
  -- a line that is left stands in the text that it was cut from
  have hlines : ∀ l ∈ (lines b.out).take ((lines b.out).length - n), Lacks w l :=
    fun l hl hin => h.lacks (hin.trans (infix_of_mem_lines (List.mem_of_mem_take hl)))
  obtain ⟨hlacks, hlast⟩ := hw.lacks_unlines hlines
  exact ⟨rfl, hlacks, hlast⟩

end

mutual

theorem Unbroken.mute_write (hw : Unbroken w) : (s : Stmt) → (b : Buffer) →
    (∀ t ∈ s.parts, ∀ l ∈ t.lines, Lacks w l) → b.Mute w → (s.write b).Mute w
  | .mark kind node, b, h, hb => by
    rw [Stmt.write]
    exact hw.mute_comment hb (markLine_eq kind node ▸ h _ (Stmt.mem_parts_self _) _ (.head _))
  | .failed name node, b, h, hb => by
    have hlines := h _ (Stmt.mem_parts_self _)
    rw [Stmt.write]
    exact hw.mute_line (hw.mute_line hb (hlines _ (.head _))) (hlines _ (.tail _ (.head _)))
  | .branch c onTrue onFalse, b, h, hb => by
    have hlines := h _ (Stmt.mem_parts_self _)
    rw [Stmt.parts, List.forall_mem_cons, List.forall_mem_append] at h
    rw [Stmt.write]
    have hopen := hw.mute_line hb (hlines _ (.head _))
    have htrue := hw.mute_writeAll onTrue _ h.2.1 hopen.beginBlock
    have helse := hw.mute_line htrue.endBlock (hlines _ (.tail _ (.head _)))
    have hfalse := hw.mute_writeAll onFalse _ h.2.2 helse.beginBlock
    refine hw.mute_line ?_ (hlines _ (.tail _ (.tail _ (.head _))))
    split
    · exact hw.mute_removeLast hfalse.endBlock 1
    · exact hfalse.endBlock
  | .loop head body, b, h, hb => by
    have hlines := h _ (Stmt.mem_parts_self _)
    rw [Stmt.parts, List.forall_mem_cons] at h
    rw [Stmt.write]
    have hopen := hw.mute_head hb (hlines _ (.head _))
    have hbody := hw.mute_writeAll body _ h.2 hopen.beginBlock
    exact hw.mute_line hbody.endBlock (hlines _ (.tail _ (.head _)))
  | .declare .., b, h, hb | .reserve .., b, h, hb | .reserveArray .., b, h,
      hb | .dimension _, b, h, hb
  | .globalSize, b, h, hb | .clearFlag, b, h, hb | .raiseFlag, b, h, hb | .guard .., b, h, hb
  | .assign .., b, h, hb | .ret _, b, h, hb | .leave, b, h, hb => by
    rw [Stmt.write]
    exact hw.mute_line hb (h _ (Stmt.mem_parts_self _) _ (.head _))

theorem Unbroken.mute_writeAll (hw : Unbroken w) : (ss : List Stmt) → (b : Buffer) →
    (∀ t ∈ Stmt.allParts ss, ∀ l ∈ t.lines, Lacks w l) → b.Mute w → (Stmt.writeAll b ss).Mute w
  | [], b, _, hb => by
    rw [Stmt.writeAll]
    exact hb
  | s :: ss, b, h, hb => by
    rw [Stmt.allParts, List.forall_mem_append] at h
    rw [Stmt.writeAll]
    exact hw.mute_writeAll ss _ h.2 (hw.mute_write s b h.1 hb)

end

theorem Unbroken.lacks_text (hw : Unbroken w) (hheader : Lacks w f.header)
    (hbody : ∀ s ∈ Stmt.allParts f.body, ∀ l ∈ s.lines, Lacks w l) (hbraces : Lacks w "\x7b\x7d")
    (comments : Bool) : Lacks w (f.text comments) := by
  have hopen : Lacks w "\x7b" := fun h => hbraces (h.trans ⟨[], ['\x7d'], rfl⟩)
  have hclose : Lacks w "\x7d" := fun h => hbraces (h.trans ⟨['\x7b'], [], rfl⟩)
  have hempty : (Buffer.empty comments).Mute w := ⟨rfl, hw.lacks_of_forall nofun, nofun⟩
  have hstart := hw.mute_line (hw.mute_line hempty hheader) hopen
  have hwritten := hw.mute_writeAll f.body _ hbody hstart.beginBlock
  exact (hw.mute_line hwritten.endBlock hclose).lacks

/-! ### Words that lines have -/

theorem holds_unlines {ls : List String} (hl : l ∈ ls) (h : Holds l w) : Holds (unlines ls) w := by
  obtain ⟨before, after, rfl⟩ := List.append_of_mem hl
  refine h.trans ⟨(unlines before).toList, '\n' :: (unlines after).toList, ?_⟩
  simp [toList_unlines]

/-- What stands in the line of a statement stands in the text, as whole lines are never lost. -/
theorem Function.holds_text (hf : f.Whole) {s : Stmt} {code : String}
    (hs : s ∈ Stmt.allParts f.body)
    (hcode : s.code? = some code) (h : Holds code w) (comments : Bool) :
    Holds (f.text comments) w := by
  obtain ⟨depth, hrow⟩ := Stmt.exists_mem_allRows hcode hs comments 1
  rw [Function.text_eq_unlines hf]
  refine holds_unlines (List.mem_append_left _ (List.mem_append_right _ hrow)) (h.trans ?_)
  rw [Buffer.indented, String.toList_append]
  exact (List.suffix_append ..).isInfix

end Kernelwright.Code
