import Kernelwright.Proofs.Lowering.Comments

/-!
# Balanced text

Blocks are opened and closed by lines of their own, and the line between two arms is taken back
where the second one writes nothing. Still the braces of every text match, since there are none but
those of blocks and guards. While lowering goes on, a control node leaves the block, the scopes and
the loops in which it was met.
-/

namespace Kernelwright

namespace Text

/-- The braces of a text lead from one depth to another, and no beginning of it closes more than is
open. -/
structure Climbs (s : String) (d e : Nat) : Prop where
  total : s.toList.count '\x7b' + d = s.toList.count '\x7d' + e
  opened : ∀ p ∈ s.toList.inits, p.count '\x7d' ≤ p.count '\x7b' + d

/-- Braces match. -/
abbrev Balanced (s : String) : Prop := Climbs s 0 0

instance (s : String) (d e : Nat) : Decidable (Climbs s d e) :=
  decidable_of_iff (_ ∧ _) ⟨fun h => ⟨h.1, h.2⟩, fun h => ⟨h.total, h.opened⟩⟩

variable {s t : String} {d e k : Nat}

namespace Climbs

theorem append (h : Climbs s d e) (h' : Climbs t e k) : Climbs (s ++ t) d k := by
  constructor
  · have htotal := h.total
    have htotal' := h'.total
    simp only [String.toList_append, List.count_append]
    omega
  · intro p hp
    rw [String.toList_append, List.mem_inits] at hp
    -- a beginning ends in the first text, or it is all of that and a beginning of the second
    rcases List.prefix_or_prefix_of_prefix hp
      (List.prefix_append s.toList t.toList) with hp' | ⟨q, rfl⟩
    · exact h.opened p ((List.mem_inits ..).2 hp')
    · have hq := h'.opened q ((List.mem_inits ..).2 ((List.prefix_append_right_inj _).1 hp))
      have htotal := h.total
      simp only [List.count_append]
      omega

/-- What is balanced is so at every depth. -/
theorem lift (h : Balanced s) : Climbs s d d := by
  refine ⟨?_, fun p hp => Nat.le_trans (h.opened p hp) (Nat.add_le_add_left (Nat.zero_le d) _)⟩
  have htotal := h.total
  omega

theorem of_lacks (hopen : Lacks "\x7b" s) (hclose : Lacks "\x7d" s) : Balanced s := by
  have hnone {p : List Char} (hp : p <+: s.toList) : p.count '\x7b' = 0 ∧ p.count '\x7d' = 0 :=
    ⟨List.count_eq_zero.2 fun h => hopen.not_mem rfl (hp.subset h),
      List.count_eq_zero.2 fun h => hclose.not_mem rfl (hp.subset h)⟩
  refine ⟨?_, fun p hp => ?_⟩
  · rw [(hnone (List.prefix_refl _)).1, (hnone (List.prefix_refl _)).2]
  · rw [(hnone ((List.mem_inits ..).1 hp)).2]
    exact Nat.zero_le _

end Climbs

end Text

namespace Code

open Text

variable {s : Stmt} {ss : List Stmt} {code : String} {rs rs' : List String} {d e k : Nat}

/-! ### Rows -/

theorem climbs_row (depth : Nat) (h : Climbs code d e) :
    Climbs (unlines [Buffer.indented depth code]) d e := by
  have hindent : Balanced (Buffer.indentation depth) := by
    have hblank (c : Char) (hc : c ∈ (Buffer.indentation depth).toList) : c = ' ' := by
      rw [Buffer.indentation, String.toList_ofList] at hc
      exact List.eq_of_mem_replicate hc
    refine .of_lacks (fun hin => ?_) fun hin => ?_
    · cases hblank _ (hin.subset (.head _))
    · cases hblank _ (hin.subset (.head _))
  have hfeed : Balanced "\n" := by decide
  rw [← List.nil_append [_], unlines_concat]
  exact ((Climbs.lift (s := unlines []) (by decide)).append (hindent.lift.append h)).append
    hfeed.lift

theorem climbs_rows (h : Climbs (unlines rs) d e) (h' : Climbs (unlines rs') e k) :
    Climbs (unlines (rs ++ rs')) d k := by
  rw [unlines_append]
  exact h.append h'

/-- The first line of a block opens it, and all other lines are balanced. -/
def Stmt.Braces : Stmt → Prop
  | branch c _ _ => Balanced c.text
  | loop head _ => Climbs head.line 0 1
  | s => ∀ l ∈ s.lines, Balanced l

theorem Stmt.balanced_lines (depth : Nat) {ls : List String} (h : ∀ l ∈ ls, Balanced l) :
    Balanced (unlines (ls.map (Buffer.indented depth))) := by
  induction ls with
  | nil => exact (by decide : Balanced (unlines []))
  | cons l ls ih =>
    obtain ⟨hl, hls⟩ := List.forall_mem_cons.1 h
    exact climbs_rows (climbs_row depth hl) (ih hls)

mutual

theorem Stmt.balanced_rows (comments : Bool) :
    (s : Stmt) → (depth : Nat) → (∀ t ∈ s.parts, t.Braces) →
    Balanced (unlines (s.rows comments depth))
  | mark kind node, depth, h => by
    have hline : Balanced (markLine kind node) := h _ (mem_parts_self _) _ (.head _)
    rw [Stmt.rows]
    split
    · exact climbs_row depth hline
    · decide
  | failed name node, depth, h => by
    rw [Stmt.rows_failed]
    exact balanced_lines depth (h _ (mem_parts_self _))
  | branch c onTrue onFalse, depth, h => by
    rw [Stmt.parts, List.forall_mem_cons, List.forall_mem_append] at h
    obtain ⟨hc, htrue, hfalse⟩ := h
    have hopen : Climbs ("if (" ++ c.text ++ ") \x7b") 0 1 :=
      ((by decide : Balanced "if (").append hc).append (by decide)
    have hbetween : Climbs "\x7d else \x7b" 1 1 := by decide
    have hclose : Climbs "\x7d" 1 0 := by decide
    have harm := (balanced_allRows comments onFalse (depth + 1) hfalse).lift (d := 1)
    rw [Stmt.rows]
    refine climbs_rows (climbs_row depth hopen) (climbs_rows (climbs_rows
      (balanced_allRows comments onTrue (depth + 1) htrue).lift ?_) (climbs_row depth hclose))
    split
    · exact (by decide : Balanced (unlines [])).lift
    · exact climbs_rows (climbs_row depth hbetween) harm
  | loop head body, depth, h => by
    rw [Stmt.parts, List.forall_mem_cons] at h
    have hclose : Climbs "\x7d" 1 0 := by decide
    rw [Stmt.rows]
    exact climbs_rows (climbs_row depth h.1)
      (climbs_rows (balanced_allRows comments body (depth + 1) h.2).lift (climbs_row depth hclose))
  | declare .., depth, h | reserve .., depth, h | reserveArray .., depth, h | dimension _, depth, h
  | globalSize, depth, h | clearFlag, depth, h | raiseFlag, depth, h | guard .., depth, h
  | assign .., depth, h | ret _, depth, h | leave, depth, h => by
    rw [Stmt.rows_of_code? rfl]
    exact climbs_row depth (h _ (mem_parts_self _) _ (.head _))

theorem Stmt.balanced_allRows (comments : Bool) : (ss : List Stmt) → (depth : Nat) →
    (∀ t ∈ Stmt.allParts ss, t.Braces) → Balanced (unlines (Stmt.allRows comments depth ss))
  | [], _, _ => by
    rw [Stmt.allRows]
    decide
  | s :: ss, depth, h => by
    rw [Stmt.allParts, List.forall_mem_append] at h
    rw [Stmt.allRows]
    exact climbs_rows (balanced_rows comments s depth h.1) (balanced_allRows comments ss depth h.2)

end

theorem Function.balanced_text {f : Function} (hwhole : f.Whole) (hheader : Balanced f.header)
    (hbody : ∀ s ∈ Stmt.allParts f.body, s.Braces) (comments : Bool) :
    Balanced (f.text comments) := by
  have hflush (l : String) : Buffer.indented 0 l = l := by
    simp [Buffer.indented, Buffer.indentation]
  have hrow {l : String} {d e : Nat} (h : Climbs l d e) : Climbs (unlines [l]) d e :=
    hflush l ▸ climbs_row 0 h
  have hopen : Climbs "\x7b" 0 1 := by decide
  have hclose : Climbs "\x7d" 1 0 := by decide
  have hstart : Climbs (unlines ([f.header] ++ ["\x7b"])) 0 1 :=
    climbs_rows (hrow hheader) (hrow hopen)
  rw [Function.text_eq_unlines hwhole]
  exact climbs_rows (climbs_rows hstart (Stmt.balanced_allRows comments f.body 1 hbody).lift)
    (hrow hclose)

/-- There are no other braces if none come from outside. -/
theorem Stmt.braces_of_words (hmark : ∀ kind id, s = .mark kind id → ∃ k : NodeKind, kind = k.name)
    (hopen : ∀ u ∈ s.words, Lacks "\x7b" u) (hclose : ∀ u ∈ s.words, Lacks "\x7d" u) :
    s.Braces := by
  have hwo : Foreign "\x7b" := .inr (.inr (.inl rfl))
  have hwc : Foreign "\x7d" := .inr (.inr (.inr rfl))
  have hname (x : Name) : Balanced x.text :=
    .of_lacks (lacks_name hwo (.inl (by decide))) (lacks_name hwc (.inl (by decide)))
  cases hs : s.hasBraces with
  | false =>
    have hlines : ∀ l ∈ s.lines, Balanced l := fun l hl =>
      .of_lacks (Stmt.lacks_lines hwo (.inr hs) hmark (.inl (by decide)) hopen l hl)
        (Stmt.lacks_lines hwc (.inr hs) hmark (.inl (by decide)) hclose l hl)
    cases s with
    | branch | loop => cases hs
    | _ => exact hlines
  | true =>
    cases s with
    | guard c negated =>
      refine List.forall_mem_singleton.2 ?_
      have htest : Balanced ("if (" ++ if negated then "" else "!") := by cases negated <;> decide
      have hinside : Climbs (") \x7b " ++ raiseText) 0 1 := by decide
      have hall := ((htest.append (hname c)).append hinside).append (by decide : Climbs " \x7d" 1 0)
      rwa [← String.append_assoc] at hall
    | branch c => exact hname c
    | loop head =>
      show Climbs head.line 0 1
      unfold LoopHead.line
      cases hstart : head.text? with
      | none => decide
      | some start =>
        have hfirst : Balanced start := .of_lacks
          (lacks_start hwo (.inl (by decide)) (.inl (by decide)) start hstart)
          (lacks_start hwc (.inl (by decide)) (.inl (by decide)) start hstart)
        exact (hfirst.append (by decide : Balanced " ")).append (by decide)
    | _ => cases hs

/-! ### Buffers -/

mutual

theorem Stmt.depth_write : (s : Stmt) → (b : Buffer) → (s.write b).depth = b.depth
  | mark .., b => by
    rw [Stmt.write, Buffer.comment]
    split <;> rfl
  | branch c onTrue onFalse, b => by
    rw [Stmt.write]
    show (if _ then _ else _ : Buffer).depth = b.depth
    split <;> simp [Buffer.removeLast, Buffer.endBlock, Buffer.beginBlock, Buffer.line,
      depth_writeAll]
  | loop head body, b => by
    have hhead : (head.write b).depth = b.depth := by
      unfold LoopHead.write
      cases head.text? <;> rfl
    simp [Stmt.write, Buffer.endBlock, Buffer.beginBlock, Buffer.line, depth_writeAll, hhead]
  | failed .., b | declare .., b | reserve .., b | reserveArray .., b | dimension _,
      b | globalSize, b
  | clearFlag, b | raiseFlag, b | guard .., b | assign .., b | ret _, b | leave, b => by
    rw [Stmt.write]
    rfl

theorem Stmt.depth_writeAll : (ss : List Stmt) → (b : Buffer) → (Stmt.writeAll b ss).depth = b.depth
  | [], _ => by rw [Stmt.writeAll]
  | s :: ss, b => by rw [Stmt.writeAll, depth_writeAll ss, depth_write s]

end

end Code

namespace Lowering

open Code

/-- The names of built-in functions and unsupported nodes, which are printed as they are, hold
neither line feeds nor braces. -/
def Tame (g : Graph) : Prop := g.PrintsLack "\n" ∧ g.PrintsLack "\x7b" ∧ g.PrintsLack "\x7d"

theorem depth_eq_length {t : SymbolTable Name} : t.depth = t.scopes.length := by
  simp [SymbolTable.depth, SymbolTable.scopes]

/-- The braces of each function text match. Whatever is being lowered, the lowering of a control
node and of all after it leaves the loops and the number of scopes as they were. It adds statements
to the block in which it began, and they are written at the depth at which it was. -/
theorem text_balanced_and_scopes_restored {g : Graph} {nested : List Graph}
    {guards : Bool} {b : Bundle}
    (hnames : ∀ l ∈ g :: nested, Tame l) (h : lowerLambda g nested guards = .ok b) :
    (∀ f ∈ b.functions, ∀ comments, Text.Balanced (f.text comments)) ∧
    ∀ site callers calls depth length id p x p',
      lowerWalk site (lowerValue site (g :: nested)
        (functionFor (g :: nested) callers (lowerBundle (g :: nested) guards calls)) depth) length
        id p = .ok (x, p') → p'.loops = p.loops ∧ p'.symbols.depth = p.symbols.depth ∧
      ∃ ss, p'.block = ss ++ p.block ∧ ∀ buffer,
        (Stmt.writeAll buffer ss.reverse).depth = buffer.depth := by
  constructor
  · intro f hf comments
    have hvouched {w : String} (hw : Text.Foreign w) (hother : w ≠ "ILLEGAL")
        (hlacks : ∀ l ∈ g :: nested, l.PrintsLack w) :
        Vouched (g :: nested) guards (Text.Lacks w) b.diagnostics f :=
      lowerLambda_vouched (coversAll_lacks hw hlacks (.inl hother)) h f hf
    have hfeed := hvouched (.inr (.inl rfl)) (by decide) fun l hl => (hnames l hl).1
    obtain ⟨l, -, hwatched, hopen⟩ :=
      hvouched (.inr (.inr (.inl rfl))) (by decide) fun l hl => (hnames l hl).2.1
    obtain ⟨l', -, -, hclose⟩ :=
      hvouched (.inr (.inr (.inr rfl))) (by decide) fun l hl => (hnames l hl).2.2
    have hwatched := hwatched _ (List.Subset.refl _)
    refine Function.balanced_text hfeed.whole (.of_lacks
      (hwatched.lacks_header (.inr (.inr (.inl rfl))) (.inl (by decide)))
      (hwatched.lacks_header (.inr (.inr (.inr rfl))) (.inl (by decide)))) (fun s hs => ?_) comments
    exact Stmt.braces_of_words (hopen s hs).mark (hopen s hs).words (hclose s hs).words
  · intro site callers calls depth length id p x p' hwalk
    let w : Bench := ⟨site, g :: nested, callers, lowerBundle (g :: nested) guards calls, true⟩
    have hvalue := lowerValue_works (w := w) (Bench.supplied_of_lower rfl) [] depth
    have hkeeps := (lowerWalk_works hvalue rfl length none id trivial hwalk).1.keeps
    refine ⟨hkeeps.loops, ?_, ?_⟩
    · rw [depth_eq_length, depth_eq_length]
      have htail := congrArg List.length hkeeps.tail
      simpa [SymbolTable.scopes] using htail
    · obtain ⟨ss, hss⟩ := hkeeps.block
      exact ⟨ss, hss.symm, Stmt.depth_writeAll _⟩

/-- The braces of a branch match whether its second arm is written or taken back. -/
theorem gate_text_balanced : (∀ l ∈ [gate], Tame l) ∧ ∃ b, lowerLambda gate [] true = .ok b ∧
    (∃ f ∈ b.functions, f.text true ≠ f.text false) ∧
    ∀ f ∈ b.functions, ∀ comments, Text.Balanced (f.text comments) := by
  have hnames : ∀ l ∈ [gate], Tame l := by
    simp [Tame, Graph.PrintsLack, gate, Graph.ofKinds, NodeKind.printedNames]
  refine ⟨hnames, exists_ok_and (by decide +kernel) fun b hb _ => ?_⟩
  exact (text_balanced_and_scopes_restored hnames hb).1

end Lowering

end Kernelwright
