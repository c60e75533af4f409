import Kernelwright.Proofs.Lowering.Effects

/-!
# What the text consists of

A text holds marks, branches and loops, and all else in it was written by effects, each at a node
that is marked in the text. So what holds of all statements that can be written holds of the whole
text. An effect may be taken together with an invariant, which is anything that work keeps up.
-/

namespace Kernelwright.Lowering

open Code

namespace Bench

/-! ### Invariants -/

/-- What holds at the node that lowering is at goes on to hold, whatever is done there. -/
structure Invariant (w : Bench) (I : Option NodeId → Progress → Prop) : Prop where
  effect : ∀ {n p p'}, I n p → w.Effect n p p' → I n p'
  block : ∀ {n p} block loops, I n p → I n { p with block := block, loops := loops }
  enter : ∀ {n p}, I n p → I n { p with symbols := p.symbols.enter }
  exit : ∀ {n p p'}, I n p → I n p' → p'.symbols.scopes.tail = p.symbols.enter.scopes.tail →
    I n { p' with symbols := p'.symbols.exit }
  visit : ∀ {n p p' id kind}, I n p → w.kind? id = some kind → w.Done id kind p p' → I (some id) p
  leave : ∀ {n p p' id}, I n p → I (some id) p' → I n p'

section

variable {w : Bench} {I : Option NodeId → Progress → Prop} {n : Option NodeId} {p p' : Progress}

theorem Invariant.outside (hI : w.Invariant I) (hp : I n p) {block : List Stmt}
    {loops : List LoopFrame}
    (hwork : w.Work n { p with block := block, loops := loops, symbols := p.symbols.enter } p')
    (hp' : I n p') : I n { p' with symbols := p'.symbols.exit } :=
  hI.exit hp hp' hwork.keeps.tail

theorem Work.invariant (hI : w.Invariant I) (h : w.Work n p p') (hp : I n p) : I n p' := by
  induction h with
  | done => exact hp
  | effect heffect _ ih => exact ih (hI.effect hp heffect)
  | visit hkind _ hdone _ ihvisit ih =>
    exact ih (hI.leave hp (ihvisit (hI.block _ _ (hI.visit hp hkind hdone))))
  | branch _ _ _ _ _ _ iht ihf ih =>
    exact ih (hI.block _ _ (ihf (hI.block _ _ (iht (hI.block _ _ hp)))))
  | loop _ _ _ _ hbody _ ihbody ih =>
    exact ih (hI.block _ _ (hI.outside hp hbody (ihbody (hI.block _ _ (hI.enter hp)))))
  | scope _ hbody _ ihbody ih => exact ih (hI.outside hp hbody (ihbody (hI.enter hp)))

end

/-! ### Texts -/

/-- The statement is part of one that an effect writes, at the node that lowering is at or at one
that is marked in the text. -/
def Written (w : Bench) (I : Option NodeId → Progress → Prop) (n : Option NodeId) (ss : List Stmt)
    (s : Stmt) : Prop :=
  ∃ m p p' t, (m = n ∨ ∃ id ∈ Stmt.visited ss, m = some id) ∧ I m p ∧ w.Effect m p p' ∧
    p'.block = t :: p.block ∧ s ∈ t.parts

/-- What statements show: a node that is marked belongs to the graph, its lambda has a function, and
unless something is reported, its text is there. -/
structure Shows (w : Bench) (I : Option NodeId → Progress → Prop) (n : Option NodeId) (p : Progress)
    (ss : List Stmt) : Prop where
  known : ∀ id ∈ Stmt.visited ss, ∃ kind, w.kind? id = some kind
  listed : ∀ id ∈ Stmt.visited ss, ∀ lambda, w.site.graph.lambdaAt? id = some lambda →
    p.Lists (functionName lambda)
  performed : ∀ id ∈ Stmt.visited ss, ∀ kind, w.kind? id = some kind → p.diagnostics = [] →
    ∃ tt ⊆ Stmt.allParts ss, w.Performs id kind tt
  written : ∀ s ∈ Stmt.allParts ss, s.call? = none ∧ s.reads = [] ∨ w.Written I n ss s

section

variable {w : Bench} {I : Option NodeId → Progress → Prop} {n : Option NodeId} {p p' : Progress}
variable {ss ss' : List Stmt}

theorem Shows.nil : w.Shows I n p [] := by
  constructor <;> simp [Stmt.visited]

theorem Shows.mono (h : w.Shows I n p ss) (hfunctions : ∀ name, p.Lists name → p'.Lists name)
    (hdiagnostics : p.diagnostics <+: p'.diagnostics) : w.Shows I n p' ss where
  known := h.known
  listed id hid lambda hlambda := hfunctions _ (h.listed id hid lambda hlambda)
  performed id hid kind hkind hnone :=
    h.performed id hid kind hkind (List.prefix_nil.1 (hnone ▸ hdiagnostics))
  written := h.written

theorem Shows.of_blocks (blocks : List (List Stmt))
    (hvisited : Stmt.visited ss = blocks.flatMap Stmt.visited)
    (hparts : ∀ s, s ∈ Stmt.allParts ss → (s.call? = none ∧ s.reads = []) ∨
      ∃ block ∈ blocks, s ∈ Stmt.allParts block)
    (hsub : ∀ block ∈ blocks, Stmt.allParts block ⊆ Stmt.allParts ss)
    (h : ∀ block ∈ blocks, w.Shows I n p block) : w.Shows I n p ss where
  known id hid := by
    rw [hvisited] at hid
    obtain ⟨block, hblock, hid⟩ := List.mem_flatMap.1 hid
    exact (h block hblock).known id hid
  listed id hid := by
    rw [hvisited] at hid
    obtain ⟨block, hblock, hid⟩ := List.mem_flatMap.1 hid
    exact (h block hblock).listed id hid
  performed id hid kind hkind hnone := by
    rw [hvisited] at hid
    obtain ⟨block, hblock, hid⟩ := List.mem_flatMap.1 hid
    obtain ⟨tt, htt, hperforms⟩ := (h block hblock).performed id hid kind hkind hnone
    exact ⟨tt, List.Subset.trans htt (hsub block hblock), hperforms⟩
  written s hs := by
    obtain hs | ⟨block, hblock, hs⟩ := hparts s hs
    · exact .inl hs
    · refine ((h block hblock).written s hs).imp_right ?_
      rintro ⟨m, q, q', t, hm, hrest⟩
      refine ⟨m, q, q', t, hm.imp_right ?_, hrest⟩
      rintro ⟨id, hid, hm⟩
      exact ⟨id, hvisited ▸ List.mem_flatMap.2 ⟨block, hblock, hid⟩, hm⟩

theorem Shows.append (h : w.Shows I n p ss) (h' : w.Shows I n p ss') :
    w.Shows I n p (ss ++ ss') := by
  refine .of_blocks [ss, ss'] (by simp) (fun s hs => ?_) ?_ (by simpa using ⟨h, h'⟩)
  · exact .inr (by simpa [Stmt.allParts_append] using hs)
  · simp [Stmt.allParts_append]

theorem Shows.branch (c : Name) (h : w.Shows I n p ss) (h' : w.Shows I n p ss') :
    w.Shows I n p [.branch c ss ss'] := by
  refine .of_blocks [ss, ss'] (by simp) (fun s hs => ?_) ?_ (by simpa using ⟨h, h'⟩)
  · rw [Stmt.allParts_branch] at hs
    obtain rfl | hs := List.mem_cons.1 hs
    · exact .inl ⟨rfl, rfl⟩
    · exact .inr (by simpa using hs)
  · simp [Stmt.allParts_branch]

theorem Shows.loop (head : LoopHead) (h : w.Shows I n p ss) : w.Shows I n p [.loop head ss] := by
  refine .of_blocks [ss] (by simp) (fun s hs => ?_) ?_ (by simpa using h)
  · rw [Stmt.allParts_loop] at hs
    obtain rfl | hs := List.mem_cons.1 hs
    · exact .inl ⟨rfl, rfl⟩
    · exact .inr (by simpa using hs)
  · simp [Stmt.allParts_loop]

theorem Shows.visit {id : NodeId} {kind : NodeKind} (hkind : w.kind? id = some kind)
    (h : w.Shows I (some id) p ss) (hdone : w.Done id kind p' p)
    (hp' : p'.diagnostics <+: p.diagnostics)
    (hblock : p.block = ss.reverse ++ .mark kind.name id :: p'.block) :
    w.Shows I n p (.mark kind.name id :: ss) := by
  have hparts : Stmt.allParts (.mark kind.name id :: ss) = .mark kind.name id ::
      Stmt.allParts ss := by
    simp [Stmt.allParts, Stmt.parts]
  have hvisited : Stmt.visited (.mark kind.name id :: ss) = id :: Stmt.visited ss := by
    simp [Stmt.visited, hparts, Stmt.marked?]
  refine ⟨?_, ?_, ?_, ?_⟩
  · rw [hvisited]
    exact List.forall_mem_cons.2 ⟨⟨kind, hkind⟩, h.known⟩
  · rw [hvisited]
    refine List.forall_mem_cons.2 ⟨fun lambda hlambda => hdone.listed lambda ?_, h.listed⟩
    simpa [Graph.lambdaAt?, hkind] using hlambda
  · rw [hvisited, hparts]
    refine List.forall_mem_cons.2 ⟨?_, ?_⟩
    · intro kind' hkind' hnone
      cases hkind.symm.trans hkind'
      -- what the visit has written is the text behind the mark
      refine ⟨ss.reverse, fun s hs => .tail _ (Stmt.mem_allParts (List.mem_reverse.1 hs)),
        hdone.performed ?_ _ hblock⟩
      rw [hnone]
      exact (List.prefix_nil.1 (hnone ▸ hp')).symm
    · intro other hother kind' hkind' hnone
      obtain ⟨tt, htt, hperforms⟩ := h.performed other hother kind' hkind' hnone
      exact ⟨tt, fun s hs => .tail _ (htt hs), hperforms⟩
  · rw [hparts]
    refine List.forall_mem_cons.2 ⟨.inl ⟨rfl, rfl⟩, fun s hs => (h.written s hs).imp_right ?_⟩
    rintro ⟨m, q, q', t, hm, hrest⟩
    refine ⟨m, q, q', t, .inr ?_, hrest⟩
    rw [hvisited]
    obtain rfl | ⟨other, hother, rfl⟩ := hm
    · exact ⟨id, .head _, rfl⟩
    · exact ⟨other, .tail _ hother, rfl⟩

theorem Cause.unmarked {s : Stmt} (h : w.Cause p n s) : ∀ t ∈ s.parts, t.marked? = none := by
  cases h with
  | bare hs => rw [hs.parts, List.forall_mem_singleton, hs.marked]
  | read | call => exact List.forall_mem_singleton.2 rfl
  | fused => exact List.forall_mem_cons.2 ⟨rfl, List.forall_mem_singleton.2 rfl⟩

theorem Effect.text (h : w.Effect n p p') :
    p'.block = p.block ∨ ∃ t, p'.block = t :: p.block ∧ Stmt.visited [t] = [] := by
  cases h with
  | write hcause =>
    refine .inr ⟨_, rfl, List.filterMap_eq_nil_iff.2 ?_⟩
    rw [Stmt.allParts_singleton]
    exact hcause.unmarked
  | _ => exact .inl rfl

theorem Effect.shows (h : w.Effect n p p') (hp : I n p) :
    ∃ ss, p'.block = ss.reverse ++ p.block ∧ w.Shows I n p' ss := by
  obtain hblock | ⟨t, hblock, hvisited⟩ := h.text
  · exact ⟨[], hblock, .nil⟩
  · refine ⟨[t], hblock, ?_, ?_, ?_, fun s hs => .inr ⟨n, p, p', t, .inl rfl, hp, h, hblock, ?_⟩⟩
    · simp [hvisited]
    · simp [hvisited]
    · simp [hvisited]
    · rwa [Stmt.allParts_singleton] at hs

theorem Work.shows (hI : w.Invariant I) (h : w.Work n p p') (hp : I n p) :
    ∃ ss, p'.block = ss.reverse ++ p.block ∧ w.Shows I n p' ss := by
  induction h with
  | done => exact ⟨[], rfl, .nil⟩
  | effect heffect hrest ih =>
    obtain ⟨ss, hblock, hss⟩ := heffect.shows hp
    obtain ⟨ss', hblock', hss'⟩ := ih (hI.effect hp heffect)
    refine ⟨ss ++ ss', by simp [hblock', hblock], .append ?_ hss'⟩
    exact hss.mono hrest.keeps.functions hrest.keeps.diagnostics
  | @visit n id kind p _ _ hkind hvisit hdone hrest ihvisit ih =>
    have hstart := hI.block (.mark kind.name id :: p.block) p.loops (hI.visit hp hkind hdone)
    obtain ⟨ss, hblock, hss⟩ := ihvisit hstart
    obtain ⟨ss', hblock', hss'⟩ := ih (hI.leave hp (hvisit.invariant hI hstart))
    refine ⟨.mark kind.name id :: ss ++ ss', by simp [hblock', hblock], .append ?_ hss'⟩
    have hmarked := hss.visit (n := n) hkind hdone hvisit.keeps.diagnostics hblock
    exact hmarked.mono hrest.keeps.functions hrest.keeps.diagnostics
  | @branch _ p p₁ _ _ c _ _ htrue hfalse hrest iht ihf ih =>
    have hstart := hI.block [] p.loops hp
    have hmiddle := hI.block [] p₁.loops (htrue.invariant hI hstart)
    obtain ⟨t, ht, htrue'⟩ := iht hstart
    obtain ⟨f, hf, hfalse'⟩ := ihf hmiddle
    obtain ⟨ss, hblock, hss⟩ := ih (hI.block _ _ (hfalse.invariant hI hmiddle))
    refine ⟨[.branch c t f] ++ ss, by simp [hblock, ht, hf], .append ?_ hss⟩
    have hbranch := (htrue'.mono hfalse.keeps.functions hfalse.keeps.diagnostics).branch c hfalse'
    exact hbranch.mono hrest.keeps.functions hrest.keeps.diagnostics
  | loop head loops _ _ hbody hrest ihbody ih =>
    have hstart := hI.block [] loops (hI.enter hp)
    obtain ⟨body, hblock', hshows⟩ := ihbody hstart
    have hend := hI.outside hp hbody (hbody.invariant hI hstart)
    obtain ⟨ss, hblock, hss⟩ := ih (hI.block _ _ hend)
    refine ⟨[.loop head body] ++ ss, by simp [hblock, hblock'], .append ?_ hss⟩
    exact (hshows.loop head).mono hrest.keeps.functions hrest.keeps.diagnostics
  | scope _ hbody hrest ihbody ih =>
    have hstart := hI.enter hp
    obtain ⟨body, hblock', hshows⟩ := ihbody hstart
    obtain ⟨ss, hblock, hss⟩ := ih (hI.outside hp hbody (hbody.invariant hI hstart))
    refine ⟨body ++ ss, by simp [hblock, hblock'], .append ?_ hss⟩
    exact hshows.mono hrest.keeps.functions hrest.keeps.diagnostics

end

end Bench

end Kernelwright.Lowering
