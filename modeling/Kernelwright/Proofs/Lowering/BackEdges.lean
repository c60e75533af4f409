import Kernelwright.Proofs.Lowering.Quiet
import Mathlib.Data.List.Chain

/-!
# Back edges that lead to their loop

In a function a back edge has no text of its own to go back with: the loop goes round because
nothing comes after the back edge in its body. In an orderly graph this is so for every back edge,
and each run of the function passes the first node of the loop right after the back edge.
-/

namespace Kernelwright

open Code

variable {bound : Option NodeId} {head : NodeId}

/-- Where a run that has just passed the back edge of a loop goes on, by how the text ends: at the
loop `home`, or at `away` if it leaves a loop. -/
def Code.Ending.LeadsTo (home away : Option NodeId) (head : NodeId) : Ending → Prop
  | .cut => True
  | .falls => home = some head
  | .leaves => away = some head
  | .returns => False

namespace Graph

/-- The first node of a loop comes right after its back edge. -/
def Follows (g : Graph) (a b : NodeId) : Prop :=
  ∀ head next bound, g.kind? a = some (.control (.backEdge head)) →
    g.kind? head = some (.control (.loopHead next bound)) → b = next

/-- A path goes from back edges to their loops, and where it ends with a back edge, the text around
it leads to the loop. -/
structure Tidy (g : Graph) (home away : Option NodeId) (path : List NodeId) (e : Ending) :
    Prop where
  chain : path.IsChain g.Follows
  last : ∀ id ∈ path.getLast?, ∀ head, g.kind? id = some (.control (.backEdge head)) →
    e.LeadsTo home away head

variable {g : Graph} {home away : Option NodeId} {path path' : List NodeId} {e : Ending}
variable {id next : NodeId}

namespace Tidy

variable {home₁ away₁ : Option NodeId}

theorem nil : g.Tidy home away [] e := ⟨.nil, nofun⟩

theorem cons (h : g.Tidy home away path e)
    (hid : ∀ head, g.kind? id ≠ some (.control (.backEdge head))) :
    g.Tidy home away (id :: path) e where
  chain := List.isChain_cons.2 ⟨fun _ _ head _ _ hk => absurd hk (hid head), h.chain⟩
  last := by
    cases path with
    | nil =>
      intro k hk head hkind
      cases hk
      exact absurd hkind (hid head)
    | cons => exact h.last

theorem append (h : g.Tidy home₁ away₁ path .falls) (h' : g.Tidy home away path' e)
    (hhome : ∀ head next bound, home₁ = some head →
      g.kind? head = some (.control (.loopHead next bound)) → ∀ n ∈ path'.head?, n = next)
    (hlast : path' = [] → ∀ head, home₁ = some head → e.LeadsTo home away head) :
    g.Tidy home away (path ++ path') e where
  chain := by
    refine List.isChain_append.2 ⟨h.chain, h'.chain, ?_⟩
    intro k hk n hn head next bound hkind hhead
    exact hhome head next bound (h.last k hk head hkind) hhead n hn
  last := by
    cases path' with
    | nil =>
      rw [List.append_nil]
      intro k hk head hkind
      exact hlast rfl head (h.last k hk head hkind)
    | cons n path' =>
      rw [List.getLast?_append_of_ne_nil _ (List.cons_ne_nil n path')]
      exact h'.last

theorem imp {e₁ : Ending} (h : g.Tidy home₁ away₁ path e₁)
    (hlast : ∀ head, e₁.LeadsTo home₁ away₁ head → e.LeadsTo home away head) :
    g.Tidy home away path e :=
  ⟨h.chain, fun k hk head hkind => hlast head (h.last k hk head hkind)⟩

theorem of_ne (h : g.Tidy home₁ away path e) (he : e ≠ .falls) : g.Tidy home away path e := by
  refine h.imp fun head hleads => ?_
  cases e with
  | falls => exact absurd rfl he
  | _ => exact hleads

end Tidy

/-! ### Texts -/

/-- Every run of a text is tidy. -/
def Tidies (g : Graph) (home away : Option NodeId) (ss : List Stmt) : Prop :=
  ∀ ⦃trace e⦄, Runs ss trace e → g.Tidy home away (g.passed trace) e

namespace Tidies

variable {ss rest t f : List Stmt} {c : Name} {kind : String}
variable {k : Control}

theorem of_quiet (hss : ∀ s ∈ ss, g.Quiet s) : g.Tidies home away ss := by
  intro trace e hrun
  rw [(hrun.of_quiet hss).2]
  exact .nil

theorem nil : g.Tidies home away [] := of_quiet nofun

theorem ret (v : Option Name) : g.Tidies home away [.ret v] := by
  intro trace e hrun
  have hpassed : g.passed trace = [] := by
    cases hrun with
    | cut => rfl
    | ret => rfl
    | plain hs => cases hs
  rw [hpassed]
  exact .nil

theorem after_quiet (h : g.Tidies home away rest) (hss : ∀ s ∈ ss, g.Quiet s) :
    g.Tidies home away (ss ++ rest) := by
  intro trace e hrun
  obtain ⟨trace₁, trace₂, rfl, hrun₁, hrun₂⟩ | ⟨-, hrun⟩ := hrun.of_append
  · rw [passed_append, (hrun₁.of_quiet hss).2]
    exact h hrun₂
  · exact of_quiet hss hrun

theorem append (h : g.Tidies none away ss) (h' : g.Tidies home away rest) :
    g.Tidies home away (ss ++ rest) := by
  intro trace e hrun
  obtain ⟨trace₁, trace₂, rfl, hrun₁, hrun₂⟩ | ⟨hne, hrun⟩ := hrun.of_append
  · rw [passed_append]
    exact (h hrun₁).append (h' hrun₂) nofun nofun
  · exact (h hrun).of_ne hne

theorem anywhere (h : g.Tidies none away ss) : g.Tidies home away ss := by
  simpa using h.append nil

theorem branch (ht : g.Tidies home away t) (hf : g.Tidies home away f) :
    g.Tidies home away [.branch c t f] := by
  intro trace e hrun
  obtain ⟨b, hrun⟩ := hrun.of_branch
  cases b with
  | true => exact ht hrun
  | false => exact hf hrun

theorem mark (h : g.Tidies home away rest) (hk : g.kind? id = some (.control k))
    (hid : ∀ head, k ≠ .backEdge head) : g.Tidies home away (.mark kind id :: rest) := by
  intro trace e hrun
  cases hrun with
  | cut => exact .nil
  | plain _ hrest =>
    rw [passed_mark hk]
    refine (h hrest).cons fun head hback => ?_
    cases hk.symm.trans hback
    exact hid head rfl

theorem leave (h : g.Tidies away away ss) : g.Tidies home away (ss ++ [.leave]) := by
  intro trace e hrun
  obtain ⟨trace₁, trace₂, rfl, hrun₁, hrun₂⟩ | ⟨hne, hrun⟩ := hrun.of_append
  · cases hrun₂ with
    | cut =>
      rw [List.append_nil]
      exact (h hrun₁).imp fun _ _ => trivial
    | leave =>
      rw [List.append_nil]
      exact (h hrun₁).imp fun _ hleads => hleads
    | plain hs => cases hs
  · exact (h hrun).of_ne hne

/-- The body of a loop leads to the loop, and its first node is the first that each round passes. -/
theorem loop (hk : g.kind? id = some (.control (.loopHead next bound)))
    (hnext : g.kind? next = some (.control k))
    (h : g.Tidies (some id) home (.mark kind next :: rest)) :
    g.Tidies home away [.loop .forever (.mark kind next :: rest)] := by
  have hbody {trace : List Stmt} {e : Ending} (hrun : Runs (.mark kind next :: rest) trace e) :
      (e = .cut ∧ g.passed trace = []) ∨ (g.passed trace).head? = some next := by
    cases hrun with
    | cut => exact .inl ⟨rfl, rfl⟩
    | plain _ hrest =>
      rw [passed_mark hnext]
      exact .inr rfl
  -- by the rounds of the loop; the next round has to be known to start with the first node
  suffices hloop : ∀ {trace e}, Runs [.loop .forever (.mark kind next :: rest)] trace e →
      ((e = .cut ∧ g.passed trace = []) ∨ (g.passed trace).head? = some next) ∧
        g.Tidy home away (g.passed trace) e from fun trace e hrun => (hloop hrun).2
  intro trace e hrun
  generalize hss : [Stmt.loop .forever (.mark kind next :: rest)] = ss at hrun
  induction hrun with
  | cut => exact ⟨.inl ⟨rfl, rfl⟩, .nil⟩
  | nil => cases hss
  | plain hs =>
    cases hss
    cases hs
  | ret | leave | branch | branchEnds | once => cases hss
  | done hbounded =>
    cases hss
    cases hbounded
  | again _ hround _ _ ih =>
    cases hss
    obtain ⟨hstart, htidy⟩ := ih rfl
    have hfirst := (hbody hround).resolve_left nofun
    rw [passed_append]
    refine ⟨.inr (by rw [List.head?_append, hfirst]; rfl), (h hround).append htidy ?_ ?_⟩
    · intro head next' bound' hhead hkind n hn
      cases hhead
      cases hk.symm.trans hkind
      obtain ⟨-, hnone⟩ | hstart := hstart
      · rw [hnone] at hn
        cases hn
      · exact Option.some.inj (hn.symm.trans hstart)
    · intro hnone head _
      obtain ⟨rfl, -⟩ | hstart := hstart
      · trivial
      · rw [hnone] at hstart
        cases hstart
  | left hround hrest =>
    cases hss
    have hfirst := (hbody hround).resolve_left nofun
    cases hrest with
    | cut =>
      rw [List.append_nil]
      exact ⟨.inr hfirst, (h hround).imp fun _ _ => trivial⟩
    | nil =>
      rw [List.append_nil]
      exact ⟨.inr hfirst, (h hround).imp fun _ hleads => hleads⟩
  | loopEnds hround hend =>
    cases hss
    refine ⟨hbody hround, (h hround).imp fun head hleads => ?_⟩
    obtain rfl | rfl := hend
    · trivial
    · exact hleads

theorem backEdge (hk : g.kind? id = some (.control (.backEdge head))) (hss : ∀ s ∈ ss, g.Quiet s) :
    g.Tidies (some head) away (.mark kind id :: ss) := by
  intro trace e hrun
  cases hrun with
  | cut => exact .nil
  | plain _ hrest =>
    obtain ⟨he, hpassed⟩ := hrest.of_quiet hss
    rw [passed_mark hk, hpassed]
    refine ⟨.singleton _, fun k hid head' hkind => ?_⟩
    cases hid
    cases hk.symm.trans hkind
    obtain rfl | rfl := he
    · trivial
    · exact rfl

end Tidies

end Graph

/-! ### Walks -/

namespace Lowering

open Kernelwright.Graph (Exit Tidies)

variable {t : NodeId} {a : Exit} {x₁ : Option NodeId} {q : Progress} {seen₁ : List NodeId}

/-- The state in which a walk starts: the loops around have a text, and the block has not
returned. -/
structure Stands (away : Option NodeId) (seen : List NodeId) (p : Progress) : Prop where
  merges : p.merges = seen
  explicit : ∀ frame ∈ p.loops, frame.explicit = true
  outside : p.loops = [] → away = none
  unreturned : Open p.block

/-- The text of a walk starts with the mark of its node, and its back edges lead to their loops. -/
structure Placed (g : Graph) (home away : Option NodeId) (id : NodeId) (exit : Exit)
    (seen' : List NodeId) (p : Progress) (x : Option NodeId) (p' : Progress) : Prop where
  flow : x = exit.merge?
  merges : p'.merges = seen'
  loops : p'.loops = p.loops
  text : ∃ kind rest, p'.block = (Stmt.mark kind id :: rest).reverse ++ p.block ∧
    g.Tidies home away (.mark kind id :: rest)

variable {g : Graph} {home away x : Option NodeId} {id next : NodeId} {exit : Exit}
variable {seen seen' : List NodeId} {p p₁ p' : Progress} {kind : String}

namespace Stands

theorem mark (h : Stands away seen p) :
    Stands away seen { p with block := .mark kind id :: p.block } :=
  ⟨h.merges, h.explicit, h.outside, h.unreturned⟩

theorem grow (h : Stands away seen p) (hp : Grows g p p₁) : Stands away seen p₁ where
  merges := hp.merges.trans h.merges
  explicit := hp.loops ▸ h.explicit
  outside := hp.loops ▸ h.outside
  unreturned := by
    obtain ⟨ss, hss, hquiet⟩ := hp.block
    rw [hss]
    exact h.unreturned.append fun v hv => (hquiet _ hv).ne_ret v rfl

theorem second {home : Option NodeId} (h : Stands away seen p)
    (ht : Placed g home away t a seen₁ p x₁ q) : Stands away seen₁ { q with block := [] } :=
  ⟨ht.merges, ht.loops ▸ h.explicit, ht.loops ▸ h.outside, nofun⟩

theorem inner (h : Stands away seen p) : Stands away seen { p with block := [] } :=
  ⟨h.merges, h.explicit, h.outside, nofun⟩

end Stands

namespace Placed

variable {c : Control} {u : Unit} {f : NodeId} {b : Exit} {name : Name} {x₂ : Option NodeId}
variable {q₁ q₂ : Progress} {seen₂ : List NodeId}

theorem pass {p₂ : Progress} (ss : List Stmt) (h : Placed g home away next exit seen' p₁ x p₂)
    (hk : g.kind? id = some (.control c)) (hid : ∀ head, c ≠ .backEdge head)
    (hblock : p₁.block = ss.reverse ++ .mark kind id :: p.block) (hss : ∀ s ∈ ss, g.Quiet s)
    (hloops : p₁.loops = p.loops) (hp' : p' = { p₂ with symbols := p'.symbols }) :
    Placed g home away id exit seen' p x p' := by
  rw [hp']
  obtain ⟨kind', rest, hrest, htidies⟩ := h.text
  refine ⟨h.flow, h.merges, h.loops.trans hloops, kind, ss ++ .mark kind' next :: rest, ?_, ?_⟩
  · simp [hrest, hblock]
  · exact (htidies.after_quiet hss).mark hk hid

theorem tidies (h : Placed g home away id exit seen' p x p') (hp : p.block = []) :
    ∃ kind rest, p'.block.reverse = .mark kind id :: rest ∧
      g.Tidies home away (.mark kind id :: rest) := by
  obtain ⟨kind, rest, hrest, htidies⟩ := h.text
  exact ⟨kind, rest, by simp [hrest, hp], htidies⟩

theorem of_rest (kind : String) (ss : List Stmt) (hflow : x = exit.merge?)
    (hmerges : p'.merges = seen')
    (hloops : p'.loops = p.loops) (hblock : p'.block = ss.reverse ++ .mark kind id :: p.block)
    (h : g.Tidies home away (.mark kind id :: ss)) : Placed g home away id exit seen' p x p' :=
  ⟨hflow, hmerges, hloops, kind, ss, by simp [hblock], h⟩

theorem of_grows (hk : g.kind? id = some (.control c)) (hid : ∀ head, c ≠ .backEdge head)
    (hp : Stands away seen p) (h : Grows g { p with block := .mark kind id :: p.block } p')
    (hflow : x = exit.merge?) : Placed g home away id exit seen p x p' := by
  obtain ⟨ss, hss, hquiet⟩ := h.block
  exact of_rest kind ss hflow (h.merges.trans hp.merges) h.loops hss
    ((Tidies.of_quiet hquiet).mark hk hid)

theorem ret {v : Option NodeId} {w : Option Name} (hk : g.kind? id = some (.control (.ret v)))
    (hp : Stands away seen p) (hq : Grows g { p with block := .mark kind id :: p.block } q)
    (h : emitReturn w q = .ok (u, p')) : Placed g home away id .returns seen p none p' := by
  obtain ⟨rfl, -⟩ | rfl := emitReturn_cases h
  · exact of_grows hk nofun hp hq rfl
  · obtain ⟨ss, hss, hquiet⟩ := hq.block
    exact of_rest kind (ss ++ [.ret w]) rfl (hq.merges.trans hp.merges) hq.loops (by simp [hss])
      (((Tidies.ret w).after_quiet hquiet).mark hk nofun)

theorem branch {c : NodeId} (hk : g.kind? id = some (.control (.branch c t f)))
    (hp₁ : Grows g { p with block := .mark kind id :: p.block } p₁)
    (ht : Placed g home away t a seen₁ { p₁ with block := [] } x₁ q₁)
    (hf : Placed g home away f b seen₂ { q₁ with block := [] } x₂ q₂) :
    Placed g home away id (a.both b) seen₂ p none
      { q₂ with block := .branch name q₁.block.reverse q₂.block.reverse :: p₁.block } := by
  obtain ⟨ss, hss, hquiet⟩ := hp₁.block
  obtain ⟨_, _, ht', htrue⟩ := ht.tidies rfl
  obtain ⟨_, _, hf', hfalse⟩ := hf.tidies rfl
  refine .of_rest kind (ss ++ [.branch name q₁.block.reverse q₂.block.reverse])
    Exit.merge?_both.symm hf.merges (hf.loops.trans (ht.loops.trans hp₁.loops)) (by simp [hss]) ?_
  rw [ht', hf']
  exact ((htrue.branch hfalse).after_quiet hquiet).mark hk nofun

theorem branchMerge {c m : NodeId} (hk : g.kind? id = some (.control (.branch c t f)))
    (hp₁ : Grows g { p with block := .mark kind id :: p.block } p₁)
    (ht : Placed g none away t a seen₁ { p₁ with block := [] } x₁ q₁)
    (hf : Placed g none away f b seen₂ { q₁ with block := [] } x₂ q₂)
    (h : Placed g home away m exit seen'
      { q₂ with block := .branch name q₁.block.reverse q₂.block.reverse :: p₁.block } x p') :
    Placed g home away id exit seen' p x p' := by
  obtain ⟨ss, hss, hquiet⟩ := hp₁.block
  obtain ⟨_, _, ht', htrue⟩ := ht.tidies rfl
  obtain ⟨_, _, hf', hfalse⟩ := hf.tidies rfl
  obtain ⟨kind', rest, hrest, htidies⟩ := h.text
  refine .of_rest kind
    (ss ++ ([.branch name q₁.block.reverse q₂.block.reverse] ++ .mark kind' m :: rest))
    h.flow h.merges (h.loops.trans (hf.loops.trans (ht.loops.trans hp₁.loops)))
    (by simp [hrest, hss]) ?_
  rw [ht', hf']
  exact (((htrue.branch hfalse).append htidies).after_quiet hquiet).mark hk nofun

theorem loop (hk : g.kind? id = some (.control (.loopHead next bound)))
    (hnext : g.kind? next = some (.control c))
    (hp₁ : Grows g { p with block := .mark kind id :: p.block } p₁)
    (h : Placed g (some id) home next exit seen' q₁ x₁ q) (hq₁ : q₁.block = []) :
    Placed g home away id .stops seen' p none { q with
      loops := p.loops
      block := .loop .forever q.block.reverse :: p₁.block
      symbols := q.symbols.exit } := by
  obtain ⟨ss, hss, hquiet⟩ := hp₁.block
  obtain ⟨kind', rest, hbody, htidies⟩ := h.tidies hq₁
  refine .of_rest kind (ss ++ [.loop .forever q.block.reverse]) rfl h.merges rfl (by simp [hss]) ?_
  rw [hbody]
  exact ((htidies.loop hk hnext).after_quiet hquiet).mark hk nofun

/-- The way out of a loop. Where the text has returned, it need not leave the loop. -/
theorem loopExit (hk : g.kind? id = some (.control (.loopExit head next))) (hp : Stands away seen p)
    (h : Placed g away away next exit seen' { p with block := .mark kind id :: p.block } x p₁)
    (hleave : emitLeave p₁ = .ok (u, p')) : Placed g home away id exit seen' p x p' := by
  obtain ⟨kind', rest, hrest, htidies⟩ := h.text
  obtain ⟨rfl, hreturned⟩ | rfl := emitLeave_cases hleave
  · refine .of_rest kind (.mark kind' next :: rest) h.flow h.merges h.loops hrest ?_
    refine Tidies.mark (fun trace e hrun => (htidies hrun).of_ne ?_) hk nofun
    -- the block had not returned before, so it is this text that returns
    obtain ⟨v, hlast⟩ : ∃ v, Stmt.last? p'.block = some (.ret v) := by
      simpa [Open] using hreturned
    rw [hrest, Stmt.last?, List.find?_append] at hlast
    obtain hlast | ⟨-, hlast⟩ := Option.or_eq_some_iff.1 hlast
    · exact Runs.ne_falls_of_last? hlast (by rwa [List.reverse_reverse])
    · exact absurd hlast (hp.mark.unreturned v)
  · refine .of_rest kind (.mark kind' next :: rest ++ [.leave]) h.flow h.merges h.loops ?_ ?_
    · simp [hrest]
    · exact htidies.leave.mark hk nofun

end Placed

section Control

variable {site : Site} {value : Values} (hvalue : WritesValues site value)
include hvalue

/-- An orderly walk is placed so that its back edges lead to their loops. -/
theorem lowerWalk_placed {length : Nat} (hmode : site.mode.isKernel = false)
    (hcourse : site.graph.Course home away seen id exit seen') (hp : Stands away seen p)
    (h : lowerWalk site value length id p = .ok (x, p')) :
    Placed site.graph home away id exit seen' p x p' := by
  induction hcourse generalizing length p x p' with
  | pass hk hnext _ ih =>
    obtain ⟨n, h⟩ := lowerWalk_eq_ok hk h
    obtain ⟨p₁, p₂, hp₁, h, -, hp'⟩ := lowerControl_onward hvalue hk hnext h
    obtain ⟨ss, hss, hquiet⟩ := hp₁.block
    refine (ih (hp.mark.grow hp₁.toGrows) h).pass ss hk ?_ hss hquiet hp₁.loops hp'
    rintro head rfl
    cases hnext
  | merge hk hid _ ih =>
    obtain ⟨n, h⟩ := lowerWalk_eq_ok hk h
    obtain ⟨hmet, -⟩ | ⟨-, h⟩ := lowerMerge_cases h
    · exact absurd (hp.merges ▸ hmet) hid
    · refine (ih ?_ h).pass [] hk nofun rfl nofun rfl rfl
      exact ⟨by rw [hp.merges], hp.explicit, hp.outside, hp.mark.unreturned⟩
  | met hk hid =>
    obtain ⟨n, h⟩ := lowerWalk_eq_ok hk h
    obtain ⟨-, rfl, rfl⟩ | ⟨hunmet, -⟩ := lowerMerge_cases h
    · exact .of_grows hk nofun hp (.refl _) rfl
    · exact absurd (hp.merges.symm ▸ hid) hunmet
  | join hk =>
    obtain ⟨n, h⟩ := lowerWalk_eq_ok hk h
    obtain ⟨rfl, hp'⟩ := lowerJoin_cases hvalue h
    exact .of_grows hk nofun hp hp'.toGrows rfl
  | ret hk =>
    obtain ⟨n, h⟩ := lowerWalk_eq_ok hk h
    obtain ⟨_, p₁, hret, ⟨⟩⟩ := Step.bind_pure_eq_ok.1 h
    obtain ⟨q, hq, ⟨w, hemit⟩ | ⟨rfl, -⟩⟩ := lowerReturn_cases hvalue hmode hret
    · exact .ret hk hp hq.toGrows hemit
    · exact .of_grows hk nofun hp hq.toGrows rfl
  | branch hk _ _ ha hb iht ihf =>
    obtain ⟨n, h⟩ := lowerWalk_eq_ok hk h
    obtain ⟨name, p₁, x₁, q₁, x₂, q₂, hname, htrue, hfalse, h⟩ := lowerBranch_cases h
    have hp₁ := (hvalue.at hname).1.toGrows
    have ht := iht (hp.mark.grow hp₁).inner htrue
    have hf := ihf ((hp.mark.grow hp₁).inner.second ht) hfalse
    obtain ⟨-, -, rfl, rfl⟩ | ⟨m, hm, -⟩ := h
    · exact .branch hk hp₁ ht hf
    · rw [ht.flow, hf.flow, ha, hb] at hm
      cases hm
  | branchMerge hk _ _ hm _ _ iht ihf ih =>
    obtain ⟨n, h⟩ := lowerWalk_eq_ok hk h
    obtain ⟨name, p₁, x₁, q₁, x₂, q₂, hname, htrue, hfalse, h⟩ := lowerBranch_cases h
    have hp₁ := (hvalue.at hname).1.toGrows
    have ht := iht (hp.mark.grow hp₁).inner htrue
    have hf := ihf ((hp.mark.grow hp₁).inner.second ht) hfalse
    rw [← ht.flow, ← hf.flow] at hm
    obtain ⟨hx₁, hx₂, -⟩ | ⟨m', hm', -, h⟩ := h
    · rw [hx₁, hx₂] at hm
      cases hm
    · cases hm.symm.trans hm'
      refine .branchMerge hk hp₁ ht hf (ih ?_ h)
      have hq₂ := ((hp.mark.grow hp₁).inner.second ht).second hf
      exact ⟨hq₂.merges, hq₂.explicit, hq₂.outside, nofun⟩
  | loop hk hbody ih =>
    -- the body is a block of its own that leads to the loop, and what leaves it leads where the
    -- loop does
    obtain ⟨n, h⟩ := lowerWalk_eq_ok hk h
    obtain ⟨init, p₁, x₁, q, hphis, hwalk, rfl, rfl⟩ := lowerLoop_cases hmode h
    have hp₁ := (lowerLoopPhis_advances hvalue hk hphis).toGrows
    obtain ⟨c, hnext⟩ := hbody.control
    refine .loop hk hnext hp₁ (ih ?_ hwalk) rfl
    refine ⟨hp₁.merges.trans hp.merges, ?_, nofun, nofun⟩
    exact List.forall_mem_cons.2 ⟨rfl, hp.explicit⟩
  | backEdge hk =>
    obtain ⟨n, h⟩ := lowerWalk_eq_ok hk h
    obtain ⟨_, p₁, hedge, ⟨⟩⟩ := Step.bind_pure_eq_ok.1 h
    have hp₁ :=
      (hvalue.advances (fun _ _ hw hv => ⟨none, _, _, hw ▸ lowerBackEdge_works hv⟩) hedge).toGrows
    obtain ⟨ss, hss, hquiet⟩ := hp₁.block
    exact .of_rest _ ss rfl (hp₁.merges.trans hp.merges) hp₁.loops hss (.backEdge hk hquiet)
  | loopExit hk _ ih =>
    obtain ⟨n, h⟩ := lowerWalk_eq_ok hk h
    obtain ⟨p₁, hwalk, h⟩ := lowerExit_cases h
    have hplaced := ih hp.mark hwalk
    obtain ⟨hloops, rfl⟩ | ⟨⟨frame, hframe, himplicit⟩, -⟩ | ⟨u, hleave⟩ := h
    · -- outside of all loops there is nothing to leave
      rw [hplaced.loops] at hloops
      cases hp.outside hloops
      obtain ⟨kind', rest, hrest, htidies⟩ := hplaced.text
      exact .of_rest _ _ hplaced.flow hplaced.merges hplaced.loops hrest
        (htidies.anywhere.mark hk nofun)
    · rw [hplaced.loops] at hframe
      rw [hp.explicit frame hframe] at himplicit
      cases himplicit
    · exact .loopExit hk hp hplaced hleave

end Control

/-! ### Functions -/

/-- In the function of an orderly graph, the first control node that a run passes after a back edge
is the first one in the body of its loop, and no run ends in between. -/
theorem back_edges_reenter_loop {g : Graph} {nested : List Graph} {guards : Bool} {b : Bundle}
    (horderly : g.Orderly) (hlower : lowerLambda g nested guards = .ok b) :
    ∃ callees f, b.functions = callees ++ [f] ∧ f.name = functionName g.name ∧
      ∀ trace e, Runs f.body trace e → ∀ before id after head next bound,
        g.passed trace = before ++ id :: after → g.kind? id = some (.control (.backEdge head)) →
        g.kind? head = some (.control (.loopHead next bound)) →
        after.head? = some next ∨ after = [] ∧ e = .cut := by
  obtain ⟨callees, f, site, value, length, start, p, x, p', hfunctions, hname, rfl, hmode, hvalue,
    hstart, hp, hwalk, hbody, -⟩ := lowerLambda_walks hlower
  obtain ⟨start', exit, seen, hstart', hcourse⟩ := horderly
  cases hstart.symm.trans hstart'
  have hstands : Stands none [] p :=
    ⟨hp.merges, by rw [hp.loops]; exact nofun, fun _ => rfl, hp.open⟩
  obtain ⟨kind, rest, hrest, htidies⟩ := (lowerWalk_placed hvalue hmode hcourse hstands hwalk).text
  have htidies : site.graph.Tidies none none f.body := by
    rw [hbody, Progress.body, hrest, List.reverse_append, List.reverse_reverse]
    exact htidies.after_quiet fun s hs => hp.block s (List.mem_reverse.1 hs)
  refine ⟨callees, f, hfunctions, hname, ?_⟩
  intro trace e hrun before id after head next bound hpassed hid hhead
  obtain ⟨hchain, hlast⟩ := htidies hrun
  rw [hpassed] at hchain hlast
  cases after with
  | nil =>
    have hleads := hlast id (by simp) head hid
    cases e with
    | cut => exact .inr ⟨rfl, rfl⟩
    | falls | leaves | returns => cases hleads
  | cons n after =>
    have hfollows := (List.isChain_cons_cons.1 (List.isChain_append.1 hchain).2.1).1
    rw [hfollows head next bound hid hhead]
    exact .inl rfl

/-- A loop in the body of another one. The way out of the inner loop is the back edge of the outer
one. -/
def rounds : Graph := .ofKinds "rounds" [
  .start 4,
  .parameter 0 .boolean,
  .parameter 1 .boolean,
  .parameter 2 .int,
  .loopHead 6 none,
  .phi 4 [3, 9],
  .branch 1 7 16,
  .region 8,
  .loopHead 11 none,
  .phi 8 [5, 10],
  .binary .add 9 3,
  .branch 2 12 14,
  .region 13,
  .backEdge 8,
  .loopExit 8 15,
  .backEdge 4,
  .loopExit 4 17,
  .ret (some 5)]

namespace rounds

theorem parameters_eq : rounds.parameters =
    [⟨1, 0, .scalar .boolean⟩, ⟨2, 1, .scalar .boolean⟩, ⟨3, 2, .scalar .int⟩] :=
  Graph.parameters_of_pairwise rfl (by decide)

theorem orderly : rounds.Orderly := by
  have hinner : rounds.Course (some 4) none [] 8 .stops [] :=
    .loop rfl (.branch rfl (.pass rfl rfl (.backEdge rfl)) (.loopExit rfl (.backEdge rfl)) rfl rfl)
  have houter : rounds.Course none none [] 4 .stops [] :=
    .loop rfl (.branch rfl (.pass rfl rfl hinner) (.loopExit rfl (.ret rfl)) rfl rfl)
  exact ⟨0, .stops, [], rfl, .pass rfl rfl houter⟩

/-- The control nodes from the start through one round of each loop to the return. -/
def path : List NodeId :=
  [0, 4, 6, 7, 8, 11, 12, 13, 11, 14, 15, 6, 16, 17]

theorem route : Route rounds 30 [true, true, false, false] path .returns := by
  simp only [Route, lowerLambda, lowerBundle, callDepth, lowerFunction, Signature.ofFunction,
    parameters_eq]
  decide +kernel

end rounds

theorem rounds_reenter_loops : rounds.Orderly ∧ ∃ b callees f, lowerLambda rounds [] false = .ok b ∧
    b.functions = callees ++ [f] ∧
    (∃ trace, Runs f.body trace .returns ∧ rounds.passed trace = rounds.path) ∧
    ∀ trace e, Runs f.body trace e → ∀ before id after,
      rounds.passed trace = before ++ id :: after →
      (id = 13 → after.head? = some 11 ∨ after = [] ∧ e = .cut) ∧
      (id = 15 → after.head? = some 6 ∨ after = [] ∧ e = .cut) := by
  obtain ⟨b, f, trace, hb, -, hf, hrun, hpath⟩ := rounds.route.exists_run
  obtain ⟨callees, f', hf', -, hreenter⟩ := back_edges_reenter_loop rounds.orderly hb
  obtain ⟨-, hlast⟩ := List.append_inj' ((List.nil_append [f]).trans (hf.symm.trans hf')) rfl
  cases hlast
  refine ⟨rounds.orderly, b, callees, f, hb, hf', ⟨trace, hrun, hpath⟩, ?_⟩
  intro trace e hrun before id after hpassed
  constructor
  · rintro rfl
    exact hreenter trace e hrun before _ after 8 _ none hpassed rfl rfl
  · rintro rfl
    exact hreenter trace e hrun before _ after 4 _ none hpassed rfl rfl

/-! ### A graph that is not orderly -/

/-- Counts up to the second argument, at most to the first. Both ways out go on at one merge, which
is laid out in the body of the loop, after the back edge. -/
def search : Graph := .ofKinds "search" [
  .start 5,
  .parameter 0 .int,
  .parameter 1 .int,
  .int 0,
  .int 1,
  .loopHead 9 none,
  .phi 5 [3, 7],
  .binary .add 6 4,
  .compare .lt 6 1,
  .branch 8 10 16,
  .region 11,
  .branch 12 13 15,
  .compare .eq 6 2,
  .loopExit 5 14,
  .join 19,
  .region 18,
  .loopExit 5 17,
  .join 19,
  .backEdge 5,
  .merge 20,
  .ret (some 6)]

namespace search

theorem parameters_eq : search.parameters = [⟨1, 0, .scalar .int⟩, ⟨2, 1, .scalar .int⟩] :=
  Graph.parameters_of_pairwise rfl (by decide)

theorem route : Route search 30 [true, false] [0, 5, 9, 10, 11, 15, 18, 19, 20] .returns := by
  simp only [Route, lowerLambda, lowerBundle, callDepth, lowerFunction, Signature.ofFunction,
    parameters_eq]
  decide +kernel

end search

/-- In the function of `search`, a run that has passed the back edge goes on at the merge outside,
and returns. -/
theorem search_passes_merge_after_back_edge : ∃ b f trace before after,
    lowerLambda search [] false = .ok b ∧ b.diagnostics = [] ∧ b.functions = [f] ∧
    Runs f.body trace .returns ∧ search.passed trace = before ++ 18 :: 19 :: after ∧
    search.kind? 18 = some (.control (.backEdge 5)) ∧
    search.kind? 5 = some (.control (.loopHead 9 none)) ∧
    search.kind? 19 = some (.control (.merge 20)) := by
  obtain ⟨b, f, trace, hb, hnone, hf, hrun, hpath⟩ := search.route.exists_run
  exact ⟨b, f, trace, [0, 5, 9, 10, 11, 15], [20], hb, hnone, hf, hrun, hpath,
    rfl, rfl, rfl⟩

end Lowering

end Kernelwright
