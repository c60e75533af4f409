import Kernelwright.Proofs.Lowering.Phis

/-!
# Lowering control flow

The text that a structured walk is lowered to runs as the host walks. `Ended` relates the two at the
end of the text: the program has returned what the host returns, or both stand at the merge where
the text ends. The relation is proved along `Graph.Flow`, one case for each control node.
-/

namespace Kernelwright.Lowering

open Code
open Program (Val Vars Outcome execAll)

variable {g : Graph} {args : List Host.Slot} {sem : Host.Semantics}
variable {seen seen' : List NodeId} {t t' : SymbolTable Name} {vars vars' : Vars}
variable {id : NodeId} {exit : Option NodeId} {r : Host.Slot × Host.Machine}
variable {o : Outcome} {u : Unit} {α : Type} {walk : Walk} {f : NodeId} {x : Option NodeId}
variable {body : Lower α}
variable {c : Control} {p p' p₁ : Progress} {a : α} {v k : NodeId}

/-! ### Phis without a value -/

/-- No phi has a value unless its merge is in `seen`. -/
def Unassigned (g : Graph) (seen : List NodeId) (phis : Host.Table) : Prop :=
  ∀ ⦃phi m vs⦄, g.kind? phi = some (.operation (.phi m vs)) → m ∉ seen → phis.get? phi = none

namespace Unassigned

variable {phis : Host.Table}

theorem mono (h : Unassigned g seen phis) (hsub : seen ⊆ seen') : Unassigned g seen' phis :=
  fun _ _ _ hphi hm => h hphi fun hmem => hm (hsub hmem)

/-- At a node that is no merge, the phis with values have merges that were met before. -/
theorem of_ne_merge (h : Unassigned g (id :: seen) phis) (hfit : Host.Fits g args)
    (hk : g.kind? id = some (.control c)) (hc : ∀ next, c ≠ .merge next) :
    Unassigned g seen phis := by
  intro phi m vs hphi hm
  refine h hphi fun hmem => ?_
  obtain rfl | hmem := List.mem_cons.1 hmem
  · obtain ⟨next, hmerge⟩ := hfit.words.merge_of_phi hfit.valid hphi
    cases hk.symm.trans hmerge
    exact hc next rfl
  · exact hm hmem

end Unassigned

/-! ### Variables -/

/-- Variables after a part of a program has run: new ones, numbered from `c` on, before the old
ones, whose values may have changed. -/
def Extends (c : Nat) (vars vars' : Vars) : Prop :=
  ∃ new base, vars' = new ++ base ∧ base.map Prod.fst = vars.map Prod.fst ∧ Fresh c new

namespace Extends

variable {c c' : Nat} {vars'' : Vars}

theorem of_keys {new : Vars} (hnew : Fresh c new)
    (h : vars'.map Prod.fst = (new ++ vars).map Prod.fst) : Extends c vars vars' := by
  rw [List.map_append, List.map_eq_append_iff] at h
  obtain ⟨new', base, rfl, hnew', hbase⟩ := h
  exact ⟨new', base, rfl, hbase, fun y hy => hnew y (hnew' ▸ hy)⟩

theorem refl (c : Nat) (vars : Vars) : Extends c vars vars := ⟨[], vars, rfl, rfl, nofun⟩

theorem trans (h : Extends c vars vars') (hc : c ≤ c') (h' : Extends c' vars' vars'') :
    Extends c vars vars'' := by
  obtain ⟨new, base, rfl, hbase, hnew⟩ := h
  obtain ⟨new', base', rfl, hbase', hnew'⟩ := h'
  have hfresh : Fresh c (new' ++ new) := (hnew'.mono hc).append hnew
  refine of_keys hfresh ?_
  rw [List.map_append, hbase', List.map_append, List.map_append, List.map_append, hbase,
    List.append_assoc]

theorem drop (h : Extends c vars vars') :
    ∃ new base, vars' = new ++ base ∧ vars'.drop (vars'.length - vars.length) = base ∧
      base.map Prod.fst = vars.map Prod.fst ∧ Fresh c new := by
  obtain ⟨new, base, rfl, hbase, hnew⟩ := h
  have hlength : base.length = vars.length := by
    simpa using congrArg List.length hbase
  refine ⟨new, base, rfl, ?_, hbase, hnew⟩
  rw [List.length_append, ← hlength, Nat.add_sub_cancel, List.drop_left]

end Extends

/-! ### The end of a text -/

/-- How a program stands at the end of a text, where the host has yet to end with `r`: it returned
the same, or it goes on at the merge `exit` in agreement with the host. -/
inductive Ended (g : Graph) (args : List Host.Slot) (sem : Host.Semantics) (exit : Option NodeId)
    (seen : List NodeId) (t : SymbolTable Name) (vars : Vars) (r : Host.Slot × Host.Machine) :
    Outcome → Prop
  | returned {s : Scalar} : r.1 = .value (.scalar s) → g.returnKind = .scalar s.kind →
      Ended g args sem exit seen t vars r (.returned (.ofScalar s))
  | running {k m vars'} : exit = some k → Extends t.counter vars vars' →
      Models g args t vars' m.frame.phis → m.frame.Remembers g args →
      Unassigned g (k :: seen) m.frame.phis → sem.Walks g k m r →
      Ended g args sem exit seen t vars r (.running vars')

theorem Ended.of_extends (h : Ended g args sem exit seen t' vars' r o)
    (hvars : Extends t.counter vars vars') (hcounter : t.counter ≤ t'.counter)
    (hbinds : ∀ {id x}, t.Binds id x → t'.Binds id x) : Ended g args sem exit seen t vars r o := by
  cases h with
  | returned hr hkind => exact .returned hr hkind
  | running hexit hextends hmodels hremembers hunassigned hwalks =>
    exact .running hexit (hvars.trans hcounter hextends) (hmodels.congr hbinds) hremembers
      hunassigned hwalks

theorem Ended.mono {exit' : Option NodeId} (h : Ended g args sem exit seen t vars r o)
    (hexit : ∀ k, exit = some k → exit' = some k) (hseen : seen ⊆ seen') :
    Ended g args sem exit' seen' t vars r o := by
  cases h with
  | returned hr hkind => exact .returned hr hkind
  | running hk hextends hmodels hremembers hunassigned hwalks =>
    exact .running (hexit _ hk) hextends hmodels hremembers
      (hunassigned.mono (List.cons_subset_cons _ hseen)) hwalks

/-! ### Blocks -/

theorem Open.append {block ss : List Stmt} (hopen : Open block) (hret : ∀ v, Stmt.ret v ∉ ss) :
    Open (ss.reverse ++ block) := by
  intro v hlast
  rw [Stmt.last?, List.find?_append] at hlast
  obtain hfirst | ⟨-, hrest⟩ := Option.or_eq_some_iff.1 hlast
  · exact hret v (List.mem_reverse.1 (List.mem_of_find?_eq_some hfirst))
  · exact hopen v hrest

theorem emitReturn_cases {v : Option Name} (h : emitReturn v p = .ok (u, p')) :
    (p' = p ∧ ¬ Open p.block) ∨ p' = { p with block := .ret v :: p.block } := by
  unfold emitReturn at h
  rw [Step.get_bind] at h
  generalize hlast : Stmt.last? p.block = last at h
  split at h
  · rename_i w
    split at h <;> cases h
    · exact .inl ⟨rfl, fun hopen => hopen w hlast⟩
    · exact .inr rfl
  · cases h
    exact .inr rfl

theorem emitLeave_cases (h : emitLeave p = .ok (u, p')) :
    (p' = p ∧ ¬ Open p.block) ∨ p' = { p with block := .leave :: p.block } := by
  unfold emitLeave at h
  rw [Step.get_bind] at h
  generalize hlast : Stmt.last? p.block = last at h
  split at h <;> cases h
  · rename_i w
    exact .inl ⟨rfl, fun hopen => hopen w hlast⟩
  · exact .inr rfl

theorem inBlock_eq_ok {a : α × List Stmt} (h : inBlock body p = .ok (a, p')) :
    ∃ p₁, body { p with block := [] } = .ok (a.1, p₁) ∧ a.2 = p₁.block.reverse ∧
      p' = { p₁ with block := p.block } := by
  replace h := Step.after_ok rfl h
  replace h := Step.after_ok rfl h
  obtain ⟨b, p₁, hbody, h⟩ := Step.bind_eq_ok.1 h
  cases h
  exact ⟨p₁, hbody, rfl, rfl⟩

theorem inScope_eq_ok (h : inScope body p = .ok (a, p')) :
    ∃ p₁, body { p with symbols := p.symbols.enter } = .ok (a, p₁) ∧
      p' = { p₁ with symbols := p₁.symbols.exit } := by
  replace h := Step.after_ok rfl h
  obtain ⟨b, p₁, hbody, h⟩ := Step.bind_eq_ok.1 h
  cases h
  exact ⟨p₁, hbody, rfl⟩

theorem inBlock_of_ok (h : body { p with block := [] } = .ok (a, p₁)) :
    inBlock body p = .ok ((a, p₁.block.reverse), { p₁ with block := p.block }) :=
  Step.bind_eq_ok.2 ⟨p, p, rfl, Step.bind_eq_ok.2 ⟨(), _, rfl, Step.bind_eq_ok.2 ⟨a, p₁, h, rfl⟩⟩⟩

theorem inScope_of_ok (h : body { p with symbols := p.symbols.enter } = .ok (a, p₁)) :
    inScope body p = .ok (a, { p₁ with symbols := p₁.symbols.exit }) :=
  Step.bind_eq_ok.2 ⟨(), _, rfl, Step.bind_eq_ok.2 ⟨a, p₁, h, rfl⟩⟩

/-- A branch is lowered to its condition and its arms; then the walk is over, or it goes on at the
merge where the arms end. -/
theorem lowerBranch_cases {site : Site} {value : Values} {id c t : NodeId}
    (h : lowerBranch site value walk id c t f p = .ok (x, p')) :
    ∃ a p₁ x₁ q₁ x₂ q₂, value c p = .ok (a, p₁) ∧ walk t { p₁ with block := [] } = .ok (x₁, q₁) ∧
      walk f { q₁ with block := [] } = .ok (x₂, q₂) ∧
      let q := { q₂ with block := .branch a q₁.block.reverse q₂.block.reverse :: p₁.block }
      (x₁ = none ∧ x₂ = none ∧ x = none ∧ p' = q) ∨
        ∃ m, x₁.or x₂ = some m ∧ (∀ m', x₂ = some m' → m' = m) ∧ walk m q = .ok (x, p') := by
  obtain ⟨a, p₁, ha, h⟩ := Step.bind_eq_ok.1 h
  split at h
  · cases h
  · obtain ⟨⟨x₁, trueArm⟩, p₂, hblock₁, h⟩ := Step.bind_eq_ok.1 h
    obtain ⟨⟨x₂, falseArm⟩, p₃, hblock₂, h⟩ := Step.bind_eq_ok.1 h
    obtain ⟨q₁, htrue, rfl, rfl⟩ := inBlock_eq_ok hblock₁
    obtain ⟨q₂, hfalse, rfl, rfl⟩ := inBlock_eq_ok hblock₂
    replace h := Step.after_ok rfl h
    refine ⟨a, p₁, x₁, q₁, x₂, q₂, ha, htrue, hfalse, ?_⟩
    cases x₁ with
    | none =>
      cases x₂ with
      | none =>
        cases Step.pure_eq_ok.1 h
        exact .inl ⟨rfl, rfl, rfl, rfl⟩
      | some b => exact .inr ⟨b, rfl, fun _ hm => (Option.some.inj hm).symm, h⟩
    | some a =>
      cases x₂ with
      | none => exact .inr ⟨a, rfl, nofun, h⟩
      | some b =>
        dsimp only at h
        split at h
        · rename_i hab
          exact .inr ⟨a, rfl, fun _ hm => (Option.some.inj hm).symm.trans hab.symm, h⟩
        · cases h

/-! ### Control nodes -/

/-- The text of a walk from `p` to `p'` runs as the host walks. -/
structure Lowers (g : Graph) (args : List Host.Slot) (sem : Host.Semantics) (seen : List NodeId)
    (id : NodeId) (exit : Option NodeId) (seen' : List NodeId) (p : Progress)
    (ps : List Program.Stmt) (p' : Progress) : Prop extends Writes p ps p' where
  merges : p'.merges = seen'
  /-- The names of an arm end with it. -/
  region : (g.kind? id).any Graph.isRegion →
    p'.symbols = { p.symbols with counter := p'.symbols.counter }
  runs : ∀ {vars m r} u, Models g args p.symbols vars m.frame.phis → m.frame.Remembers g args →
    Unassigned g (id :: seen) m.frame.phis → sem.Walks g id m r →
    ∃ o u', execAll vars ps u = some (o, u') ∧ Ended g args sem exit seen' p.symbols vars r o

section Control

variable {site : Site} {value : Values} {p p' : Progress} {ps : List Program.Stmt}
variable (hfit : Host.Fits site.graph args) (hvalue : LowersValues site.graph args value)
variable (heval : Host.Evaluates site.graph args sem.eval)
variable {length : Nat} {next n : NodeId} {seen₁ seen₂ : List NodeId} {p₁ q₁ q₂ : Progress}
variable {qs tp fp : List Program.Stmt} {a : Name} {exit₁ exit₂ : Option NodeId}

theorem lowerWalk_eq_ok (hk : site.graph.kind? id = some (.control c))
    (h : lowerWalk site value length id p = .ok (x, p')) :
    ∃ n, lowerControl site value (lowerWalk site value n) id c
      { p with block := .mark c.name id :: p.block } = .ok (x, p') := by
  cases length with
  | zero => cases h
  | succ n =>
    obtain ⟨kind, hkind, h⟩ := Step.lift_bind_eq_ok.1 h
    cases hk.symm.trans (Graph.kind_eq_ok_iff.1 hkind)
    replace h := Step.after_ok rfl h
    exact ⟨n, h⟩

/-- A walk that lowers some values, or passes a node without a text of its own, and goes on. -/
theorem Lowers.of_adds (hadds : Adds site.graph args seen p ps p₁)
    (h : Lowers site.graph args sem seen₁ next exit seen' p₁ qs p')
    (hregion : ¬ (site.graph.kind? id).any Graph.isRegion)
    (hwalk : ∀ {m r}, sem.Walks site.graph id m r → sem.Walks site.graph next m r)
    (hunassigned : ∀ {phis}, Unassigned site.graph (id :: seen) phis →
      Unassigned site.graph (next :: seen₁) phis) :
    Lowers site.graph args sem seen id exit seen' p (ps ++ qs) p' where
  toWrites := hadds.toWrites.trans h.toWrites
  merges := h.merges
  region hr := absurd hr hregion
  runs u hmodels hremembers hphis hw := by
    obtain ⟨new, u₁, hexec, hnew, hmodels₁⟩ := hadds.runs u hmodels
    obtain ⟨o, u₂, hexec', hended⟩ := h.runs u₁ hmodels₁ hremembers (hunassigned hphis) (hwalk hw)
    refine ⟨o, u₂, (Program.execAll_append_running hexec qs).trans hexec', ?_⟩
    exact hended.of_extends ⟨new, _, rfl, rfl, hnew⟩ hadds.counter hadds.binds

theorem Lowers.inScope (hk : site.graph.kind? id = some (.control (.region next)))
    (h : Lowers site.graph args sem seen next exit seen' { p with
      block := .mark (Control.region next).name id :: p.block
      symbols := p.symbols.enter } ps p₁)
    (hunassigned : ∀ {phis}, Unassigned site.graph (id :: seen) phis →
      Unassigned site.graph (next :: seen) phis) :
    Lowers site.graph args sem seen id exit seen' p ps { p₁ with symbols := p₁.symbols.exit } := by
  have hexit : p₁.symbols.exit = { p.symbols with counter := p₁.symbols.counter } :=
    SymbolTable.exit_eq h.scopes
  exact {
    block := by
      obtain ⟨ss, ts, hss, hreads⟩ := h.block
      exact ⟨.mark (NodeKind.control (.region next)).name id :: ss,
        ts, by simp [hss, NodeKind.name],
        .mark hreads⟩
    functions := h.functions
    merges := h.merges
    scopes := by simp only [hexit]; rfl
    counter := h.counter
    region := fun _ => hexit
    runs := by
      intro vars m r u hmodels hremembers hphis hw
      have hmodels' : Models site.graph args p.symbols.enter vars m.frame.phis :=
        hmodels.congr SymbolTable.binds_enter.1
      obtain ⟨o, u', hexec, hended⟩ := h.runs u hmodels' hremembers (hunassigned hphis)
        (hw.pass hk (.inr (.inl rfl)))
      exact ⟨o, u', hexec, hended.of_extends (.refl _ _) (Nat.le_refl _)
        SymbolTable.binds_enter.2⟩ }

include hfit hvalue heval

omit heval in
theorem marked_adds (hk : site.graph.kind? id = some (.control c))
    (hv : v ∈ (NodeKind.control c).inputs)
    (hready : site.graph.Ready seen v) (ht : Named site.graph seen p.symbols)
    (ha : value v { p with block := .mark c.name id :: p.block } = .ok (a, p₁)) :
    ∃ ps, Adds site.graph args seen p ps p₁ ∧ p₁.symbols.Binds v a := by
  have hmarked : Adds site.graph args seen p [] _ := .mark ht (.control c) id
  obtain ⟨o, ho⟩ := hfit.words.input hfit.valid hk hv
  obtain ⟨hname, ps, hadds⟩ := hvalue ho hready hmarked.named ha
  exact ⟨ps, hmarked.trans hadds, SymbolTable.binds_of_nameOf? hname⟩

/-- A return ends the text with the value that the host returns. -/
theorem lowerControl_ret (hmode : site.mode.isKernel = false)
    (hk : site.graph.kind? id = some (.control (.ret (some v)))) (hready : site.graph.Ready seen v)
    (ht : Named site.graph seen p.symbols) (hmerges : p.merges = seen) (hopen : Open p.block)
    (h : lowerControl site value walk id (.ret (some v))
      { p with block := .mark (Control.ret (some v)).name id :: p.block } = .ok (x, p')) :
    x = none ∧ ∃ ps, Lowers site.graph args sem seen id none seen p ps p' := by
  obtain ⟨_, p₁, hret, ⟨⟩⟩ := Step.bind_pure_eq_ok.1 h
  simp only [lowerReturn, hmode, Bool.false_eq_true, if_false] at hret
  obtain ⟨a, p₁, ha, hret⟩ := Step.bind_eq_ok.1 hret
  obtain ⟨ps, hadds, hb⟩ := marked_adds hfit hvalue hk (.head _) hready ht ha
  rw [if_pos (hadds.named.ne_illegal hb)] at hret
  obtain ⟨-, hreturned⟩ | rfl := emitReturn_cases hret
  · exact absurd (hadds.unreturned hopen) hreturned
  have hregion : ¬ (site.graph.kind? id).any Graph.isRegion := by simp [hk, Graph.isRegion]
  suffices hrest : Lowers site.graph args sem seen id none seen p₁ [.ret a.operand]
      { p₁ with block := .ret (some a) :: p₁.block } from ⟨rfl, _,
        .of_adds hadds hrest hregion (·) (·)⟩
  exact {
    block := ⟨[.ret (some a)], _, rfl, .ret (hadds.named.used hb).reads .nil⟩
    functions := rfl
    merges := hadds.merges.trans hmerges
    scopes := rfl
    counter := Nat.le_refl _
    region := fun hr => absurd hr hregion
    runs := by
      intro vars m r u hmodels hremembers _ hw
      obtain ⟨s, hr, hs⟩ := hw.ret heval hremembers hk
      obtain ⟨w, hw, -, hdenotes⟩ := hmodels.holds hb
      cases hdenotes s hs
      refine ⟨_, u, Program.execAll_ret (Name.eval_operand hw u) [], .returned hr ?_⟩
      rw [← hfit.words.valueKind_returned hk]
      exact hs.valueKind hfit hmodels.phisFit }

theorem lowerControl_join (hk : site.graph.kind? id = some (.control (.join k)))
    (hready : ∀ phi ∈ site.graph.phisOf k, ∀ v, site.graph.phiValueAt phi id = .ok v →
      site.graph.Ready seen v) (ht : Named site.graph seen p.symbols) (hmerges : p.merges = seen)
    (hunmet : k ∉ seen) (h : lowerControl site value walk id (.join k)
      { p with block := .mark (Control.join k).name id :: p.block } = .ok (x, p')) :
    x = some k ∧ ∃ ps, Lowers site.graph args sem seen id (some k) seen p ps p' := by
  obtain ⟨pairs, p₁, hpairs, h⟩ := Step.bind_eq_ok.1 h
  obtain ⟨_, p₂, hassign, ⟨⟩⟩ := Step.bind_pure_eq_ok.1 h
  have hmarked : Adds site.graph args seen p [] _ := .mark ht (.control (.join k)) id
  obtain ⟨hkeys, hincoming, ps, hadds⟩ := phiValues_eq_ok hvalue hfit hmarked.named hready hpairs
  cases assignPhis_eq_ok hadds.named hincoming hassign
  replace hadds := hmarked.trans hadds
  obtain ⟨ts, hreads⟩ := phiStatements_reads hadds.named hincoming
  have hregion : ¬ (site.graph.kind? id).any Graph.isRegion := by simp [hk, Graph.isRegion]
  suffices hrest : Lowers site.graph args sem seen id (some k) seen p₁ (phiProgram p₁.symbols pairs)
      { p₁ with block := (phiStatements p₁.symbols pairs).reverse ++ p₁.block } from
    ⟨rfl, _, .of_adds hadds hrest hregion (·) (·)⟩
  exact {
    block := ⟨_, ts, rfl, hreads⟩
    functions := rfl
    merges := hadds.merges.trans hmerges
    scopes := rfl
    counter := Nat.le_refl _
    region := fun hr => absurd hr hregion
    runs := by
      intro vars m r u hmodels hremembers hphis hw
      replace hphis := hphis.of_ne_merge hfit hk nofun
      have hnew : ∀ phi ∈ site.graph.phisOf k, m.frame.phis.get? phi = none := by
        intro phi hphi
        obtain ⟨vs, hphi⟩ := hfit.valid.mem_phisOf.1 hphi
        exact hphis hphi hunmet
      obtain ⟨values, m', hvkeys, hvalues, hremembers', hassigned, hw⟩ :=
        hw.join heval hfit hremembers hk hnew
      obtain ⟨vars', hexec, hkeys', hmodels'⟩ := hmodels.assignAll hfit hadds.named hunmet hincoming
        (hvkeys.trans hkeys.symm) (fun e he => hfit.valid.mem_phisOf.1
          (hkeys ▸ List.mem_map_of_mem he)) hvalues u
      refine ⟨_, u, hexec, .running rfl ⟨[], vars', rfl, hkeys', nofun⟩ (hassigned ▸ hmodels')
        hremembers' ?_ hw⟩
      intro phi merge vs hphi hmerge
      have hphi' : phi ∉ values.map Prod.fst := by
        rw [hvkeys, hfit.valid.mem_phisOf]
        rintro ⟨vs', hphi'⟩
        cases hphi.symm.trans hphi'
        exact hmerge (.head _)
      rw [hassigned, Host.Table.get?_assign_of_not_mem _ hphi']
      exact hphis hphi fun hmem => hmerge (.tail _ hmem) }

omit hvalue in
/-- A branch runs the arm that the host takes, and leaves the variables of the arm behind. -/
theorem branch_runs {c : NodeId} {p₂ : Progress}
    (hk : site.graph.kind? id = some (.control (.branch c n f)))
    (ht : Named site.graph seen p.symbols) (hb : p.symbols.Binds c a)
    (htrue : Lowers site.graph args sem seen n exit₁ seen₁ p₁ tp q₁)
    (hfalse : Lowers site.graph args sem seen₁ f exit₂ seen₂ p₂ fp q₂)
    (hsymbols : p₁.symbols = p.symbols)
    (hsymbols' : p₂.symbols = { p.symbols with counter := p₂.symbols.counter })
    (hcounter : p.symbols.counter ≤ p₂.symbols.counter) (hsub : seen ⊆ seen₁)
      (hsub' : seen₁ ⊆ seen₂)
    (hexit : ∀ k, exit₁ = some k ∨ exit₂ = some k → exit = some k) {m : Host.Machine}
    (u : Program.Unknown) (hmodels : Models site.graph args p.symbols vars m.frame.phis)
    (hremembers : m.frame.Remembers site.graph args)
    (hphis : Unassigned site.graph (id :: seen) m.frame.phis) (hw : sem.Walks site.graph id m r) :
    ∃ o u', execAll vars [.branch a.operand tp fp] u = some (o, u') ∧
      Ended site.graph args sem exit seen₂ p.symbols vars r o := by
  obtain ⟨s, m', hs, hkeeps, hw⟩ := hw.branch heval hremembers hk
  obtain ⟨v, hv, -, hdenotes⟩ := hmodels.holds hb
  cases hdenotes s hs
  replace hphis := hphis.of_ne_merge hfit hk nofun
  have htruth := Program.isTrue_ofScalar (hs.isWord hfit hmodels.phisFit)
  rw [← hkeeps.phis] at hmodels hphis
  have harm : ∃ o u', execAll vars (if (Val.ofScalar s).isTrue then tp else fp) u = some (o, u') ∧
      Ended site.graph args sem exit seen₂ p.symbols vars r o := by
    rw [htruth]
    cases hbool : s.asBool with
    | true =>
      rw [hbool] at hw
      obtain ⟨o, u', hexec, hended⟩ := htrue.runs u (hsymbols ▸ hmodels) hkeeps.remembers
        (hphis.mono (List.subset_cons_self _ _)) hw
      rw [hsymbols] at hended
      exact ⟨o, u', hexec, hended.mono (fun k hk => hexit k (.inl hk)) hsub'⟩
    | false =>
      rw [hbool] at hw
      have hbinds {id x} : p₂.symbols.Binds id x ↔ p.symbols.Binds id x := by
        rw [hsymbols']
        exact Iff.rfl
      obtain ⟨o, u', hexec, hended⟩ := hfalse.runs u (hmodels.congr hbinds.1) hkeeps.remembers
        (hphis.mono (List.subset_cons_of_subset _ hsub)) hw
      replace hended := hended.of_extends (.refl _ _) hcounter hbinds.2
      exact ⟨o, u', hexec, hended.mono (fun k hk => hexit k (.inr hk)) (List.Subset.refl _)⟩
  obtain ⟨o, u', hexec, hended⟩ := harm
  cases hended with
  | returned hr hkind =>
    exact ⟨_, u', Program.execAll_branch (Name.eval_operand hv u) hexec, .returned hr hkind⟩
  | running hk hextends hmodels hremembers hunassigned hwalks =>
    obtain ⟨new, base, rfl, hdrop, hkeys, hnew⟩ := hextends.drop
    refine ⟨.running base, u', (Program.execAll_branch (Name.eval_operand hv u) hexec).trans
      ?_, .running hk
      ⟨[], base, rfl, hkeys, nofun⟩ ((Models.append_iff ht (Nat.le_refl _) hnew).1 hmodels)
        hremembers
      hunassigned hwalks⟩
    simp only [hdrop]

omit hvalue in
theorem Lowers.branch {c : NodeId} (hk : site.graph.kind? id = some (.control (.branch c n f)))
    (hn : (site.graph.kind? n).any Graph.isRegion) (hf : (site.graph.kind? f).any Graph.isRegion)
    (ht : Named site.graph seen p.symbols) (hb : p.symbols.Binds c a)
    (htrue : Lowers site.graph args sem seen n exit₁ seen₁ { p with block := [] } tp q₁)
    (hfalse : Lowers site.graph args sem seen₁ f exit₂ seen₂ { q₁ with block := [] } fp q₂)
    (hsub : seen ⊆ seen₁) (hsub' : seen₁ ⊆ seen₂)
    (hexit : ∀ k, exit₁ = some k ∨ exit₂ = some k → exit = some k) :
    q₂.symbols = { p.symbols with counter := q₂.symbols.counter } ∧
      Lowers site.graph args sem seen id exit seen₂ p [.branch a.operand tp fp]
        { q₂ with block := .branch a q₁.block.reverse q₂.block.reverse :: p.block } := by
  have hsymbols₁ : q₁.symbols = { p.symbols with counter := q₁.symbols.counter } := htrue.region hn
  have hsymbols₂ : q₂.symbols = { p.symbols with counter := q₂.symbols.counter } := by
    rw [hfalse.region hf]
    exact congrArg (fun t : SymbolTable Name => { t with counter := q₂.symbols.counter }) hsymbols₁
  refine ⟨hsymbols₂, ?_⟩
  exact {
    block := by
      obtain ⟨ss, ts, hss, hreads⟩ := htrue.block
      obtain ⟨ss', ts', hss', hreads'⟩ := hfalse.block
      rw [List.append_nil] at hss hss'
      rw [hss, hss', List.reverse_reverse, List.reverse_reverse]
      exact ⟨[.branch a ss ss'], _, rfl, .branch (ht.used hb).reads hreads hreads' .nil⟩
    functions := hfalse.functions.trans htrue.functions
    merges := hfalse.merges
    scopes := hfalse.scopes.trans htrue.scopes
    counter := Nat.le_trans htrue.counter hfalse.counter
    region := fun hr => by simp [hk, Graph.isRegion] at hr
    runs := fun u hmodels hremembers hphis hw => branch_runs hfit heval hk ht hb htrue hfalse rfl
      hsymbols₁ htrue.counter hsub hsub' hexit u hmodels hremembers hphis hw }

omit hfit hvalue heval in
/-- A text that ends at a merge goes on with the text of the merge. -/
theorem Lowers.trans (h : Lowers site.graph args sem seen id (some k) seen₁ p ps p₁)
    (h' : Lowers site.graph args sem seen₁ k exit seen' p₁ qs p')
    (hsymbols : p₁.symbols = { p.symbols with counter := p₁.symbols.counter })
    (hregion : ¬ (site.graph.kind? id).any Graph.isRegion) :
    Lowers site.graph args sem seen id exit seen' p (ps ++ qs) p' where
  toWrites := h.toWrites.trans h'.toWrites
  merges := h'.merges
  region hr := absurd hr hregion
  runs u hmodels hremembers hphis hw := by
    obtain ⟨o, u₁, hexec, hended⟩ := h.runs u hmodels hremembers hphis hw
    cases hended with
    | returned hr hkind =>
      exact ⟨_, u₁, Program.execAll_append_returned hexec qs, .returned hr hkind⟩
    | running hk hextends hmodels hremembers hunassigned hwalks =>
      cases hk
      have hbinds {id x} : p₁.symbols.Binds id x ↔ p.symbols.Binds id x := by
        rw [hsymbols]
        exact Iff.rfl
      obtain ⟨o, u₂, hexec', hended⟩ := h'.runs u₁ (hmodels.congr hbinds.1) hremembers hunassigned
        hwalks
      exact ⟨o, u₂, (Program.execAll_append_running hexec qs).trans hexec',
        hended.of_extends hextends h.counter hbinds.2⟩

/-- The text of a structured walk runs as the host walks, and it ends where the walk ends. -/
theorem lowerWalk_lowers (hmode : site.mode.isKernel = false)
    (hflow : site.graph.Flow seen id exit seen') (hexit : ∀ k, exit = some k → k ∉ seen')
    (h : lowerWalk site value length id p = .ok (x, p')) (ht : Named site.graph seen p.symbols)
    (hmerges : p.merges = seen) (hopen : Open p.block) :
    x = exit ∧ ∃ ps, Lowers site.graph args sem seen id exit seen' p ps p' := by
  induction hflow generalizing length p x p' with
  | @start _ _ next _ _ hk _ ih =>
    obtain ⟨n, h⟩ := lowerWalk_eq_ok hk h
    obtain ⟨rfl, ps, hps⟩ := ih hexit h ht hmerges hopen
    refine ⟨rfl, _, .of_adds (.mark ht (.control (.start next)) _) hps
      (by simp [hk, Graph.isRegion])
      (·.pass hk (.inl rfl)) fun hphis => ?_⟩
    exact (hphis.of_ne_merge hfit hk nofun).mono (List.subset_cons_self _ _)
  | region hk _ ih =>
    obtain ⟨n, h⟩ := lowerWalk_eq_ok hk h
    obtain ⟨p₁, hbody, rfl⟩ := inScope_eq_ok h
    obtain ⟨rfl, ps, hps⟩ := ih hexit hbody ht.enter hmerges hopen
    refine ⟨rfl, ps, .inScope hk hps fun hphis => ?_⟩
    exact (hphis.of_ne_merge hfit hk nofun).mono (List.subset_cons_self _ _)
  | @merge _ _ next _ _ hk hid _ ih =>
    obtain ⟨n, h⟩ := lowerWalk_eq_ok hk h
    replace h := Step.after_ok rfl h
    rw [if_neg (hmerges ▸ hid)] at h
    replace h := Step.after_ok rfl h
    obtain ⟨rfl, ps, hps⟩ :=
      ih hexit h (ht.mono (List.subset_cons_self _ _)) (by rw [hmerges]) hopen
    exact ⟨rfl, _, .of_adds (.mark ht (.control (.merge next)) _)
      { hps with }
      (by simp [hk, Graph.isRegion]) (·.pass hk (.inr (.inr rfl)))
        (·.mono (List.subset_cons_self _ _))⟩
  | join hk hready =>
    obtain ⟨n, h⟩ := lowerWalk_eq_ok hk h
    exact lowerControl_join hfit hvalue heval hk hready ht hmerges (hexit _ rfl) h
  | ret hk hready =>
    obtain ⟨n, h⟩ := lowerWalk_eq_ok hk h
    exact lowerControl_ret hfit hvalue heval hmode hk hready ht hmerges hopen h
  | branch hk hready hn hf hflow₁ hflow₂ iht ihf =>
    obtain ⟨n, h⟩ := lowerWalk_eq_ok hk h
    obtain ⟨a, p₁, x₁, q₁, x₂, q₂, ha, htrue, hfalse, h⟩ := lowerBranch_cases h
    obtain ⟨ps, hadds, hb⟩ := marked_adds hfit hvalue hk (.head _) hready ht ha
    obtain ⟨rfl, tp, htrue⟩ := iht nofun htrue hadds.named (hadds.merges.trans hmerges) nofun
    have ht₁ := (hadds.named.mono hflow₁.subset).withCounter htrue.counter
    obtain ⟨rfl, fp, hfalse⟩ := ihf nofun hfalse (htrue.region hn ▸ ht₁) htrue.merges nofun
    obtain ⟨-, -, rfl, rfl⟩ | ⟨m, hm, -⟩ := h
    · obtain ⟨-, hbranch⟩ := Lowers.branch hfit heval hk hn hf hadds.named hb htrue hfalse
        hflow₁.subset hflow₂.subset nofun
      exact ⟨rfl, _, .of_adds hadds hbranch (by simp [hk, Graph.isRegion]) (·) (·)⟩
    · cases hm
  | branchMerge hk hready hn hf hflow₁ hflow₂ hm hsame hflow iht ihf ih =>
    rename_i a b m exit seen₁ seen₂ seen₃
    obtain ⟨n, h⟩ := lowerWalk_eq_ok hk h
    obtain ⟨c, p₁, x₁, q₁, x₂, q₂, hc, htrue, hfalse, h⟩ := lowerBranch_cases h
    obtain ⟨ps, hadds, hb⟩ := marked_adds hfit hvalue hk (.head _) hready ht hc
    -- the arms end at one merge, which is not met inside of them
    have hends {k} (hk : a = some k ∨ b = some k) : k = m := by
      obtain hk | hk := hk
      · rw [hk] at hm
        exact Option.some.inj hm
      · exact hsame k hk
    have hunmet : m ∉ seen₂ := hflow₁.not_mem_of_arms hfit.valid hflow₂ hm hflow
    have hexit₁ (k) (hk : a = some k) : k ∉ seen₁ := by
      rw [hends (.inl hk)]
      exact fun hmem => hunmet (hflow₂.subset hmem)
    have hexit₂ (k) (hk : b = some k) : k ∉ seen₂ := by
      rw [hends (.inr hk)]
      exact hunmet
    obtain ⟨rfl, tp, htrue⟩ := iht hexit₁ htrue hadds.named (hadds.merges.trans hmerges) nofun
    have ht₁ := (hadds.named.mono hflow₁.subset).withCounter htrue.counter
    obtain ⟨rfl, fp, hfalse⟩ := ihf hexit₂ hfalse (htrue.region hn ▸ ht₁) htrue.merges nofun
    obtain ⟨hsymbols, hbranch⟩ := Lowers.branch hfit heval hk hn hf hadds.named hb htrue hfalse
      hflow₁.subset hflow₂.subset fun k hk => by rw [hends hk]
    have ht₂ := (hadds.named.mono (List.Subset.trans hflow₁.subset hflow₂.subset)).withCounter
      hbranch.counter
    obtain ⟨rfl, rfl, -, -⟩ | ⟨m', hm', -, h⟩ := h
    · cases hm
    · cases hm.symm.trans hm'
      obtain ⟨rfl, rest, hrest⟩ := ih hexit h (hsymbols ▸ ht₂) hbranch.merges nofun
      exact ⟨rfl, _, .of_adds hadds (hbranch.trans hrest hsymbols (by simp [hk, Graph.isRegion]))
        (by simp [hk, Graph.isRegion]) (·) (·)⟩

end Control

end Kernelwright.Lowering
