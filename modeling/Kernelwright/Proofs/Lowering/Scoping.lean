import Kernelwright.Proofs.Lowering.Calls
import Kernelwright.Proofs.Lowering.Visibility

/-!
# Functions are scoped

Names are looked up in scopes, and the text has blocks. A region opens a scope in the block where it
stands, and the arms of a branch are blocks in the scope of the branch. So a name that is found need
not be visible. In a sheltered graph it is, and each function that comes of the graph is scoped.
-/

namespace Kernelwright

theorem ParameterType.isArray_valueKind (type : ParameterType) :
    type.valueKind.isArray = type.isArray := by
  cases type with
  | tuple type => exact ValueKind.isArray_ofType type
  | scalar | array => rfl

namespace Lowering

open Code
open Kernelwright.Graph (Residue)

variable {α β : Type} {g : Graph} {site : Site} {A : Around} {value : Values}
variable {id : NodeId} {p p₁ p' q : Progress}
variable {depth length : Nat} {c : Control} {B : Around} {a : Name}

/-! ### Names that need no declaration -/

/-- No name was added but literals. -/
def Spares (g : Graph) (p p' : Progress) : Prop :=
  ∀ id x, p'.symbols.Binds id x → p.symbols.Binds id x ∨
    (∃ l, x = .literal l) ∧ (g.valueKind id).isArray = false

theorem Spares.of_eq (h : p'.symbols = p.symbols) : Spares g p p' := fun _ _ hx => .inl (h ▸ hx)

theorem Spares.trans (h : Spares g p p₁) (h' : Spares g p₁ p') : Spares g p p' := by
  intro id x hx
  rcases h' id x hx with hx | hliteral
  · exact h id x hx
  · exact .inr hliteral

theorem Sound.of_spares (h : Sound site A p) (hp : Onward A p p') (hwritten : Written site A p')
    (hpaired : p'.symbols.Paired) (hspares : Spares site.graph p p') : Sound site A p' := by
  refine h.onward hp hwritten hpaired fun id x hx => (hspares id x hx).imp_right ?_
  rintro ⟨⟨l, rfl⟩, hkind⟩
  refine hwritten.declared (fun _ _ => Name.noConfusion) (List.nil_subset _) fun harray => ?_
  cases hkind.symm.trans harray

/-- A step that adds no name but literals, unless something is reported. -/
def Sparing (g : Graph) (m : Lower α) : Prop :=
  ∀ ⦃p a p'⦄, m p = .ok (a, p') → p'.diagnostics = [] → p.diagnostics = [] ∧ Spares g p p'

namespace Sparing

variable {m : Lower α} {f : α → Lower β}

theorem of_eq (h : ∀ p a p', m p = .ok (a, p') → p'.symbols = p.symbols ∧
      p'.diagnostics = p.diagnostics) :
    Sparing g m := by
  intro p a p' hrun hnone
  obtain ⟨hsymbols, hdiagnostics⟩ := h p a p' hrun
  exact ⟨hdiagnostics ▸ hnone, .of_eq hsymbols⟩

theorem result (a : α) : Sparing g (pure a) := by
  refine of_eq fun p b p' h => ?_
  cases Step.pure_eq_ok.1 h
  exact ⟨rfl, rfl⟩

theorem emit (s : Stmt) : Sparing g (emit s) := by
  refine of_eq fun p u p' h => ?_
  cases h
  exact ⟨rfl, rfl⟩

theorem andThen (hm : Sparing g m) (hf : ∀ a, Sparing g (f a)) : Sparing g (m >>= f) := by
  intro p b p' hrun hnone
  obtain ⟨a, p₁, hfirst, hrest⟩ := Step.bind_eq_ok.1 hrun
  obtain ⟨hnone₁, hspares'⟩ := hf a hrest hnone
  obtain ⟨hnone₀, hspares⟩ := hm hfirst hnone₁
  exact ⟨hnone₀, hspares.trans hspares'⟩

theorem all {l : List α} (h : ∀ a ∈ l, Sparing g (f a)) : Sparing g (l.mapM f) := by
  induction l with
  | nil => exact result []
  | cons a l ih =>
    rw [List.mapM_cons]
    refine (h a (.head _)).andThen fun b => (ih fun c hc => h c (.tail _ hc)).andThen fun bs => ?_
    exact result (b :: bs)

end Sparing

/-- Parameters and phis have their names already, and a constant needs no declaration. -/
theorem lowerValue_spares {lambdas : List Graph} {function : Functions}
    (hid : site.graph.isPlain id = true) :
    Sparing site.graph (lowerValue site lambdas function depth id) := by
  intro p x p' h hnone
  cases depth with
  | zero => cases h
  | succ depth =>
    replace h := Step.after_ok rfl h
    cases hname : p.symbols.nameOf? id with
    | some x =>
      rw [hname] at h
      cases h
      exact ⟨hnone, .of_eq rfl⟩
    | none =>
      rw [hname] at h
      obtain ⟨kind, hkind, h⟩ := Step.lift_bind_eq_ok.1 h
      have hkind := Graph.kind_eq_ok_iff.1 hkind
      replace h := Step.after_ok rfl h
      rcases Graph.isPlain_cases hkind hid with ⟨_, _, rfl⟩ | ⟨_, _, rfl⟩ | ⟨v, rfl⟩
      · cases h
      · cases h
      · dsimp only [lowerOperation] at h
        cases hliteral : Literal.ofValue? v with
        | some l =>
          rw [hliteral] at h
          cases h
          refine ⟨hnone, fun other y hy => (SymbolTable.binds_bind.1 hy).symm.imp_right ?_⟩
          rintro ⟨rfl, rfl⟩
          refine ⟨⟨_, rfl⟩, Bool.eq_false_iff.2 (Graph.not_isArray hkind ?_)⟩
          simp only [NodeKind.valueKind, Operation.valueKind]
          cases v.kind? <;> rfl
        | none =>
          rw [hliteral] at h
          cases h
          simp at hnone

/-- Values are lowered by work, and a plain value adds no name but a literal. -/
structure SheltersValues (w : Bench) (value : Values) : Prop where
  works : ∃ watched, WorksValues w [] value watched
  spares : ∀ id, w.site.graph.isPlain id = true → Sparing w.site.graph (value id)

section Steps

variable {w : Bench} (hvalue : SheltersValues w value)
include hvalue

theorem lowerEnd_spares {merge stop : NodeId}
    (hplain : (w.site.graph.endValues merge stop).all w.site.graph.isPlain = true) :
    Sparing w.site.graph (do assignPhis (← phiValues w.site value merge stop)) := by
  refine .andThen (.all fun phi hphi => ?_) fun pairs => ?_
  · intro p e p' h hnone
    obtain ⟨v, hv, h⟩ := Step.lift_bind_eq_ok.1 h
    have hend : v ∈ w.site.graph.endValues merge stop :=
      List.mem_filterMap.2 ⟨phi, hphi, by rw [hv]; rfl⟩
    exact (hvalue.spares v (List.all_eq_true.1 hplain v hend)).andThen (fun _ => .result _) h hnone
  · induction pairs with
    | nil => exact .result ()
    | cons e pairs ih =>
      refine .andThen (.of_eq fun p o p' h => by cases h; exact ⟨rfl, rfl⟩) fun target => ?_
      cases target with
      | none => exact ih
      | some target =>
        dsimp only
        split
        · exact (Sparing.emit _).andThen fun _ => ih
        · exact ih

theorem lowerBackEdge_spares {head : NodeId}
    (hplain : (w.site.graph.endValues head id).all w.site.graph.isPlain = true) :
    Sparing w.site.graph (lowerBackEdge w.site value id head) := by
  refine .andThen (.of_eq fun p q p' h => by cases h; exact ⟨rfl, rfl⟩) fun q => ?_
  split
  · exact fun p a p' h => by cases h
  · split
    · exact lowerEnd_spares hvalue hplain
    · exact .result ()

theorem passing_spares (hfunction : w.site.IsFunction)
    (hplain : (w.site.graph.asked id c).all w.site.graph.isPlain = true) :
    Sparing w.site.graph (passing w.site value c) := by
  have hinput (v : NodeId) (hv : v ∈ w.site.graph.asked id c) : Sparing w.site.graph (value v) :=
    hvalue.spares v (List.all_eq_true.1 hplain v hv)
  cases c with
  | storeIndexed array index v =>
    refine (hinput array (by simp [Graph.asked, Control.inputs])).andThen fun arr => ?_
    refine (hinput index (by simp [Graph.asked, Control.inputs])).andThen fun idx => ?_
    refine (hinput v (by simp [Graph.asked, Control.inputs])).andThen fun name => ?_
    simp only [hfunction.splitInput, hfunction.splitOutput, reduceCtorEq, if_false]
    split
    · exact .result ()
    · refine .andThen (.of_eq fun p place p' h => ?_) fun place => .emit _
      cases (elementPlace_eq arr idx p).symm.trans h
      exact ⟨rfl, rfl⟩
  | storeField object field v =>
    refine (hinput object (by simp [Graph.asked, Control.inputs])).andThen fun obj => ?_
    refine (hinput v (by simp [Graph.asked, Control.inputs])).andThen fun name => ?_
    split
    · exact .emit _
    · exact .result ()
  | guard condition =>
    simp only [passing]
    split
    · refine (hinput condition (by simp [Graph.asked, Control.inputs])).andThen fun c => ?_
      split
      · exact .emit _
      · exact .result ()
    · exact .result ()
  | _ => exact .result ()

end Steps

/-! ### Blocks and scopes -/

/-- What there is around a block that is begun in the current one. -/
def Progress.inside (A : Around) (p : Progress) : Around := ⟨p.visible A, p.symbols.counter⟩

theorem Declared.congr {x : Name} (h : Declared g A p id x)
    (hcounter : q.symbols.counter = p.symbols.counter) (hbuffers : q.buffers = p.buffers)
    (hvisible : q.visible B = p.visible A) : Declared g B q id x where
  number role n hx := hcounter ▸ h.number role n hx
  length y hy := hvisible ▸ h.length y (hbuffers ▸ hy)
  shown := hvisible ▸ h.shown
  array hkind := hvisible ▸ hbuffers ▸ h.array hkind

theorem Sound.inside (h : Sound site A p) : Sound site (p.inside A) { p with block := [] } where
  text := trivial
  functions := h.functions
  keys := h.keys
  lengths := h.lengths
  measured _ _ := nofun
  numbers := h.numbers
  own _ _ := nofun
  base := Nat.le_refl _
  flag hguards := List.mem_append_right _ (h.flag hguards)
  names id x hx := (h.names id x hx).congr rfl rfl rfl
  paired := h.paired

theorem Sound.enter (h : Sound site A p) : Sound site A { p with symbols := p.symbols.enter } where
  toWritten := { h.toWritten with }
  names id x hx := (h.names id x (SymbolTable.binds_enter.1 hx)).congr rfl rfl rfl
  paired := h.paired.enter

/-- Outside of a block that was begun in `a`, all that is left of it are the new buffers, whatever
is visible in it. -/
theorem Onward.close {a q' : Progress} (h : Onward B a q) (hbuffers : a.buffers = p.buffers)
    (hcounter : B.counter = p.symbols.counter) (hbase : A.counter ≤ p.symbols.counter)
    (hle : p.symbols.counter ≤ q.symbols.counter) (hblock : p.block <:+ q'.block)
    (htail : q'.symbols.scopes.tail = p.symbols.scopes.tail)
    (hcounter' : q'.symbols.counter = q.symbols.counter) (hbuffers' : q'.buffers = q.buffers) :
    Onward A p q' where
  block := hblock
  tail := htail
  counter := hcounter' ▸ hle
  kept := hbuffers' ▸ hbuffers ▸ h.kept
  buffers e he := by
    rw [hbuffers'] at he
    obtain he | ⟨role, n, hkey, hn, -⟩ := h.buffers e he
    · exact .inl (hbuffers ▸ he)
    · rw [hcounter] at hn
      exact .inr ⟨role, n, hkey, Nat.le_trans hbase hn, .inl hn⟩

theorem Written.close (hp : Written site A p) (h : Onward A p p')
    (hdeclared : p'.declared = p.declared)
    (htext : Stmt.AllScoped p'.block.reverse A.visible) (hq : Written site B q)
    (hfunctions : p'.functions = q.functions) (hcounter : p'.symbols.counter = q.symbols.counter)
    (hbuffers : p'.buffers = q.buffers) : Written site A p' := by
  refine ⟨htext, hfunctions ▸ hq.functions, ?_, hbuffers ▸ hq.lengths, fun e he hkey => ?_,
    fun role n hn => ?_, hdeclared ▸ hp.own, Nat.le_trans hp.base h.counter, hp.flag⟩
  · rw [hcounter, hbuffers]
    exact hq.keys
  · rw [hdeclared] at hkey
    obtain he | ⟨role, n, hfresh, -, hn | huses⟩ := h.buffers e he
    · exact List.Subset.trans (hp.measured e he hkey) h.visible
    · -- a buffer of the block has a newer name than those that are declared before
      rw [hfresh] at hkey
      exact absurd (hp.numbers role n (List.mem_append_left _ hkey)) (Nat.not_lt.2 hn)
    · exact huses
  · rw [Progress.visible, hdeclared] at hn
    exact Nat.lt_of_lt_of_le (hp.numbers role n hn) h.counter

/-! ### Walks -/

/-- The block after a walk is scoped, and the names that are left can be used as the residue
says. -/
structure Left (site : Site) (A : Around) (r : Residue) (p p' : Progress) : Prop where
  onward : Onward A p p'
  written : Written site A p'
  sound : r ≠ .hidden → Sound site A p'
  spares : r = .nothing → Spares site.graph p p'

namespace Left

variable {r r' : Residue}

theorem trans (h : Left site A r p p₁) (h' : Left site A r' p₁ p') :
    Left site A (r.join r') p p' where
  onward := h.onward.trans h'.onward
  written := h'.written
  sound hr := by
    apply h'.sound
    rintro rfl
    cases r <;> exact hr rfl
  spares hr := by
    cases r <;> cases r' <;> cases hr
    exact (h.spares rfl).trans (h'.spares rfl)

theorem of_reaches (h : Reaches site A p p') (hr : r = .nothing → Spares site.graph p p') :
    Left site A r p p' where
  onward := h.onward
  written := h.sound.toWritten
  sound _ := h.sound
  spares := hr

theorem of_spares (hp : Sound site A p) (honward : Onward A p p') (hwritten : Written site A p')
    (hpaired : p'.symbols.Paired) (hspares : Spares site.graph p p') :
    Left site A .nothing p p' where
  onward := honward
  written := hwritten
  sound _ := hp.of_spares honward hwritten hpaired hspares
  spares _ := hspares

theorem onward_second (h : Left site (p.inside A) .nothing { p with block := [] } q) :
    Onward (p.inside A) { p with block := [] } { q with block := [] } :=
  h.onward.close rfl rfl (Nat.le_refl _) h.onward.counter (List.suffix_refl _) h.onward.tail rfl rfl

theorem second (hp : Sound site A p)
    (h : Left site (p.inside A) .nothing { p with block := [] } q) :
    Sound site (p.inside A) { q with block := [] } := by
  refine hp.inside.of_spares h.onward_second ?_ (h.sound nofun).paired (h.spares rfl)
  exact hp.inside.close h.onward_second rfl trivial h.written rfl rfl rfl

/-- Behind a branch, the names of its second arm may be left but not their declarations. -/
theorem branch {c : Name} (hp : Sound site A p) (hc : c.uses ⊆ p.visible A)
    (ht : Left site (p.inside A) .nothing { p with block := [] } p₁)
    (hf : Left site (p.inside A) r { p₁ with block := [] } q) :
    Left site A r.outside p
      { q with block := .branch c p₁.block.reverse q.block.reverse :: p.block } := by
  have harms : Onward (p.inside A) { p with block := [] } q := ht.onward_second.trans hf.onward
  have honward : Onward A p
      { q with block := .branch c p₁.block.reverse q.block.reverse :: p.block } :=
    harms.close rfl rfl hp.base harms.counter (List.suffix_cons ..) harms.tail rfl rfl
  have hwritten :=
    hp.close honward rfl (hp.text_cons ⟨hc, ht.written.text, hf.written.text⟩) hf.written
    rfl rfl rfl
  cases r with
  | nothing =>
    exact .of_spares hp honward hwritten (hf.sound nofun).paired
      ((ht.spares rfl).trans (hf.spares rfl))
  | visible | hidden => exact ⟨honward, hwritten, fun hr => absurd rfl hr, nofun⟩

theorem region (hp : Sound site A p) (h : Left site A r { p with symbols := p.symbols.enter } q) :
    Left site A .nothing p { q with symbols := q.symbols.exit } := by
  have hexit := SymbolTable.exit_eq h.onward.tail
  refine .of_spares hp { h.onward with tail := ?_ } { h.written with } ?_ fun id x hx => ?_
  · simp only [hexit]
    rfl
  · rw [hexit]
    exact hp.paired
  · simp only [hexit] at hx
    exact .inl hx

theorem meet {met : List NodeId} (hp : Sound site A p)
    (h : Sound site A { p with merges := met } → Left site A r { p with merges := met } q) :
    Left site A r p q := by
  have hmeet : Reaches site A p { p with merges := met } :=
    hp.of_eq rfl rfl (Nat.le_refl _) rfl hp.functions
  exact (of_reaches (r := .nothing) hmeet fun _ => .of_eq rfl).trans (h hmeet.sound)

theorem leave (h : Left site A r p q) : Left site A r p { q with block := .leave :: q.block } := by
  have honward : Onward A q { q with block := .leave :: q.block } :=
    .of_buffers (List.suffix_cons ..) rfl (Nat.le_refl _) rfl
  have hwritten :=
    h.written.write (s := .leave) (List.nil_subset _) (Nat.le_refl _) (List.forall_mem_nil _)
  refine ⟨h.onward.trans honward, hwritten, fun hr => ?_, h.spares⟩
  exact (h.sound hr).of_spares honward hwritten (h.sound hr).paired (.of_eq rfl)

theorem loop {outer inner : List LoopFrame} (hp : Sound site A p)
    (h : Sound site (p.inside A)
      { p with loops := inner, block := [], symbols := p.symbols.enter } →
      Left site (p.inside A) r { p with loops := inner, block := [], symbols := p.symbols.enter }
        q) :
    Left site A .nothing p
      { q with
        loops := outer
        block := .loop .forever q.block.reverse :: p.block
        symbols := q.symbols.exit } := by
  have hinner : Reaches site (p.inside A) { p with block := [] }
    { p with loops := inner, block := [] } :=
    hp.inside.of_eq rfl rfl (Nat.le_refl _) rfl hp.functions
  have hbody : Left site (p.inside A) .nothing { p with loops := inner, block := [] }
      { q with symbols := q.symbols.exit } := region hinner.sound (h hinner.sound.enter)
  have honward : Onward A p { q with
      loops := outer
      block := .loop .forever q.block.reverse :: p.block
      symbols := q.symbols.exit } :=
    hbody.onward.close rfl rfl hp.base hbody.onward.counter (List.suffix_cons ..)
      hbody.onward.tail rfl rfl
  have hwritten :=
    hp.close honward rfl (hp.text_cons ⟨List.nil_subset _, hbody.written.text⟩) hbody.written
    rfl rfl rfl
  exact .of_spares hp honward hwritten (hbody.sound nofun).paired (hbody.spares rfl)

end Left

/-- A walk from `p` to `p'` ended as its course in the graph says. -/
structure Walked (site : Site) (exit : Option NodeId) (seen' : List NodeId) (r : Residue)
    (p : Progress) (x : Option NodeId) (p' : Progress) : Prop where
  flow : x = exit
  merges : p'.merges = seen'
  diagnostics : p'.diagnostics = [] → p.diagnostics = []
  left : ∀ A, p'.diagnostics = [] → Sound site A p → Left site A r p p'

namespace Walked

variable {w : Bench} {exit x x' : Option NodeId} {seen' seen₁ : List NodeId} {r r' : Residue}

theorem trans (h : Walked site x' seen₁ r p x' q) (hr : r ≠ .hidden)
    (h' : Walked site exit seen' r' q x p') : Walked site exit seen' (r.join r') p x p' where
  flow := h'.flow
  merges := h'.merges
  diagnostics hnone := h.diagnostics (h'.diagnostics hnone)
  left A hnone hp := by
    have hleft := h.left A (h'.diagnostics hnone) hp
    exact hleft.trans (h'.left A hnone (hleft.sound hr))

theorem stay : Walked site x p.merges .nothing p x p where
  flow := rfl
  merges := rfl
  diagnostics := id
  left _ _ hp := .of_reaches (.refl hp) fun _ => .of_eq rfl

theorem write {s : Stmt} (hs : ∀ A, Sound site A p → s.Scoped (p.visible A))
    (hdeclares : s.declares = []) :
    Walked site x p.merges .nothing p x { p with block := s :: p.block } where
  flow := rfl
  merges := rfl
  diagnostics := id
  left A _ hp := by
    refine .of_reaches (hp.write (hs A hp) (Nat.le_refl _) ?_) fun _ => .of_eq rfl
    rw [hdeclares]
    exact List.forall_mem_nil _

theorem of_works {m m' : Lower α} {a : α} {n : Option NodeId} {values : List NodeId}
    {Q : α → Progress → Prop} (hw : w.Shelters) (hm : Works w [] n anyhow m m' Q)
    (hspares : values.all w.site.graph.isPlain = true → Sparing w.site.graph m)
    (hrun : m p = .ok (a, p')) :
    Walked w.site x p.merges (w.site.graph.residueOf values) p x p' where
  flow := rfl
  merges := (hm trivial hrun).1.merges hw
  diagnostics := (hm trivial hrun).1.keeps.unreported
  left A hnone hp := by
    refine .of_reaches ((hm trivial hrun).1.reaches hw hnone hp) fun hr => ?_
    exact (hspares (Graph.residueOf_eq_nothing hr) hrun hnone).2

end Walked

section Control

variable {w : Bench} {exit x : Option NodeId} {seen seen' : List NodeId} {r : Residue}

/-- A step of the walk marks its node, which changes nothing for the names, and lowers it. -/
theorem lowerWalk_step (hk : site.graph.kind? id = some (.control c))
    (h : lowerWalk site value length id p = .ok (x, p')) :
    ∃ n p₀, p₀.merges = p.merges ∧
      (∀ {exit seen' r}, Walked site exit seen' r p₀ x p' → Walked site exit seen' r p x p') ∧
      lowerControl site value (lowerWalk site value n) id c p₀ = .ok (x, p') := by
  obtain ⟨n, h⟩ := lowerWalk_eq_ok hk h
  refine ⟨n, { p with block := .mark c.name id :: p.block }, rfl, fun hwalked => ?_, h⟩
  exact (Walked.write (x := none) (fun A _ => List.nil_subset _) rfl).trans nofun hwalked

variable (hw : w.Shelters) (hvalue : SheltersValues w value)
include hw hvalue

theorem value_walked {v : NodeId} (h : value v p = .ok (a, p')) :
    Walked w.site x p.merges (w.site.graph.residueOf [v]) p x p' ∧
      ∀ A, Sound w.site A p' → a.uses ⊆ p'.visible A := by
  obtain ⟨watched, hworks⟩ := hvalue.works
  refine ⟨.of_works hw (hworks none v) (fun h => hvalue.spares v (by simpa using h)) h,
    fun A hp => ?_⟩
  exact (hp.names v a (SymbolTable.binds_of_nameOf? (hworks none v trivial h).2.1)).shown

theorem lowerReturn_walked {v : Option NodeId} {u : Unit}
    (h : lowerReturn w.site value v p = .ok (u, p')) :
    Walked w.site x p.merges (w.site.graph.residueOf v.toList) p x p' := by
  have hreturn {q : Progress} {name : Option Name} (hrun : emitReturn name q = .ok (u, p'))
      (hname : ∀ A, Sound w.site A q → name.elim [] Name.uses ⊆ q.visible A) :
      Walked w.site x q.merges .nothing q x p' := by
    rcases emitReturn_cases hrun with ⟨rfl, -⟩ | rfl
    · exact .stay
    · exact .write hname rfl
  simp only [lowerReturn, hw.function.mode, Mode.isKernel, Bool.false_eq_true, if_false] at h
  cases v with
  | none => exact hreturn h fun _ _ => List.nil_subset _
  | some v =>
    obtain ⟨name, q, hname, h⟩ := Step.bind_eq_ok.1 h
    obtain ⟨hwalked, hshown⟩ := value_walked (x := x) hw hvalue hname
    split at h
    · have hlast := hwalked.trans (Graph.residueOf_ne_hidden _ _) (hreturn h hshown)
      rwa [Residue.join_nothing, hwalked.merges] at hlast
    · cases h
      exact hwalked

theorem Walked.branch {c : NodeId} {x₁ x₂ e₁ e₂ : Option NodeId} {seen₁ seen₂ : List NodeId}
    {q₁ q₂ : Progress} (ha : value c p = .ok (a, p₁))
    (ht : Walked w.site e₁ seen₁ .nothing { p₁ with block := [] } x₁ q₁)
    (hf : Walked w.site e₂ seen₂ r { q₁ with block := [] } x₂ q₂) :
    Walked w.site x seen₂ ((w.site.graph.residueOf [c]).join r.outside) p x
      { q₂ with block := .branch a q₁.block.reverse q₂.block.reverse :: p₁.block } := by
  obtain ⟨hwalked, hshown⟩ := value_walked (x := none) hw hvalue ha
  refine hwalked.trans (Graph.residueOf_ne_hidden _ _)
    ⟨rfl, hf.merges, fun hnone => ht.diagnostics (hf.diagnostics hnone), fun A hnone hp => ?_⟩
  have hleft := ht.left _ (hf.diagnostics hnone) hp.inside
  exact .branch hp (hshown A hp) hleft (hf.left _ hnone (Left.second hp hleft))

/-- The text of a walk is scoped, and its names are left as the graph says. -/
theorem lowerWalk_walked (hleaves : w.site.graph.Leaves seen id exit seen' r)
    (h : lowerWalk w.site value length id p = .ok (x, p')) (hseen : p.merges = seen) :
    Walked w.site exit seen' r p x p' := by
  have hmode : w.site.mode.isKernel = false := by rw [hw.function.mode]; rfl
  obtain ⟨watched, hworks⟩ := hvalue.works
  -- the induction is on the layout; as the merges met are the same, lowering goes on by the same
  -- rule
  induction hleaves generalizing length p x p' with
  | region hk _ ih =>
    obtain ⟨n, p₀, hp₀, hmarked, h⟩ := lowerWalk_step hk h
    obtain ⟨q, hbody, rfl⟩ := inScope_eq_ok h
    have hwalked := ih hbody (hp₀.trans hseen)
    refine hmarked ⟨hwalked.flow, hwalked.merges, hwalked.diagnostics, fun A hnone hp => ?_⟩
    exact .region hp (hwalked.left A hnone hp.enter)
  | @pass _ id c _ _ _ _ hk hregion hnext _ ih =>
    obtain ⟨n, p₀, hp₀, hmarked, h⟩ := lowerWalk_step hk h
    rw [lowerControl_eq_passing hregion hnext] at h
    obtain ⟨_, p₁, hpassing, h⟩ := Step.bind_eq_ok.1 h
    have hpasses : Walked w.site none p₀.merges (w.site.graph.residueOf (w.site.graph.asked id c))
        p₀ none p₁ :=
      .of_works hw (passing_works hworks (n := none) hk) (passing_spares hvalue hw.function)
        hpassing
    have hwalked := ih h (hpasses.merges.trans (hp₀.trans hseen))
    exact hmarked (hpasses.trans (Graph.residueOf_ne_hidden _ _) hwalked)
  | merge hk hunmet _ ih =>
    obtain ⟨n, p₀, hp₀, hmarked, h⟩ := lowerWalk_step hk h
    rw [← hseen, ← hp₀] at hunmet
    rcases lowerMerge_cases h with ⟨hmet, -⟩ | ⟨-, h⟩
    · exact absurd hmet hunmet
    · have hwalked := ih h (congrArg _ (hp₀.trans hseen))
      refine hmarked ⟨hwalked.flow, hwalked.merges, hwalked.diagnostics, fun A hnone hp => ?_⟩
      exact .meet hp (hwalked.left A hnone)
  | met hk hmet =>
    obtain ⟨n, p₀, hp₀, hmarked, h⟩ := lowerWalk_step hk h
    have hseen₀ := hp₀.trans hseen
    rcases lowerMerge_cases h with ⟨-, rfl, rfl⟩ | ⟨hunmet, -⟩
    · exact hmarked (hseen₀ ▸ .stay)
    · exact absurd (hseen₀ ▸ hmet) hunmet
  | @join _ id m hk =>
    obtain ⟨n, p₀, hp₀, hmarked, h⟩ := lowerWalk_step hk h
    obtain ⟨pairs, p₁, hpairs, h⟩ := Step.bind_eq_ok.1 h
    obtain ⟨_, p₂, hassign, ⟨⟩⟩ := Step.bind_pure_eq_ok.1 h
    apply hmarked
    rw [← hseen, ← hp₀]
    have hend : Works w [] none anyhow (do assignPhis (← phiValues w.site value m id)) _
        fun _ => anyhow :=
      (phiValues_works hworks).andThen fun _ => assignPhis_works
    exact .of_works hw hend (lowerEnd_spares hvalue)
      (Step.bind_eq_ok.2 ⟨pairs, p₁, hpairs, hassign⟩)
  | ret hk =>
    obtain ⟨n, p₀, hp₀, hmarked, h⟩ := lowerWalk_step hk h
    obtain ⟨_, p₁, hreturn, ⟨⟩⟩ := Step.bind_pure_eq_ok.1 h
    apply hmarked
    rw [← hseen, ← hp₀]
    exact lowerReturn_walked hw hvalue hreturn
  | branch hk _ _ iht ihf =>
    obtain ⟨n, p₀, hp₀, hmarked, h⟩ := lowerWalk_step hk h
    obtain ⟨a, p₁, x₁, q₁, x₂, q₂, ha, htrue, hfalse, hrest⟩ := lowerBranch_cases h
    have hmerges := (value_walked (x := none) hw hvalue ha).1.merges
    have ht := iht htrue (hmerges.trans (hp₀.trans hseen))
    have hf := ihf hfalse ht.merges
    rcases hrest with ⟨-, -, rfl, rfl⟩ | ⟨m, hm, -⟩
    · exact hmarked (.branch hw hvalue ha ht hf)
    · rw [ht.flow, hf.flow] at hm
      cases hm
  | branchMerge hk _ _ hm hsame _ iht ihf ih =>
    obtain ⟨n, p₀, hp₀, hmarked, h⟩ := lowerWalk_step hk h
    obtain ⟨a, p₁, x₁, q₁, x₂, q₂, ha, htrue, hfalse, hrest⟩ := lowerBranch_cases h
    have hmerges := (value_walked (x := none) hw hvalue ha).1.merges
    have ht := iht htrue (hmerges.trans (hp₀.trans hseen))
    have hf := ihf hfalse ht.merges
    rcases hrest with ⟨rfl, rfl, -⟩ | ⟨m, hm', -, hwalk⟩
    · rw [← ht.flow, ← hf.flow] at hm
      cases hm
    · rw [ht.flow, hf.flow, hm] at hm'
      cases hm'
      -- both arms leave nothing, so what comes behind them starts with the names of the condition
      have harms := Walked.branch (x := none) hw hvalue ha ht hf
      rw [Residue.outside, Residue.join_nothing] at harms
      exact hmarked (harms.trans (Graph.residueOf_ne_hidden _ _) (ih hwalk hf.merges))
  | @loop _ id _ _ _ _ _ hk _ ih =>
    obtain ⟨n, p₀, hp₀, hmarked, h⟩ := lowerWalk_step hk h
    obtain ⟨init, p₁, x₁, q, hphis, hwalk, rfl, rfl⟩ := lowerLoop_cases hmode h
    have hhead : w.site.graph.isLoopHead id = true := by simp [Graph.isLoopHead, hk]
    obtain ⟨hwork, -⟩ := lowerLoopPhis_works hworks (fun _ => rfl) hhead (List.Subset.refl _)
      trivial hphis
    have hwalked := ih hwalk ((hwork.merges hw).trans (hp₀.trans hseen))
    refine hmarked ⟨rfl, hwalked.merges, fun hnone => ?_, fun A hnone hp => ?_⟩
    · exact hwork.keeps.unreported (hwalked.diagnostics hnone)
    · -- the variables stay in front of the loop, and the body leaves nothing
      have hreaches := hwork.reaches hw (hwalked.diagnostics hnone) hp
      rw [← Residue.join_nothing (ite ..)]
      refine (Left.of_reaches hreaches fun hr => ?_).trans
        (.loop hreaches.sound (hwalked.left _ hnone))
      split at hr
      · next hnil =>
        rw [hnil] at hphis
        cases hphis
        exact .of_eq rfl
      · cases hr
  | backEdge hk =>
    obtain ⟨n, p₀, hp₀, hmarked, h⟩ := lowerWalk_step hk h
    obtain ⟨_, p₁, hedge, ⟨⟩⟩ := Step.bind_pure_eq_ok.1 h
    apply hmarked
    rw [← hseen, ← hp₀]
    exact .of_works hw (lowerBackEdge_works hworks (n := none)) (lowerBackEdge_spares hvalue) hedge
  | loopExit hk _ ih =>
    obtain ⟨n, p₀, hp₀, hmarked, h⟩ := lowerWalk_step hk h
    obtain ⟨p₁, hwalk, h⟩ := lowerExit_cases h
    have hwalked := ih hwalk (hp₀.trans hseen)
    -- a `break` is written at most, and not where the text has returned
    rcases h with ⟨-, rfl⟩ | ⟨-, rfl⟩ | ⟨u, hleave⟩
    · exact hmarked hwalked
    · exact hmarked hwalked
    · rcases emitLeave_cases hleave with ⟨rfl, -⟩ | rfl
      · exact hmarked hwalked
      · refine hmarked ⟨hwalked.flow, hwalked.merges, hwalked.diagnostics, fun A hnone hp => ?_⟩
        exact (hwalked.left A hnone hp).leave

end Control

/-! ### Functions -/

variable {guards : Bool} {lambdas : List Graph} {structs : Structs} {s : Signature}

def Signature.declared (s : Signature) : List Ident := s.parameters.flatMap Parameter.declares

theorem ofFunction_declares (h : Signature.ofFunction g structs guards = .ok s)
    {p : Graph.Parameter}
    (hp : p ∈ g.parameters) : .var (.parameter p.index.toNat) ∈ s.declared ∧
    (p.type.isArray = true →
      .metadata (.parameter p.index.toNat) ∈ s.declared ∧
        .parameter p.index.toNat ∈ s.dimensions) := by
  obtain ⟨blocks, structs, hblocks, rfl⟩ := ofFunction_eq_ok h
  obtain ⟨block, hblock, hstated⟩ := exists_mem_of_forall₂ hblocks.flip hp
  have hdeclared {q : Parameter} {i : Ident} (hq : q ∈ block) (hi : i ∈ q.declares) :
      i ∈ (blocks.flatten ++ flagParameter guards).flatMap Parameter.declares :=
    List.mem_flatMap.2 ⟨q, List.mem_append_left _ (List.mem_flatten.2 ⟨block, hblock, hq⟩), hi⟩
  cases hstated.becomes with
  | array c harray =>
    refine ⟨hdeclared (.head _) (.head _), fun _ => ⟨hdeclared (.tail _ (.head _)) (.head _), ?_⟩⟩
    exact List.mem_map.2 ⟨p, List.mem_filter.2 ⟨hp, harray⟩, rfl⟩
  | value c hvalue =>
    exact ⟨hdeclared (.head _) (.head _), fun harray => by cases hvalue.symm.trans harray⟩

theorem bindParameters_start (ps : List Graph.Parameter) :
    (bindParameters .empty ps).counter = 0 ∧ (bindParameters .empty ps).Paired := by
  suffices h : ∀ t : SymbolTable Name, t.counter = 0 → t.Paired →
      (bindParameters t ps).counter = 0 ∧ (bindParameters t ps).Paired from
    h .empty rfl SymbolTable.paired_empty
  induction ps with
  | nil => exact fun _ hcounter hpaired => ⟨hcounter, hpaired⟩
  | cons p ps ih =>
    exact fun t hcounter hpaired => ih _ (SymbolTable.counter_bind.trans hcounter) hpaired.bind

theorem allScoped_dimensions (arrays : List Name) (visible : List Ident) :
    Stmt.AllScoped (arrays.map .dimension) visible := by
  induction arrays generalizing visible with
  | nil => trivial
  | cons array arrays ih => exact ⟨List.nil_subset _, ih _⟩

theorem ofFunction_sound (hg : g.Valid) (h : Signature.ofFunction g structs guards = .ok s) :
    Sound (s.site g .function guards) ⟨s.declared, 0⟩
      { Progress.start s.symbols s.structs with
        block := (s.dimensions.map Stmt.dimension).reverse ++ [] } := by
  have hflag (hguards : guards = true) : .deoptFlag ∈ s.declared := by
    obtain ⟨blocks, structs, -, rfl⟩ := ofFunction_eq_ok h
    simp [Signature.declared, hguards, flagParameter, Parameter.declares]
  have hsymbols : s.symbols.counter = 0 ∧ s.symbols.Paired := by
    obtain ⟨blocks, structs, -, rfl⟩ := ofFunction_eq_ok h
    exact bindParameters_start g.parameters
  have hdimension (i : Ident) (hi : i ∈ ((s.dimensions.map Stmt.dimension).reverse ++ []).flatMap
    Stmt.declares) :
      ∃ x, i = .dimension x := by
    obtain ⟨t, ht, hi⟩ := List.mem_flatMap.1 hi
    obtain ⟨x, -, rfl⟩ : ∃ x ∈ s.dimensions, Stmt.dimension x = t := by simpa using ht
    exact ⟨x, List.mem_singleton.1 hi⟩
  have hwritten : Written (s.site g .function guards) ⟨s.declared, 0⟩
      { Progress.start s.symbols s.structs with
        block := (s.dimensions.map Stmt.dimension).reverse ++ [] } := by
    refine ⟨?_, List.forall_mem_nil _, List.forall_mem_nil _, List.forall_mem_nil _,
      List.forall_mem_nil _,
      fun role n hn => ?_, fun role n hn => ?_, Nat.zero_le _, hflag⟩
    · simp only [List.append_nil, List.reverse_reverse]
      exact allScoped_dimensions ..
    · -- neither dimensions nor parameters have fresh names
      obtain hn | hn := List.mem_append.1 hn
      · obtain ⟨x, hx⟩ := hdimension _ hn
        cases hx
      · obtain ⟨q, hq, hn⟩ := List.mem_flatMap.1 hn
        obtain ⟨m, hm | hm⟩ | hm := ofFunction_declared h q hq _ hn <;> cases hm
    · obtain ⟨x, hx⟩ := hdimension _ hn
      cases hx
  refine ⟨hwritten, fun id x hx => ?_, hsymbols.2⟩
  obtain ⟨q, hq, rfl, rfl⟩ := ofFunction_binds h hx
  obtain ⟨hvar, harray⟩ := ofFunction_declares h hq
  refine hwritten.declared (fun _ _ => Name.noConfusion)
    (List.cons_subset.2 ⟨List.mem_append_right _ hvar, List.nil_subset _⟩) fun hkind => ?_
  -- inference may say less than the type of a parameter, but never that it is an array
  obtain ⟨hmetadata, hmem⟩ := harray <|
    (ParameterType.isArray_valueKind q.type).symm.trans
      (Graph.isArray_rule (hg.mem_parameters.1 hq) hkind)
  refine List.cons_subset.2 ⟨List.mem_append_right _ hmetadata,
    List.cons_subset.2
      ⟨List.mem_append_left _ (List.mem_flatMap.2 ⟨.dimension (.parameter _), ?_, .head _⟩),
      List.nil_subset _⟩⟩
  simpa using hmem

theorem lowerBody_written {w : Bench} {arrays : List Name} (hw : w.Shelters)
    (hsupplied : w.Supplied) (hsheltered : w.site.graph.Sheltered)
    (hp : Sound w.site A { p with block := (arrays.map Stmt.dimension).reverse ++ p.block })
    (hmerges : p.merges = []) (h : lowerBody w.site w.lambdas w.function arrays [] p = .ok ((), p'))
    (hnone : p'.diagnostics = []) : Written w.site A p' := by
  obtain ⟨start, exit, seen, r, hstart, hleaves⟩ := hsheltered
  obtain ⟨p₁, start', x, hphis, hstart', hwalk⟩ := lowerBody_eq_ok h
  cases hstart.symm.trans hstart'
  have hvalue : SheltersValues w
      (lowerValue w.site w.lambdas w.function (valueDepth w.site.graph)) :=
    ⟨⟨_, lowerValue_works hsupplied [] _⟩, fun _ => lowerValue_spares⟩
  obtain ⟨hwork, -⟩ := declareMergePhis_works (w := w) (r := []) trivial hphis
  have hwalked := lowerWalk_walked hw hvalue hleaves hwalk ((hwork.merges hw).trans hmerges)
  have hp₁ := (hwork.reaches hw (hwalked.diagnostics hnone) hp).sound
  exact (hwalked.left A hnone hp₁).written

/-- Each lambda is lowered to scoped functions, through however many calls. -/
theorem lowerBundle_scoped (hvalid : ∀ l ∈ lambdas, l.Valid) (htyped : ∀ l ∈ lambdas, l.ArraysTyped)
    (hsheltered : ∀ l ∈ lambdas, l.Sheltered) :
    ∀ l ∈ lambdas, ∀ callers b, lowerBundle lambdas guards depth l callers = .ok b →
      b.diagnostics = [] → ∃ callees f, b.functions = callees ++ [f] ∧
        f.name = functionName l.name ∧ ∀ f' ∈ b.functions, f'.Scoped := by
  induction depth with
  | zero => exact fun _ _ _ _ h => by cases h
  | succ depth ih =>
    intro l hl callers b h hnone
    obtain ⟨result, structs, s, p, -, hs, hbody, rfl⟩ := lowerFunction_eq_ok h
    let w : Bench := { functionBench lambdas guards depth callers l s with walks := false }
    have hw : w.Shelters := by
      refine ⟨functionBench_isFunction hs lambdas depth callers, htyped l hl, rfl,
        fun l' hl' callers' b' h' hnone' => ?_⟩
      obtain ⟨_, _, -, -, hscoped⟩ := ih l' hl' callers' b' h' hnone'
      exact hscoped
    have hwritten := lowerBody_written hw (Bench.supplied_of_lower rfl) (hsheltered l hl)
      (ofFunction_sound (hvalid l hl) hs) rfl hbody hnone
    exact ⟨p.functions, _, rfl, rfl, List.forall_mem_append.2
      ⟨hwritten.functions, List.forall_mem_singleton.2 hwritten.text⟩⟩

/-- If every graph is sheltered and what is used as an array is one, then all functions of a bundle
without findings are scoped. -/
theorem emitted_functions_scoped {nested : List Graph} {b : Bundle}
    (hnested : ∀ l ∈ nested, l.validate = .ok ()) (htyped : ∀ l ∈ g :: nested, l.ArraysTyped)
    (hsheltered : ∀ l ∈ g :: nested, l.Sheltered) (h : lowerLambda g nested guards = .ok b)
    (hnone : b.diagnostics = []) :
    ∃ callees f, b.functions = callees ++ [f] ∧ f.name = functionName g.name ∧
      ∀ f' ∈ b.functions, f'.Scoped := by
  obtain ⟨_, hg, h⟩ := bind_eq_ok.1 h
  have hvalid : ∀ l ∈ g :: nested, l.Valid := by
    rintro l (- | ⟨-, hl⟩)
    · exact Graph.valid_of_validate hg
    · exact Graph.valid_of_validate (hnested l hl)
  exact lowerBundle_scoped hvalid htyped hsheltered g (.head _) _ b h hnone

/-- Adds up what `weigh` makes of the elements of an array. The loop is left right at an arm. -/
def total : Graph := .ofKinds "total" [
  .start 4,
  .operation (.parameter 0 (.array (.scalar .int))),
  .int 0,
  .int 1,
  .loopHead 13 none,
  .phi 4 [2, 7],
  .phi 4 [2, 10],
  .binary .add 5 3,
  .operation (.loadIndexed 1 5),
  .operation (.invoke (.lambda "weigh") [8] (.scalar .int)),
  .binary .add 6 9,
  .operation (.arrayLength 1),
  .compare .lt 5 11,
  .branch 12 14 16,
  .region 15,
  .backEdge 4,
  .loopExit 4 17,
  .ret (some 6)]

/-- Uses a square in an arm of a branch, and again behind the branch. -/
def weigh : Graph := .ofKinds "weigh" [
  .start 5,
  .parameter 0 .int,
  .int 0,
  .binary .mul 1 1,
  .compare .lt 1 2,
  .branch 4 6 8,
  .region 7,
  .join 10,
  .region 9,
  .join 10,
  .merge 13,
  .phi 10 [3, 1],
  .binary .add 11 3,
  .ret (some 12)]

theorem total_sheltered : total.Sheltered := by
  have hbody : total.Leaves [] 13 none [] _ :=
    .branch rfl (.region rfl (.backEdge rfl)) (.loopExit rfl (.ret rfl))
  exact ⟨0, none, [], _, rfl, .pass rfl rfl rfl (.loop rfl hbody)⟩

theorem weigh_sheltered : weigh.Sheltered := by
  have htrue : weigh.Leaves [] 6 (some 10) [] .nothing := .region rfl (.join rfl)
  have hfalse : weigh.Leaves [] 8 (some 10) [] .nothing := .region rfl (.join rfl)
  have hmerge : weigh.Leaves [] 10 none [10] _ := .merge rfl nofun (.ret rfl)
  exact ⟨0, none, [10], _, rfl,
    .pass rfl rfl rfl
      (.branchMerge rfl htrue hfalse rfl (fun _ h => (Option.some.inj h).symm) hmerge)⟩

theorem total_weigh_scoped : weigh.validate = .ok () ∧ (∀ l ∈ [total, weigh], l.ArraysTyped) ∧
    (∀ l ∈ [total, weigh], l.Sheltered) ∧ ∃ b, lowerLambda total [weigh] true = .ok b ∧
      (b.diagnostics = [] ∧
        b.functions.map (·.name) = [functionName "weigh", functionName "total"]) ∧
      ∀ f ∈ b.functions, f.Scoped := by
  have hvalid : weigh.validate = .ok () := rfl
  have htyped : ∀ l ∈ [total, weigh], l.ArraysTyped := by decide +kernel
  have hsheltered : ∀ l ∈ [total, weigh], l.Sheltered := by
    simp only [List.forall_mem_cons]
    exact ⟨total_sheltered, weigh_sheltered, nofun⟩
  refine ⟨hvalid, htyped, hsheltered, exists_ok_and (by decide +kernel) fun b hb h => ?_⟩
  obtain ⟨_, _, -, -, hscoped⟩ :=
    emitted_functions_scoped (by simpa using hvalid) htyped hsheltered hb h.1
  exact hscoped

/-! ### Graphs whose functions are not scoped -/

/-- Uses a sum in an arm of a branch, and again behind the branch. The arm is a block, but no
scope. -/
def reuse : Graph := .ofKinds "reuse" [
  .start 4,
  .parameter 0 .boolean,
  .parameter 1 .int,
  .int 1,
  .branch 1 5 6,
  .join 8,
  .region 7,
  .join 8,
  .merge 12,
  .binary .add 2 3,
  .phi 8 [9, 2],
  .binary .mul 10 9,
  .ret (some 11)]

theorem reuse_parameters : reuse.parameters =
    [⟨1, 0, .scalar .boolean⟩, ⟨2, 1, .scalar .int⟩] :=
  Graph.parameters_of_pairwise rfl (by decide)

/-- Behind the branch, the name that the sum has in the arm is used. -/
theorem reuse_not_scoped : reuse.ArraysTyped ∧
    ∃ b, lowerLambda reuse [] true = .ok b ∧ ∃ f, b.functions = [f] ∧ b.diagnostics = [] ∧
      ¬ f.Scoped := by
  refine ⟨by decide +kernel, ?_⟩
  simp only [lowerLambda, lowerBundle, callDepth, lowerFunction, Signature.ofFunction,
    reuse_parameters]
  decide +kernel

end Lowering

end Kernelwright
