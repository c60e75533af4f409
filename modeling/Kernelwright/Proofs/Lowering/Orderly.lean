import Kernelwright.Proofs.Lowering.Calls

/-!
# Lowering in order

A value that cannot be lowered is suppressed: its node gets an illegal name, and a diagnostic is
about the node. A state of lowering is in order if every node with an illegal name is reported, and
no statement names an illegal value, loop variables apart.

Each function of a bundle comes from one of the lambdas, and its body is lowered the same when every
value is watched, with all that the bundle reports. The induction is on how deep calls nest.
-/

namespace Kernelwright

open Code

variable {ds ds' : List Diagnostic} {g : Graph}

/-- A phi of a loop starts from a value that is reported. -/
def Graph.StartsBlind (g : Graph) (ds : List Diagnostic) : Prop :=
  ∃ head phi merge entry rest, g.isLoopHead head = true ∧ phi ∈ g.phisOf head ∧
    g.kind? phi = some (.operation (.phi merge (entry :: rest))) ∧ Reported ds entry

theorem Graph.StartsBlind.mono (h : g.StartsBlind ds) (hsub : ds ⊆ ds') : g.StartsBlind ds' := by
  obtain ⟨head, phi, merge, entry, rest, hhead, hphi, hkind, hentry⟩ := h
  exact ⟨head, phi, merge, entry, rest, hhead, hphi, hkind, hentry.mono hsub⟩

namespace Lowering

variable {word : String → Prop} {s : Stmt}

/-! ### States in order -/

/-- A statement of the function of a graph marks nodes, takes words from outside only if it may, and
its names stand for values, unless a loop variable is declared whose phi starts blind. -/
structure Permitted (g : Graph) (word : String → Prop) (ds : List Diagnostic) (s : Stmt) :
    Prop where
  mark : ∀ kind id, s = .mark kind id → ∃ k : NodeKind, kind = k.name
  words : ∀ u ∈ s.words, word u
  names : (∀ i ∈ s.idents, i.isLegal = true) ∨ (s.isBlind = true ∧ g.StartsBlind ds)

theorem Permitted.mono (h : Permitted g word ds s) (hsub : ds ⊆ ds') : Permitted g word ds' s :=
  ⟨h.mark, h.words, h.names.imp_right fun ⟨hblind, hstart⟩ => ⟨hblind, hstart.mono hsub⟩⟩

theorem Permitted.of_unmarked (hmarked : s.marked? = none) (hwords : ∀ u ∈ s.words, word u)
    (hnames : (∀ i ∈ s.idents, i.isLegal = true) ∨ (s.isBlind = true ∧ g.StartsBlind ds)) :
    Permitted g word ds s := by
  refine ⟨fun kind id h => ?_, hwords, hnames⟩
  rw [h] at hmarked
  cases hmarked

/-- All statements may stand in the text, every node that has no legal name is reported, and
`callee` holds of the functions that are taken over, given what has been reported. -/
structure InOrder (g : Graph) (word : String → Prop)
    (callee : List Diagnostic → Code.Function → Prop) (p : Progress) : Prop where
  text : ∀ s ∈ Stmt.allParts p.block, Permitted g word p.diagnostics s
  names : ∀ id x, p.symbols.Binds id x → x.isLegal = true ∨ x = .illegal ∧ Reported p.diagnostics id
  lengths : ∀ e ∈ p.buffers, e.2.isLegal = true
  functions : ∀ f ∈ p.functions, callee p.diagnostics f

/-- The words of all nodes of the function may stand in the text, and what is said of the functions
of callees goes on to hold when more is reported. -/
structure Bench.Governs (w : Bench) (word : String → Prop)
    (callee : List Diagnostic → Code.Function → Prop) : Prop where
  function : w.site.IsFunction
  words : ∀ ⦃id kind⦄, w.kind? id = some kind → ∀ u ∈ kind.words, word u
  lasts : ∀ ⦃ds ds' f⦄, ds ⊆ ds' → callee ds f → callee ds' f
  callees : ∀ l ∈ w.lambdas, ∀ callers b, w.lower l callers = .ok b →
    ∀ f ∈ b.functions, callee b.diagnostics f

section Work

variable {w : Bench} {n : Option NodeId} {p p' : Progress} {id : NodeId} {x : Name} {k : ValueKind}
variable {callee : List Diagnostic → Code.Function → Prop} {i : Ident} {counter : Nat}
variable {block : List Stmt}

namespace InOrder

variable (hp : InOrder g word callee p)
include hp

theorem withBlock (hblock : ∀ s ∈ Stmt.allParts block, Permitted g word p.diagnostics s)
    (loops : List LoopFrame) : InOrder g word callee { p with block := block, loops := loops } :=
  ⟨hblock, hp.names, hp.lengths, hp.functions⟩

theorem enter : InOrder g word callee { p with symbols := p.symbols.enter } :=
  ⟨hp.text, fun id x hx => hp.names id x (SymbolTable.binds_enter.1 hx), hp.lengths, hp.functions⟩

theorem exit : InOrder g word callee { p with symbols := p.symbols.exit } :=
  ⟨hp.text, fun id x hx => hp.names id x (SymbolTable.binds_of_exit hx), hp.lengths, hp.functions⟩

theorem bind (hx : x.isLegal = true ∨ x = .illegal ∧ Reported p.diagnostics id) :
    InOrder g word callee { p with symbols := p.symbols.bind x id k } where
  text := hp.text
  names other y hy := by
    obtain ⟨rfl, rfl⟩ | hy := SymbolTable.binds_bind.1 hy
    · exact hx
    · exact hp.names other y hy
  lengths := hp.lengths
  functions := hp.functions

theorem report (hlasts : ∀ ⦃ds ds' f⦄, ds ⊆ ds' → callee ds f → callee ds' f)
    (hsub : p.diagnostics ⊆ ds) :
    InOrder g word callee { p with diagnostics := ds } where
  text s hs := (hp.text s hs).mono hsub
  names id x hx := (hp.names id x hx).imp_right fun ⟨hillegal, hid⟩ => ⟨hillegal, hid.mono hsub⟩
  lengths := hp.lengths
  functions f hf := hlasts hsub (hp.functions f hf)

theorem legal (hx : p.symbols.Binds id x) (hlegal : x ≠ .illegal) : x.isLegal = true :=
  (hp.names id x hx).resolve_right fun h => hlegal h.1

theorem usable (h : w.Usable p i) : i.isLegal = true := by
  cases h with
  | name hx hlegal hi => exact Name.uses_legal_iff.2 (hp.legal hx hlegal) _ hi
  | declared hx => exact hx
  | known hx hlegal => exact (hp.legal hx hlegal :)
  | length _ hmem hi => exact Name.uses_legal_iff.2 (hp.lengths _ hmem) _ hi
  | data hx hlegal _ _ hi =>
    obtain rfl | hi := List.mem_cons.1 hi
    · exact hp.legal hx hlegal
    · cases List.mem_singleton.1 hi
      exact hp.legal hx hlegal
  | flag => rfl

theorem declarable (h : Bench.Declarable p counter i) : i.isLegal = true := by
  cases h with
  | fresh => rfl
  | legal hi => exact hi
  | length hx hlegal => exact (hp.legal hx hlegal :)

end InOrder

theorem mem_idents (h : i ∈ s.idents) : i ∈ s.declares ++ s.inner ∨ i ∈ s.uses := by
  cases s with
  | loop head body => exact List.mem_append.1 h
  | _ => exact (List.mem_append.1 h).imp_left (List.mem_append_left _)

theorem Bench.Allows.permitted (h : w.Allows n p counter s) (hw : w.Governs word callee)
    (hp : InOrder w.site.graph word callee p) {t : Stmt} (ht : t ∈ s.parts)
    (hmarked : t.marked? = none) :
    Permitted w.site.graph word p.diagnostics t := by
  refine .of_unmarked hmarked (fun u hu => ?_) ?_
  · obtain ⟨id, kind, -, hkind, hu⟩ := h.words t ht u hu
    exact hw.words hkind u hu
  · by_cases hblind : t.isBlind = true ∧ w.site.graph.StartsBlind p.diagnostics
    · exact .inr hblind
    · refine .inl fun i hi => ?_
      obtain hi | hi := mem_idents hi
      · exact hp.declarable (h.declares t ht i hi)
      · obtain ⟨-, hi⟩ | hi | ⟨-, ht, entry, ⟨head, phi, merge, rest, hhead, hphi, hkind⟩,
            hentry⟩ :=
          h.uses t ht i hi
        · exact hp.declarable (h.declares s (Stmt.mem_parts_self s) i (List.mem_append_right _ hi))
        · exact hp.usable hi
        · -- the entry value of the phi has been reported
          obtain hlegal | ⟨-, hreported⟩ := hp.names entry .illegal hentry
          · cases hlegal
          · exact absurd ⟨ht, head, phi, merge, entry, rest, hhead, hphi, hkind, hreported⟩ hblind

theorem Bench.Effect.inOrder (h : w.Effect n p p') (hw : w.Governs word callee)
    (hp : InOrder w.site.graph word callee p) : InOrder w.site.graph word callee p' := by
  cases h with
  | note _ hsub =>
    have hp' := hp.report hw.lasts hsub.subset
    exact ⟨hp'.text, hp'.names, hp'.lengths, hp'.functions⟩
  | meet | element => exact ⟨hp.text, hp.names, hp.lengths, hp.functions⟩
  | @write _ _ s _ hcause _ hallows =>
    refine ⟨List.forall_mem_append.2 ⟨fun t ht => ?_, hp.text⟩, hp.names, hp.lengths, hp.functions⟩
    exact (hallows hw.function).permitted hw hp ht (hcause.unmarked t ht)
  | name k _ hx =>
    refine hp.bind ?_
    cases hx with
    | made _ hoffers | length _ hoffers =>
      exact .inl (Name.uses_legal_iff.1 fun i hi => hp.usable ((hoffers hw.function).uses i hi))
    | suppressed hx hreported => exact .inr ⟨hx, hreported⟩
  | share hx hlegal => exact hp.bind (.inl (hp.legal (SymbolTable.binds_of_nameOf? hx) hlegal))
  | buffer _ hlength =>
    refine ⟨hp.text, hp.names, List.forall_mem_cons.2 ⟨?_, hp.lengths⟩, hp.functions⟩
    cases hlength <;> rfl
  | @absorb _ id lambda l b _ _ _ hg hb =>
    -- the functions of a callee come with the reports that they are vouched for by
    have hp' := hp.report hw.lasts (List.subset_append_left p.diagnostics b.diagnostics)
    refine ⟨hp'.text, hp'.names, hp'.lengths, fun f hf => ?_⟩
    rcases mem_addFunctions hf with hf | hf
    · exact hp'.functions f hf
    · exact hw.lasts (List.subset_append_right ..)
        (hw.callees _ (List.mem_of_find?_eq_some hg) _ _ hb f hf)

theorem Bench.Work.inOrder (h : w.Work n p p') (hw : w.Governs word callee)
    (hp : InOrder w.site.graph word callee p) : InOrder w.site.graph word callee p' := by
  induction h with
  | done => exact hp
  | effect heffect _ ih => exact ih (heffect.inOrder hw hp)
  | @visit _ id kind p _ _ _ _ _ _ ihvisit ih =>
    have hmark : Permitted w.site.graph word p.diagnostics (.mark kind.name id) := by
      refine ⟨?_, List.forall_mem_nil _, .inl (List.forall_mem_nil _)⟩
      rintro _ _ ⟨⟩
      exact ⟨kind, rfl⟩
    have htext : ∀ s ∈ Stmt.allParts (.mark kind.name id :: p.block), Permitted w.site.graph word
        p.diagnostics s :=
      List.forall_mem_cons.2 ⟨hmark, hp.text⟩
    exact ih (ihvisit (hp.withBlock htext p.loops))
  | @branch _ p p₁ p₂ _ c _ hc htrue hfalse _ iht ihf ih =>
    have hp₁ := iht (hp.withBlock (List.forall_mem_nil _) p.loops)
    have hp₂ := ihf (hp₁.withBlock (List.forall_mem_nil _) p₁.loops)
    have hsub : p₁.diagnostics ⊆ p₂.diagnostics := hfalse.keeps.diagnostics.subset
    refine ih (hp₂.withBlock ?_ p₂.loops)
    refine List.forall_mem_append.2 ⟨List.forall_mem_cons.2
      ⟨.of_unmarked rfl (List.forall_mem_nil _) (.inl fun i hi => ?_),
        List.forall_mem_append.2 ⟨fun s hs => ?_, fun s hs => ?_⟩⟩, fun s hs => ?_⟩
    · exact hp.usable (hc hw.function i hi)
    · exact (hp₁.text s (Stmt.mem_allParts_reverse.1 hs)).mono hsub
    · exact hp₂.text s (Stmt.mem_allParts_reverse.1 hs)
    · exact (hp.text s hs).mono (List.Subset.trans htrue.keeps.diagnostics.subset hsub)
  | @loop _ p p₁ _ head loops _ hhead hbody _ ihbody ih =>
    cases hhead hw.function
    have hp₁ := (ihbody (hp.enter.withBlock (List.forall_mem_nil _) loops)).exit
    refine ih (hp₁.withBlock ?_ p.loops)
    refine List.forall_mem_append.2 ⟨List.forall_mem_cons.2
      ⟨.of_unmarked rfl (List.forall_mem_nil _) (.inl (List.forall_mem_nil _)), fun s hs => ?_⟩,
        fun s hs => ?_⟩
    · exact hp₁.text s (Stmt.mem_allParts_reverse.1 hs)
    · exact (hp.text s hs).mono hbody.keeps.diagnostics.subset
  | scope _ _ _ ihbody ih => exact ih (ihbody hp.enter).exit

end Work

/-! ### Functions -/

variable {lambdas : List Graph} {guards : Bool} {l : Graph} {f : Code.Function}
    {callers : List String}
variable {depth : Nat} {b : Bundle}

/-- The function is that of the graph, and its body is lowered to the same while every value is
watched. -/
def WatchedIn (lambdas : List Graph) (guards : Bool) (reported : List Diagnostic) (l : Graph)
    (f : Code.Function) : Prop :=
  ∃ depth callers structs result s p, Signature.ofFunction l structs guards = .ok s ∧
    let site := s.site l .function guards
    let function := functionFor lambdas callers (lowerBundle lambdas guards depth)
    let start := Progress.start s.symbols s.structs
    lowerBody site lambdas function s.dimensions [] start = .ok ((), p) ∧
      watchedBody reported site lambdas function s.dimensions start = .ok ((), p) ∧
      f = ⟨.function result (functionName l.name), s.parameters, p.body⟩

/-- The function is that of a lambda, and it is known to be in order once `ds` have been
reported. -/
def Vouched (lambdas : List Graph) (guards : Bool) (word : String → Prop) (ds : List Diagnostic)
    (f : Code.Function) : Prop :=
  ∃ l ∈ lambdas, (∀ reported, ds ⊆ reported → WatchedIn lambdas guards reported l f) ∧
    ∀ s ∈ Stmt.allParts f.body, Permitted l word ds s

theorem Vouched.mono (h : Vouched lambdas guards word ds f) (hsub : ds ⊆ ds') :
    Vouched lambdas guards word ds' f := by
  obtain ⟨l, hl, hwatched, htext⟩ := h
  exact ⟨l, hl, fun reported hreported => hwatched reported (List.Subset.trans hsub hreported),
    fun s hs => (htext s hs).mono hsub⟩

/-- The words of all lambdas may stand in the text. -/
def CoversAll (lambdas : List Graph) (word : String → Prop) : Prop :=
  ∀ l ∈ lambdas, ∀ ⦃id kind⦄, l.kind? id = some kind → ∀ u ∈ kind.words, word u

theorem lowerFunction_vouched (hwords : CoversAll lambdas word) (hg : g ∈ lambdas)
    (hlower : ∀ l ∈ lambdas, ∀ callers b, lowerBundle lambdas guards depth l callers = .ok b →
      ∀ f ∈ b.functions, Vouched lambdas guards word b.diagnostics f)
    (h : lowerFunction lambdas guards g
      (functionFor lambdas callers (lowerBundle lambdas guards depth)) = .ok b) :
    ∀ f ∈ b.functions, Vouched lambdas guards word b.diagnostics f := by
  obtain ⟨result, structs, s, p, -, hs, hbody, rfl⟩ := lowerFunction_eq_ok h
  have hfunction := functionBench_isFunction hs lambdas depth callers
  have hworks (ds : List Diagnostic) :=
    functionBench_works hs lambdas depth callers ds trivial hbody
  have hgoverns : (functionBench lambdas guards depth callers g s).Governs word
      (Vouched lambdas guards word) :=
    ⟨hfunction, hwords g hg, fun _ _ _ hsub h => h.mono hsub, hlower⟩
  have hnames (id : NodeId) (x : Name) (hx : s.symbols.Binds id x) : x.isLegal = true := by
    obtain ⟨q, -, -, rfl⟩ := ofFunction_binds hs hx
    rfl
  have hp :=
    (hworks []).1.inOrder hgoverns ⟨by simp [Progress.start], fun id x hx => .inl (hnames id x hx),
    by simp [Progress.start], by simp [Progress.start]⟩
  refine List.forall_mem_append.2 ⟨hp.functions, List.forall_mem_singleton.2 ⟨g, hg, ?_, ?_⟩⟩
  · intro reported hreported
    refine ⟨depth, callers, structs, result, s, p, hs, hbody, ?_, rfl⟩
    refine (hworks reported).2.2 hfunction ⟨fun id hid => ?_, by simp [Progress.start]⟩ hreported
    cases hnames id _ hid
  · exact fun part hpart => hp.text part (Stmt.mem_allParts_reverse.1 hpart)

theorem lowerBundle_vouched (hwords : CoversAll lambdas word) (hg : g ∈ lambdas)
    (h : lowerBundle lambdas guards depth g callers = .ok b) :
    ∀ f ∈ b.functions, Vouched lambdas guards word b.diagnostics f := by
  induction depth generalizing g callers b with
  | zero => cases h
  | succ depth ih => exact lowerFunction_vouched hwords hg (fun l hl _ _ h => ih hl h) h

theorem lowerLambda_vouched {nested : List Graph} (hwords : CoversAll (g :: nested) word)
    (h : lowerLambda g nested guards = .ok b) :
    ∀ f ∈ b.functions, Vouched (g :: nested) guards word b.diagnostics f := by
  obtain ⟨_, -, h⟩ := bind_eq_ok.1 h
  exact lowerBundle_vouched hwords (.head _) h

end Lowering

end Kernelwright
