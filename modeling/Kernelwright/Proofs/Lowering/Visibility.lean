import Kernelwright.Proofs.Lowering.Effects

/-!
# Names that can be used

While a block of a function is written, every node that has a name has one that can be used there:
it is declared in the block or in one around it, and an array has the length of its buffer or its
metadata at hand. `Sound` is this invariant. Work that opens no block keeps it as long as nothing is
reported.
-/

namespace Kernelwright.Lowering

open Code

/-! ### The block that is written -/

/-- What there is around the block that is written: the identifiers that are visible in it from
outside, and the number of the first fresh name that belongs to it. -/
structure Around where
  visible : List Ident
  counter : Nat

/-- The identifiers that are visible at the end of the text so far. -/
def Progress.visible (A : Around) (p : Progress) : List Ident := p.declared ++ A.visible

/-- Lowering went on in the same block. Only innermost names were added, and the name of each new
buffer is new, or its length is visible. -/
structure Onward (A : Around) (p p' : Progress) : Prop where
  block : p.block <:+ p'.block
  tail : p'.symbols.scopes.tail = p.symbols.scopes.tail
  counter : p.symbols.counter ≤ p'.symbols.counter
  kept : p.buffers ⊆ p'.buffers
  buffers : ∀ e ∈ p'.buffers, e ∈ p.buffers ∨ ∃ role n, e.1 = .fresh role n ∧ A.counter ≤ n ∧
    (p.symbols.counter ≤ n ∨ e.2.uses ⊆ p'.visible A)

/-- A name that can be bound to a node once it is declared: its number has been given out, and if it
is a buffer, its length is visible. -/
structure Counted (A : Around) (p : Progress) (x : Name) : Prop where
  number : ∀ role n, x = .fresh role n → n < p.symbols.counter
  length : ∀ y, (x, y) ∈ p.buffers → y.uses ⊆ p.visible A

/-- The name of a node can be used: it is visible, and an array has its length or its metadata. -/
structure Declared (g : Graph) (A : Around) (p : Progress) (id : NodeId) (x : Name) : Prop
    extends Counted A p x where
  shown : x.uses ⊆ p.visible A
  array : (g.valueKind id).isArray = true →
    (p.buffers.lookup x).isSome ∨ [.metadata x, .dimension x] ⊆ p.visible A

/-- What has been written is scoped. Buffers have fresh names, and the length of a buffer of the
block is visible. -/
structure Written (site : Site) (A : Around) (p : Progress) : Prop where
  text : Stmt.AllScoped p.block.reverse A.visible
  functions : ∀ f ∈ p.functions, f.Scoped
  keys : ∀ e ∈ p.buffers, ∃ role n, e.1 = .fresh role n ∧ n < p.symbols.counter
  lengths : ∀ e ∈ p.buffers, ∀ role n, e.2 ≠ .fresh role n
  measured : ∀ e ∈ p.buffers, .var e.1 ∈ p.declared → e.2.uses ⊆ p.visible A
  numbers : ∀ role n, .var (.fresh role n) ∈ p.visible A → n < p.symbols.counter
  own : ∀ role n, .var (.fresh role n) ∈ p.declared → A.counter ≤ n
  base : A.counter ≤ p.symbols.counter
  flag : site.guards = true → .deoptFlag ∈ A.visible

/-- What has been written is scoped, and every name can be used. -/
structure Sound (site : Site) (A : Around) (p : Progress) : Prop extends Written site A p where
  names : ∀ id x, p.symbols.Binds id x → Declared site.graph A p id x
  paired : p.symbols.Paired

/-- Lowering went on in the same block and kept the invariant. -/
structure Reaches (site : Site) (A : Around) (p p' : Progress) : Prop where
  onward : Onward A p p'
  sound : Sound site A p'

section

variable {g : Graph} {site : Site} {A : Around} {p p' p'' : Progress} {id : NodeId}
    {x : Name} {s : Stmt}

namespace Onward

theorem visible (h : Onward A p p') : p.visible A ⊆ p'.visible A := by
  obtain ⟨new, hnew⟩ := h.block
  simp only [Progress.visible, Progress.declared, ← hnew, List.flatMap_append, List.append_assoc]
  exact List.subset_append_right ..

theorem of_buffers (hblock : p.block <:+ p'.block)
    (htail : p'.symbols.scopes.tail = p.symbols.scopes.tail)
    (hcounter : p.symbols.counter ≤ p'.symbols.counter) (hbuffers : p'.buffers = p.buffers) :
    Onward A p p' :=
  ⟨hblock, htail, hcounter, hbuffers ▸ List.Subset.refl _, fun _ he => .inl (hbuffers ▸ he)⟩

theorem refl (p : Progress) : Onward A p p :=
  .of_buffers (List.suffix_refl _) rfl (Nat.le_refl _) rfl

theorem trans (h : Onward A p p') (h' : Onward A p' p'') : Onward A p p'' where
  block := h.block.trans h'.block
  tail := h'.tail.trans h.tail
  counter := Nat.le_trans h.counter h'.counter
  kept := List.Subset.trans h.kept h'.kept
  buffers e he := by
    obtain he | ⟨role, n, hkey, hbase, hold⟩ := h'.buffers e he
    · refine (h.buffers e he).imp_right ?_
      rintro ⟨role, n, hkey, hbase, hold⟩
      exact ⟨role, n, hkey, hbase, hold.imp_right fun hlength => List.Subset.trans
        hlength h'.visible⟩
    · exact .inr ⟨role, n, hkey, hbase, hold.imp_left (Nat.le_trans h.counter)⟩

theorem isSome_lookup (h : Onward A p p') (hx : (p.buffers.lookup x).isSome) :
    (p'.buffers.lookup x).isSome := by
  rw [List.lookup_isSome_iff] at hx ⊢
  obtain ⟨e, he, hkey⟩ := hx
  exact ⟨e, h.kept he, hkey⟩

end Onward

theorem Declared.onward (h : Declared g A p id x) (hp : Onward A p p') : Declared g A p' id x where
  number role n hx := Nat.lt_of_lt_of_le (h.number role n hx) hp.counter
  length y hy := by
    obtain hy | ⟨role, n, hkey, -, hold⟩ := hp.buffers (x, y) hy
    · exact List.Subset.trans (h.length y hy) hp.visible
    · -- the name was given out before, so the buffer is new only because its length is visible
      exact hold.resolve_left (Nat.not_le.2 (h.number role n hkey))
  shown := List.Subset.trans h.shown hp.visible
  array hkind :=
    (h.array hkind).imp hp.isSome_lookup fun hdata => List.Subset.trans hdata hp.visible

theorem Written.declared (h : Written site A p) (hx : ∀ role n, x ≠ .fresh role n)
    (hshown : x.uses ⊆ p.visible A)
    (harray : (g.valueKind id).isArray = true → [.metadata x, .dimension x] ⊆ p.visible A) :
    Declared g A p id x where
  number role n hn := absurd hn (hx role n)
  length y hy := by
    obtain ⟨role, n, hkey, -⟩ := h.keys (x, y) hy
    exact absurd hkey (hx role n)
  shown := hshown
  array hkind := .inr (harray hkind)

theorem Sound.onward (h : Sound site A p) (hp : Onward A p p') (hwritten : Written site A p')
    (hpaired : p'.symbols.Paired)
    (hnames : ∀ id x, p'.symbols.Binds id x → p.symbols.Binds id x ∨
      Declared site.graph A p' id x) :
    Sound site A p' where
  toWritten := hwritten
  names id x hx := by
    rcases hnames id x hx with hx | hx
    · exact (h.names id x hx).onward hp
    · exact hx
  paired := hpaired

theorem Reaches.refl (h : Sound site A p) : Reaches site A p p := ⟨.refl p, h⟩

theorem Reaches.trans (h : Reaches site A p p') (h' : Reaches site A p' p'') :
    Reaches site A p p'' :=
  ⟨h.onward.trans h'.onward, h'.sound⟩

/-! ### Statements and names -/

theorem Written.text_cons (h : Written site A p) (hs : s.Scoped (p.visible A)) :
    Stmt.AllScoped (s :: p.block).reverse A.visible := by
  rw [List.reverse_cons, Stmt.allScoped_append]
  refine ⟨h.text, hs.mono ?_, trivial⟩
  intro i hi
  simpa [Progress.visible, Progress.declared] using hi

theorem Written.write {counter : Nat} (h : Written site A p) (hs : s.Scoped (p.visible A))
    (hcounter : p.symbols.counter ≤ counter)
    (hdeclares : ∀ i ∈ s.declares, Bench.Declarable p counter i) :
    Written site A
      { p with symbols := { p.symbols with counter := counter }, block := s :: p.block } := by
  have hnew (role : Role) (n : Nat) (hn : .var (.fresh role n) ∈ s.declares) :
      p.symbols.counter ≤ n ∧ n < counter := by
    cases hdeclares _ hn with
    | fresh hle hlt => exact ⟨hle, hlt⟩
    | legal _ hne => exact absurd rfl (hne role n)
  refine { h with
    text := h.text_cons hs, keys := fun e he => ?_, measured := fun e he hdeclared => ?_,
    numbers := fun role n hn => ?_, own := fun role n hn => ?_, base :=
      Nat.le_trans h.base hcounter }
  · obtain ⟨role, n, hkey, hlt⟩ := h.keys e he
    exact ⟨role, n, hkey, Nat.lt_of_lt_of_le hlt hcounter⟩
  · obtain hdeclared | hdeclared := List.mem_append.1 hdeclared
    · -- a buffer has been given its name before
      obtain ⟨role, n, hkey, hlt⟩ := h.keys e he
      exact absurd (hnew role n (hkey ▸ hdeclared)).1 (Nat.not_le.2 hlt)
    · intro i hi
      rw [Progress.visible, Progress.declared, List.flatMap_cons, List.append_assoc]
      exact List.mem_append_right _ (h.measured e he hdeclared hi)
  · rw [Progress.visible, Progress.declared, List.flatMap_cons, List.append_assoc] at hn
    obtain hn | hn := List.mem_append.1 hn
    · exact (hnew role n hn).2
    · exact Nat.lt_of_lt_of_le (h.numbers role n hn) hcounter
  · obtain hn | hn := List.mem_append.1 hn
    · exact Nat.le_trans h.base (hnew role n hn).1
    · exact h.own role n hn

theorem Sound.write {counter : Nat} (h : Sound site A p) (hs : s.Scoped (p.visible A))
    (hcounter : p.symbols.counter ≤ counter)
    (hdeclares : ∀ i ∈ s.declares, Bench.Declarable p counter i) :
    Reaches site A p
      { p with symbols := { p.symbols with counter := counter }, block := s :: p.block } := by
  have honward : Onward A p
      { p with symbols := { p.symbols with counter := counter }, block := s :: p.block } :=
    .of_buffers (List.suffix_cons ..) rfl hcounter rfl
  exact ⟨honward, h.onward honward (h.toWritten.write hs hcounter hdeclares) h.paired
    fun _ _ => .inl⟩

theorem Sound.of_eq {counter : Nat} (h : Sound site A p) (hblock : p'.block = p.block)
    (hsymbols : p'.symbols = { p.symbols with counter := counter })
    (hcounter : p.symbols.counter ≤ counter)
    (hbuffers : p'.buffers = p.buffers) (hfunctions : ∀ f ∈ p'.functions, f.Scoped) :
    Reaches site A p p' := by
  cases p
  cases p'
  cases hblock
  cases hsymbols
  cases hbuffers
  refine ⟨.of_buffers (List.suffix_refl _) rfl hcounter rfl, { h with
    functions := hfunctions, keys := fun e he => ?_, base := Nat.le_trans h.base hcounter
    numbers := fun role n hn => Nat.lt_of_lt_of_le (h.numbers role n hn) hcounter
    names :=
      fun id x hx => (h.names id x hx).onward (.of_buffers (List.suffix_refl _) rfl hcounter rfl) }⟩
  obtain ⟨role, n, hkey, hlt⟩ := h.keys e he
  exact ⟨role, n, hkey, Nat.lt_of_lt_of_le hlt hcounter⟩

theorem Sound.bind {k : ValueKind} (h : Sound site A p) (hx : Declared site.graph A p id x) :
    Reaches site A p { p with symbols := p.symbols.bind x id k } := by
  have honward : Onward A p { p with symbols := p.symbols.bind x id k } :=
    .of_buffers (List.suffix_refl _) SymbolTable.tail_scopes_bind (by simp) rfl
  have hwritten : Written site A { p with symbols := p.symbols.bind x id k } := { h.toWritten with
    keys := by simpa using h.keys
    numbers := fun role n hn => by simpa using h.numbers role n hn
    base := by simpa using h.base }
  refine ⟨honward, h.onward honward hwritten h.paired.bind fun other y hy => ?_⟩
  rcases SymbolTable.binds_bind.1 hy with ⟨rfl, rfl⟩ | hy
  · exact .inr (hx.onward honward)
  · exact .inl hy

end

/-! ### Effects -/

theorem eq_of_mem_uses {x y : Name} (h : .var y ∈ x.uses) : y = x := by
  cases x with
  | literal => cases h
  | _ =>
    cases List.mem_singleton.1 h
    rfl

namespace Bench

/-- In the function what is used as an array is one, and the functions of lambdas are scoped unless
something is reported. -/
structure Shelters (w : Bench) : Prop where
  function : w.site.IsFunction
  typed : w.site.graph.ArraysTyped
  values : w.walks = false
  lower : ∀ g ∈ w.lambdas, ∀ callers b, w.lower g callers = .ok b → b.diagnostics = [] →
    ∀ f ∈ b.functions, f.Scoped

variable {w : Bench} {n : Option NodeId} {A : Around} {p p' : Progress} {id : NodeId}
    {x : Name} {s : Stmt}
variable {i : Ident} {counter : Nat}

theorem Usable.visible (h : w.Usable p i) (hw : w.Shelters) (hp : Sound w.site A p) :
    i ∈ p.visible A := by
  cases h with
  | name hx _ hi => exact (hp.names _ _ hx).shown hi
  | declared _ hx => exact List.mem_append_left _ hx
  | known _ _ hx =>
    obtain hx | hx := hx
    · exact List.mem_append_left _ hx
    · obtain ⟨m, hm⟩ := Option.isSome_iff_exists.1 hx
      obtain ⟨other, hother⟩ := hp.paired.exists_binds hm
      exact (hp.names _ _ hother).shown (.head _)
  | length hx hy hi => exact (hp.names _ _ hx).length _ hy hi
  | data hx _ hnone harray hi =>
    exact ((hp.names _ _ hx).array (harray hw.typed)).resolve_left (by simp [hnone]) hi
  | flag h => exact List.mem_append_right _ (hp.flag h)

theorem Offers.declared (h : w.Offers p id x) (hw : w.Shelters) (hp : Sound w.site A p) :
    Declared w.site.graph A p id x where
  number role n hx := by
    subst hx
    exact hp.numbers role n ((h.uses _ (.head _)).visible hw hp)
  length y hy := by
    obtain ⟨role, n, hkey, -⟩ := hp.keys (x, y) hy
    cases hkey
    cases h.uses _ (.head _) with
    | name hx _ hi =>
      cases eq_of_mem_uses hi
      exact (hp.names _ _ hx).length y hy
    | declared _ hdeclared => exact hp.measured _ hy hdeclared
    | length _ hz hi =>
      cases eq_of_mem_uses hi
      exact absurd rfl (hp.lengths _ hz role n)
    | data _ _ _ _ hi => simp at hi
  shown i hi := (h.uses i hi).visible hw hp
  array hkind := .inl (h.array hkind)

theorem Allows.scoped (h : w.Allows n p counter s) (hcause : w.Cause p n s) (hw : w.Shelters)
    (hp : Sound w.site A p) : s.Scoped (p.visible A) := by
  have huses (t : Stmt) (ht : t ∈ s.parts) (i : Ident) (hi : i ∈ t.uses) :
      t ≠ s ∧ i ∈ s.inner ∨ i ∈ p.visible A := by
    refine (h.uses t ht i hi).imp_right ?_
    rintro (hi | ⟨rfl, -, id, -, hid⟩)
    · exact hi.visible hw hp
    · exact (hp.names id _ hid).shown (.head _)
  have hself : s.uses ⊆ p.visible A := fun i hi =>
    (huses s s.mem_parts_self i hi).resolve_left fun h => h.1 rfl
  cases hcause with
  | bare _ hplain =>
    have hplain := hplain.resolve_left (by simp [hw.values])
    cases s with
    | branch | loop => cases hplain
    | _ => exact hself
  | read | call => exact hself
  | fused =>
    refine ⟨hself, fun i hi => ?_, trivial⟩
    have hpart := huses _ (.tail _ (by rw [Stmt.allParts_singleton]; exact .head _)) i hi
    exact List.mem_append.2 (hpart.imp_left And.right)

theorem Effect.reaches (h : w.Effect n p p') (hw : w.Shelters) (hnone : p'.diagnostics = [])
    (hp : Sound w.site A p) : Reaches w.site A p p' := by
  cases h with
  | note hcounter => exact hp.of_eq rfl rfl hcounter rfl hp.functions
  | meet _ hwalks => cases hw.values.symm.trans hwalks
  | @write _ _ s _ hcause hcounter hallows =>
    have hallows := hallows hw.function
    refine hp.write (hallows.scoped hcause hw hp) hcounter fun i hi => ?_
    exact hallows.declares s s.mem_parts_self i (List.mem_append_left _ hi)
  | name k _ hx =>
    cases hx with
    | made _ hx | length _ hx => exact hp.bind ((hx hw.function).declared hw hp)
    | suppressed _ hreported =>
      obtain ⟨d, hd, -⟩ := hreported
      rw [hnone] at hd
      cases hd
  | share hname _ _ hkind =>
    have hx := hp.names _ _ (SymbolTable.binds_of_nameOf? hname)
    exact hp.bind ⟨hx.toCounted, hx.shown, fun h => hx.array (hkind h)⟩
  | @buffer _ _ role m length hdeclared hmeasures =>
    have hlength : length.uses ⊆ p.visible A := by
      cases hmeasures with
      | literal => exact List.nil_subset _
      | «variable» h => exact List.cons_subset.2 ⟨List.mem_append_left _ h, List.nil_subset _⟩
    have honward : Onward A p { p with buffers := (.fresh role m, length) :: p.buffers } := by
      refine ⟨List.suffix_refl _, rfl, Nat.le_refl _, List.subset_cons_self .., fun e he => ?_⟩
      obtain rfl | he := List.mem_cons.1 he
      · exact .inr ⟨role, m, rfl, hp.own role m hdeclared, .inr hlength⟩
      · exact .inl he
    refine ⟨honward, hp.onward honward { hp.toWritten with
      keys := List.forall_mem_cons.2 ⟨⟨role, m, rfl, ?_⟩, hp.keys⟩
      lengths := List.forall_mem_cons.2 ⟨?_, hp.lengths⟩
      measured := List.forall_mem_cons.2 ⟨fun _ => hlength, hp.measured⟩ } hp.paired
        fun _ _ => .inl⟩
    · exact hp.numbers role m (List.mem_append_left _ hdeclared)
    · cases hmeasures with
      | literal | «variable» => exact fun _ _ => Name.noConfusion
  | element => exact hp.of_eq rfl rfl (Nat.le_refl _) rfl hp.functions
  | absorb _ _ _ hg hb =>
    refine hp.of_eq rfl rfl (Nat.le_refl _) rfl fun f hf => ?_
    obtain hf | hf := mem_addFunctions hf
    · exact hp.functions f hf
    · exact hw.lower _ (List.mem_of_find?_eq_some hg) _ _ hb (List.append_eq_nil_iff.1 hnone).2 f hf

theorem Work.reaches (h : w.Work n p p') (hw : w.Shelters) (hnone : p'.diagnostics = [])
    (hp : Sound w.site A p) : Reaches w.site A p p' := by
  induction h with
  | done => exact .refl hp
  | effect heffect hrest ih =>
    have hfirst := heffect.reaches hw (hrest.keeps.unreported hnone) hp
    exact hfirst.trans (ih hnone hfirst.sound)
  | @visit _ id kind _ _ _ _ _ _ hrest ihvisit ih =>
    have hmark :=
      hp.write (s := .mark kind.name id) (List.nil_subset _) (Nat.le_refl _) (List.forall_mem_nil _)
    have hvisit := ihvisit (hrest.keeps.unreported hnone) hmark.sound
    exact (hmark.trans hvisit).trans (ih hnone hvisit.sound)
  | branch _ hwalks | loop _ _ hwalks | scope hwalks => cases hw.values.symm.trans hwalks

theorem Work.merges (h : w.Work n p p') (hw : w.Shelters) : p'.merges = p.merges := by
  induction h with
  | done => rfl
  | effect heffect _ ih =>
    refine ih.trans ?_
    cases heffect with
    | meet _ hwalks => cases hw.values.symm.trans hwalks
    | _ => rfl
  | visit _ _ _ _ ihvisit ih => exact ih.trans ihvisit
  | branch _ hwalks | loop _ _ hwalks | scope hwalks => cases hw.values.symm.trans hwalks

end Bench

end Kernelwright.Lowering
