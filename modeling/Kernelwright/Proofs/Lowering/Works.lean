import Kernelwright.Proofs.Lowering.Walk
import Kernelwright.Proofs.Lowering.Written

/-!
# Steps that are work

`Works` says of a step of lowering that it is a piece of work, and what holds before and after it.
It speaks of a second step besides, which does the same where all is tidy and no more is reported
than in the end. The rules put steps together.
-/

namespace Kernelwright.Lowering

open Code

variable {α β : Type} {w : Bench} {r : List Diagnostic} {n : Option NodeId}
variable {k : ValueKind} {role : Role} {i metadata : Name} {field : Nat}

/-! ### Rules -/

/-- Every node with an illegal name is reported, and the lengths of buffers are legal. -/
structure Tidy (p : Progress) : Prop where
  names : ∀ id, p.symbols.Binds id .illegal → Reported p.diagnostics id
  lengths : ∀ e ∈ p.buffers, e.2 ≠ .illegal

/-- A step from a state with `H` is a piece of work, and ends with `Q`; and the watched step does
the same. -/
def Works (w : Bench) (r : List Diagnostic) (n : Option NodeId) (H : Progress → Prop)
    (m watched : Lower α) (Q : α → Progress → Prop) : Prop :=
  ∀ ⦃p a p'⦄, H p → m p = .ok (a, p') → w.Work n p p' ∧ Q a p' ∧
    (w.site.IsFunction → Tidy p → p'.diagnostics ⊆ r → watched p = .ok (a, p'))

/-- A step without values, which is the same when it is watched. -/
abbrev Does (w : Bench) (r : List Diagnostic) (n : Option NodeId)
    (H : Progress → Prop) (m : Lower α) (Q : α → Progress → Prop) : Prop := Works w r n H m m Q

/-- Nothing need be known of a state. -/
abbrev anyhow (_ : Progress) : Prop := True

abbrev HasName (id : NodeId) (x : Name) (p : Progress) : Prop := p.symbols.nameOf? id = some x

/-- The node has the name, and it is a value. -/
abbrev Operand (id : NodeId) (x : Name) (p : Progress) : Prop := p.symbols.Binds id x ∧ x ≠ .illegal

/-- A condition that goes on to hold while lowering goes on in a block. -/
def Lasting (H : Progress → Prop) : Prop := ∀ p p', Keeps p p' → H p → H p'

section Tidy

variable {p p' : Progress}

theorem Tidy.bind {x : Name} {id : NodeId} (h : Tidy p)
    (hx : x = .illegal → Reported p.diagnostics id) :
    Tidy { p with symbols := p.symbols.bind x id k } := by
  refine ⟨fun other hother => ?_, h.lengths⟩
  obtain ⟨rfl, hillegal⟩ | hother := SymbolTable.binds_bind.1 hother
  · exact hx hillegal.symm
  · exact h.names other hother

theorem Tidy.report {r : List Diagnostic} (h : Tidy p) (hsub : p.diagnostics <+: r) :
    Tidy { p with diagnostics := r } :=
  ⟨fun id hid => (h.names id hid).mono hsub.subset, h.lengths⟩

theorem Bench.Effect.tidy (h : w.Effect n p p') (hp : Tidy p) : Tidy p' := by
  cases h with
  | note _ hsub => exact ⟨(hp.report hsub).names, hp.lengths⟩
  | meet | write | element => exact ⟨hp.names, hp.lengths⟩
  | name k _ hx =>
    refine hp.bind fun hillegal => ?_
    subst hillegal
    cases hx with
    | made hx => cases hx
    | length hx => exact absurd rfl (hp.lengths _ hx)
    | suppressed _ hreported => exact hreported
  | share _ hx => exact hp.bind fun h => absurd h hx
  | buffer _ hlength =>
    refine ⟨hp.names, List.forall_mem_cons.2 ⟨?_, hp.lengths⟩⟩
    cases hlength with
    | literal | «variable» => exact Name.noConfusion
  | absorb => exact ⟨(hp.report (List.prefix_append ..)).names, hp.lengths⟩

/-- Work leaves no illegal name without a report. -/
theorem Bench.tidy_invariant : w.Invariant fun _ => Tidy where
  effect hp h := h.tidy hp
  block _ _ hp := ⟨hp.names, hp.lengths⟩
  enter hp := ⟨fun id hid => hp.names id (SymbolTable.binds_enter.1 hid), hp.lengths⟩
  exit _ hp' _ := ⟨fun id hid => hp'.names id (SymbolTable.binds_of_exit hid), hp'.lengths⟩
  visit hp _ _ := hp
  leave _ hp' := hp'

theorem Bench.Work.tidy (h : w.Work n p p') (hp : Tidy p) : Tidy p' :=
  h.invariant Bench.tidy_invariant hp

end Tidy

section Rules

variable {H H' F : Progress → Prop} {P Q : α → Progress → Prop} {R : β → Progress → Prop}

namespace Works

variable {m m' x x' : Lower α} {f f' : α → Lower β} {C : Prop} {l : List α}

theorem same (h : ∀ p a p', H p → m p = .ok (a, p') → w.Work n p p' ∧ Q a p') :
    Does w r n H m Q := by
  intro p a p' hp hrun
  obtain ⟨hwork, ha⟩ := h p a p' hp hrun
  exact ⟨hwork, ha, fun _ _ _ => hrun⟩

theorem imp (h : Works w r n H m m' P) (hH : ∀ p, H' p → H p) (hQ : ∀ a p, P a p → Q a p) :
    Works w r n H' m m' Q := by
  intro p a p' hp hrun
  obtain ⟨hwork, ha, hwatched⟩ := h (hH p hp) hrun
  exact ⟨hwork, hQ a p' ha, hwatched⟩

theorem of_anyhow (h : Works w r n anyhow m m' P) : Works w r n H m m' P :=
  h.imp (fun _ _ => trivial) fun _ _ ha => ha

theorem forget (h : Works w r n H m m' P) : Works w r n H m m' fun _ => anyhow :=
  h.imp (fun _ hp => hp) fun _ _ _ => trivial

theorem result {a : α} (h : ∀ p, H p → Q a p) : Does w r n H (pure a) Q := by
  refine .same fun p b p' hp hrun => ?_
  cases Step.pure_eq_ok.1 hrun
  exact ⟨.done, h p hp⟩

theorem idle {a : α} : Does w r n H (pure a) fun _ => anyhow := result fun _ _ => trivial

/-- The step of a sequence: work goes on from what the first part has left. -/
theorem andThen (hx : Works w r n H x x' P) (hf : ∀ a, Works w r n (P a) (f a) (f' a) R) :
    Works w r n H (x >>= f) (x' >>= f') R := by
  intro p b p'' hp hrun
  obtain ⟨a, p', hfirst, hrest⟩ := Step.bind_eq_ok.1 hrun
  obtain ⟨hwork, ha, hwatched⟩ := hx hp hfirst
  obtain ⟨hwork', hb, hwatched'⟩ := hf a ha hrest
  refine ⟨hwork.trans hwork', hb, fun hw htidy hreported => ?_⟩
  -- what the first step has reported is among what the second one leaves
  have hfirst := hwatched hw htidy (List.Subset.trans hwork'.keeps.diagnostics.subset hreported)
  rw [Step.bind_of_ok hfirst, hwatched' hw (hwork.tidy htidy) hreported]

theorem next (hx : Works w r n H x x' P) (hf : ∀ a, Works w r n anyhow (f a) (f' a) R) :
    Works w r n H (x >>= f) (x' >>= f') R :=
  hx.andThen fun a => (hf a).of_anyhow

/-- What lasts still holds after the step. -/
theorem keep (hx : Works w r n anyhow x x' P) (hF : Lasting F) :
    Works w r n F x x' fun a p => P a p ∧ F p := by
  intro p a p' hp hrun
  obtain ⟨hwork, ha, hwatched⟩ := hx trivial hrun
  exact ⟨hwork, ⟨ha, hF p p' hwork.keeps hp⟩, hwatched⟩

theorem given (h : C → Works w r n anyhow m m' Q) : Works w r n (fun _ => C) m m' Q :=
  fun _ _ _ hc hrun => h hc trivial hrun

theorem given_and (h : C → Works w r n H m m' Q) : Works w r n (fun p => C ∧ H p) m m' Q :=
  fun _ _ _ hp hrun => h hp.1 hp.2 hrun

theorem failure (e : KernelError) : Works w r n H (throw e : Lower α) m' Q := by
  intro p a p' _ hrun
  cases hrun

theorem failure_andThen (e : KernelError) {m' : Lower β} :
    Works w r n H ((throw e : Lower α) >>= f) m' R := by
  intro p b p' _ hrun
  cases hrun

theorem check_andThen {x : Except KernelError α}
    (h : ∀ a, x = .ok a → Works w r n H (f a) (f' a) R) :
    Works w r n H ((liftM x : Lower α) >>= f) ((liftM x : Lower α) >>= f') R := by
  intro p b p' hp hrun
  obtain ⟨a, rfl, hrest⟩ := Step.lift_bind_eq_ok.1 hrun
  exact h a rfl hp hrest

theorem look_andThen {f f' : Progress → Lower β}
    (h : ∀ q, Works w r n (fun p => H p ∧ p = q) (f q) (f' q) R) :
    Works w r n H (get >>= f) (get >>= f') R := fun p _ _ hp hrun => h p ⟨hp, rfl⟩ hrun

theorem ite {c : Prop} [Decidable c] {m₁ m₂ m₁' m₂' : Lower α} (h : c → Works w r n H m₁ m₁' Q)
    (h' : ¬ c → Works w r n H m₂ m₂' Q) :
    Works w r n H (if c then m₁ else m₂) (if c then m₁' else m₂') Q := by
  by_cases hc : c
  · rw [if_pos hc, if_pos hc]
    exact h hc
  · rw [if_neg hc, if_neg hc]
    exact h' hc

/-- A step that does one thing. -/
theorem effect {f : Progress → Progress} (h : ∀ p, H p → w.Effect n p (f p))
    {Q : Unit → Progress → Prop} (hQ : ∀ p, H p → Q () (f p)) :
    Does w r n H (modify f : Lower Unit) Q := by
  refine .same fun p a p' hp hrun => ?_
  cases hrun
  exact ⟨(h p hp).work, hQ p hp⟩

theorem ignore (h : Works w r n H x x' P) :
    Works w r n H (discard x) (discard x') fun _ => anyhow := by
  intro p _ p' hp hrun
  obtain ⟨⟨a, p₁⟩, hx, hrun⟩ := bind_eq_ok.1 hrun
  cases hrun
  obtain ⟨hwork, -, hwatched⟩ := h hp hx
  refine ⟨hwork, trivial, fun hw htidy hreported => ?_⟩
  exact bind_eq_ok.2 ⟨_, hwatched hw htidy hreported, rfl⟩

/-- By induction on the list, steps for all of its members are work. -/
theorem each {f f' : α → Lower Unit}
    (h : ∀ a ∈ l, Works w r n anyhow (f a) (f' a) fun _ => anyhow) :
    Works w r n anyhow (l.forM f) (l.forM f') fun _ => anyhow := by
  induction l with
  | nil => exact result fun _ _ => trivial
  | cons a l ih =>
    rw [List.forM_eq_forM, List.forM_cons, List.forM_cons]
    exact (h a (.head _)).next fun _ => ih fun b hb => h b (.tail _ hb)

/-- By induction on the list: what holds of each result lasts through the steps after it. -/
theorem all {S : β → Progress → Prop} (hS : ∀ b, Lasting (S b))
    (h : ∀ a ∈ l, Works w r n anyhow (f a) (f' a) S) :
    Works w r n anyhow (l.mapM f) (l.mapM f') fun bs p => ∀ b ∈ bs, S b p := by
  induction l with
  | nil => exact result fun _ _ => List.forall_mem_nil _
  | cons a l ih =>
    rw [List.mapM_cons, List.mapM_cons]
    refine (h a (.head _)).andThen fun b => ?_
    refine ((ih fun c hc => h c (.tail _ hc)).keep (hS b)).andThen fun bs => ?_
    exact result fun _ hp => List.forall_mem_cons.2 ⟨hp.2, hp.1⟩

end Works

end Rules

/-! ### Statements and names -/

section Allowed

variable {p : Progress} {counter : Nat} {s : Stmt} {id : NodeId} {x : Name} {names : List Name}

theorem Operand.usable (h : Operand id x p) : ∀ i ∈ x.uses, w.Usable p i :=
  fun _ hi => .name h.1 h.2 hi

theorem usable_operands (h : ∀ x ∈ names, ∃ id, Operand id x p) :
    ∀ i ∈ names.flatMap Name.uses, w.Usable p i := by
  intro i hi
  obtain ⟨x, hx, hi⟩ := List.mem_flatMap.1 hi
  exact (h x hx).elim fun _ hx => hx.usable i hi

theorem Bench.Allows.of_single (hparts : s.parts = [s]) (hinner : s.inner = [])
    (huses : ∀ i ∈ s.uses, w.Usable p i)
    (hdeclares : ∀ i ∈ s.declares, Bench.Declarable p counter i)
    (hwords : ∀ u ∈ s.words, ∃ id kind, n = some id ∧ w.kind? id = some kind ∧ u ∈ kind.words) :
    w.Allows n p counter s := by
  constructor <;> rw [hparts, List.forall_mem_singleton]
  · exact fun i hi => .inr (.inl (huses i hi))
  · rwa [hinner, List.append_nil]
  · exact hwords

theorem Bench.Allows.of_fresh (hparts : s.parts = [s]) (hinner : s.inner = [])
    (hdeclares : s.declares = [.var (.fresh role p.symbols.counter)])
    (huses : ∀ i ∈ s.uses, w.Usable p i)
    (hwords : ∀ u ∈ s.words, ∃ id kind, n = some id ∧ w.kind? id = some kind ∧ u ∈ kind.words) :
    w.Allows n p (p.symbols.counter + 1) s := by
  refine .of_single hparts hinner huses ?_ hwords
  rw [hdeclares, List.forall_mem_singleton]
  exact .fresh (Nat.le_refl _) (Nat.lt_succ_self _)

theorem Bench.Offers.of_declared (hx : x.isLegal = true) (hdeclared : .var x ∈ p.declared)
    (hid : (w.site.graph.valueKind id).isArray = true → False) : w.Offers p id x := by
  refine ⟨?_, fun h => (hid h).elim⟩
  cases x with
  | literal l => exact List.forall_mem_nil _
  | _ => exact List.forall_mem_singleton.2 (.declared hx hdeclared)

def Progress.placeOf (p : Progress) (array index : Name) : Place :=
  if (p.buffers.lookup array).isSome then .cell array index else .offsetCell array array index

theorem elementPlace_eq (array index : Name) (p : Progress) :
    elementPlace array index p = .ok (p.placeOf array index, p) := by
  unfold Progress.placeOf
  have hlength : bufferLength? array p = .ok (p.buffers.lookup array, p) := rfl
  rw [elementPlace, Step.bind_of_ok hlength]
  cases p.buffers.lookup array <;> rfl

theorem Progress.array?_placeOf (p : Progress) (array index : Name) :
    (p.placeOf array index).array? = some array := by
  unfold placeOf
  split <;> rfl

theorem usable_placeOf {p' : Progress} {index : Name} (hp : p'.buffers = p.buffers)
    (h : Operand id x p')
    (hid : w.site.graph.ArraysTyped → (w.site.graph.valueKind id).isArray = true) :
    ∀ i ∈ (p.placeOf x index).uses, i ∈ index.uses ∨ w.Usable p' i := by
  unfold Progress.placeOf
  intro i hi
  split at hi
  · exact (List.mem_append.1 hi).symm.imp_right (h.usable i)
  · next hnone =>
    obtain hi | hi := List.mem_append.1 hi
    · refine .inr ((List.mem_append.1 hi).elim (h.usable i) fun hi => ?_)
      exact .data h.1 h.2 (hp ▸ Option.not_isSome_iff_eq_none.1 hnone) hid hi
    · exact .inl hi

end Allowed

/-! ### Single steps -/

section Steps

variable {H : Progress → Prop} {id : NodeId} {x : Name} {value : Expr} {s : Stmt}

/-- The node has the name, and if that is illegal then the latest report is about the node, unless
buffers have illegal lengths. -/
structure Answers (w : Bench) (id : NodeId) (x : Name) (p : Progress) : Prop where
  name : HasName id x p
  latest : x = .illegal → w.site.IsFunction →
    p.diagnostics.getLast?.bind (·.node) = some id ∨ ∃ a, (a, .illegal) ∈ p.buffers

/-- A statement is written that is allowed where lowering is. -/
theorem emit_works (hs : s.Bare) (hplain : w.walks = true ∨ s.isPlain = true)
    (h : ∀ p, H p → w.site.IsFunction → w.Allows n p p.symbols.counter s) :
    Does w r n H (emit s) fun _ => anyhow :=
  .effect (fun p hp => .write (.bare hs hplain) (Nat.le_refl _) (h p hp)) fun _ _ => trivial

theorem use_works (hs : s.Bare) (hplain : w.walks = true ∨ s.isPlain = true)
    (hdeclares : s.declares ++ s.inner = []) (hwords : s.words = [])
    (huses : ∀ p, H p → w.site.IsFunction → ∀ i ∈ s.uses, w.Usable p i) :
    Does w r n H (emit s) fun _ => anyhow := by
  obtain ⟨hdeclares, hinner⟩ := List.append_eq_nil_iff.1 hdeclares
  refine emit_works hs hplain fun p hp hw => .of_single hs.parts hinner (huses p hp hw) ?_ ?_
  · simp [hdeclares]
  · simp [hwords]

/-- A fresh name is declared, and stands for what was declared from then on. -/
theorem Works.declaring {s : Name → Stmt} {f f' : Name → Lower β} {K : Name → Progress → Prop}
    {R : β → Progress → Prop}
    (hs : ∀ p, H p → w.Cause p n (s (.fresh role p.symbols.counter)) ∧ (w.site.IsFunction →
      w.Allows n p (p.symbols.counter + 1) (s (.fresh role p.symbols.counter))))
    (hK : ∀ p x, H p → K x { p with symbols := p.symbols.fresh.2, block := s x :: p.block })
    (hf : ∀ c, Works w r n (K (.fresh role c)) (f (.fresh role c)) (f' (.fresh role c)) R) :
    Works w r n H (fresh role >>= fun x => emit (s x) >>= fun _ => f x)
      (fresh role >>= fun x => emit (s x) >>= fun _ => f' x) R := by
  intro p b p' hp hrun
  obtain ⟨hcause, hallows⟩ := hs p hp
  obtain ⟨hwork, hb, hwatched⟩ := hf p.symbols.counter (hK p _ hp) hrun
  have hwrite := (Bench.Effect.write hcause (Nat.le_succ _) hallows).work
  exact ⟨hwrite.trans hwork, hb, fun hw htidy => hwatched hw (hwrite.tidy htidy)⟩

/-- A node gets a name that may be given to it. -/
theorem bind_works (hid : w.Names n id) (hx : ∀ p, H p → w.Given p id x) :
    Does w r n H (bind x id k) fun _ => HasName id x := by
  refine .effect (fun p hp => .name k hid (hx p hp)) fun p _ => ?_
  simp [HasName, SymbolTable.nameOf?_bind]

theorem bindResult_works (hid : w.Names n id) (hx : ∀ p, H p → w.Given p id x ∧ (x = .illegal →
      w.site.IsFunction → p.diagnostics.getLast?.bind (·.node) = some id ∨
        ∃ a, (a, .illegal) ∈ p.buffers)) :
    Does w r n H (do bind x id k; return x) (Answers w id) := by
  refine .andThen (P := fun _ => Answers w id x) (.effect (fun p hp => .name k hid (hx p hp).1)
    fun p hp => ⟨?_, (hx p hp).2⟩) fun _ => .result fun _ h => h
  simp [HasName, SymbolTable.nameOf?_bind]

theorem bindMade_works (hid : w.Names n id) (hx : x.isMade = true)
    (h : ∀ p, H p → w.site.IsFunction → w.Offers p id x) :
    Does w r n H (do bind x id k; return x) (Answers w id) := by
  refine bindResult_works hid fun p hp => ⟨.made hx (h p hp), ?_⟩
  rintro rfl
  cases hx

/-- A node takes the name of its operand over. -/
theorem share_works {source : NodeId}
    (hkind : (w.site.graph.valueKind id).isArray = true →
      (w.site.graph.valueKind source).isArray = true)
    (hlegal : x ≠ .illegal) (hx : ∀ p, H p → HasName source x p ∧ w.Shares p id source) :
    Does w r (some id) H (do share id source; return x) (Answers w id) := by
  refine .andThen (P := fun _ => Answers w id x) (.effect (fun p hp => ?_) fun p hp => ?_)
    fun _ => .result fun _ h => h
  all_goals
    have hshare : p.symbols.share? id source =
        some (p.symbols.bind x id ((p.symbols.meaning? x).elim .illegal (·.kind))) := by
      simp [SymbolTable.share?, (hx p hp).1]
    rw [hshare]
  · exact .share (hx p hp).1 hlegal (hx p hp).2 hkind
  · exact ⟨by simp [HasName, SymbolTable.nameOf?_bind], fun h => (hlegal h).elim⟩

theorem fresh_works : Does w r n anyhow (fresh role) fun y _ => y.isMade = true := by
  refine .same fun p y p' _ hrun => ?_
  cases hrun
  exact ⟨(Bench.Effect.note (Nat.le_succ _) (List.prefix_refl _)).work, rfl⟩

theorem report_works {d : Diagnostic} :
    Does w r n H (report d) fun _ p => p.diagnostics.getLast? = some d :=
  .effect (fun _ _ => .note (Nat.le_refl _) (List.prefix_append ..)) fun _ _ => List.getLast?_concat

/-- A value is suppressed: its node is reported and gets the illegal name. -/
theorem suppressed_works {d : Diagnostic} (hid : w.Names n id) (hd : d.node = some id) :
    Does w r n H (do report d; bind .illegal id k; return .illegal) (Answers w id) := by
  refine report_works.andThen fun _ => bindResult_works hid fun p hlast => ?_
  refine ⟨.suppressed rfl ⟨d, List.mem_of_getLast? hlast, hd⟩, fun _ _ => .inl ?_⟩
  rw [hlast, Option.bind_some, hd]

theorem suppress_works {what : String} (hid : w.Names n id) :
    Does w r n H (suppress id what) (Answers w id) := suppressed_works hid rfl

theorem fail_works {name : String} {inputs : List NodeId} {next : Option NodeId}
    (hk : w.kind? id = some (.unsupported name inputs next)) :
    Does w r (some id) H (fail id name) (Answers w id) := by
  refine .next (emit_works ⟨rfl, rfl, rfl, rfl⟩ (.inr rfl) fun p _ _ => ?_) fun _ =>
    suppressed_works .here rfl
  refine .of_single rfl rfl (List.forall_mem_nil _) (List.forall_mem_nil _) ?_
  exact List.forall_mem_singleton.2 ⟨id, _, rfl, hk, .head _⟩

theorem typeOf?_works (hH : ∀ p structs, H p → H { p with structs := structs }) :
    Does w r n H (typeOf? k) fun o p => o = CType.ofKind? k ∧ H p := by
  unfold typeOf?
  split
  · next hk =>
    refine .andThen (P := fun _ => H) (.effect (fun p _ => ?_) fun p hp => hH p _ hp)
      fun _ => .result fun _ hp => ⟨hk.symm, hp⟩
    exact .note (Nat.le_refl _) (List.prefix_refl _)
  · exact .result fun _ hp => ⟨rfl, hp⟩

theorem isArray_of_type {type : CType} (h : some type = CType.ofKind? k) : k.isArray = false := by
  cases k with
  | array => cases h
  | _ => rfl

/-- A value of the kind is an array where the graph says so. -/
abbrev Bench.Tells (w : Bench) (id : NodeId) (k : ValueKind) : Prop :=
  (w.site.graph.valueKind id).isArray = true → k.isArray = true

section

variable (hH : ∀ p structs, H p → H { p with structs := structs })
variable (huses : ∀ p, H p → w.site.IsFunction → ∀ i ∈ value.uses, w.Usable p i)
variable (hwords : ∀ u ∈ value.words, ∃ kind, w.kind? id = some kind ∧ u ∈ kind.words)
include hH huses hwords

/-- An expression is declared as the value of its node, or suppressed if it has no type. -/
theorem declare_works (hcause : ∀ p type y, H p → w.Cause p (some id) (.declare type y value .none))
    (hkind : w.Tells id k) :
    Does w r (some id) H (declare id role k value) (Answers w id) := by
  refine (typeOf?_works hH).andThen fun type => ?_
  cases type with
  | none => exact suppress_works .here
  | some type =>
    refine .given_and fun htype => .declaring (K := fun x p => .var x ∈ p.declared)
      (fun p hp => ⟨hcause p type _ hp, fun hw => .of_fresh rfl rfl rfl (huses p hp hw)
        fun u hu => ?_⟩)
      (fun _ _ _ => .head _) fun c => bindMade_works .here rfl fun p hp _ => ?_
    · exact ⟨id, (hwords u hu).imp fun _ h => ⟨rfl, h⟩⟩
    · refine .of_declared rfl hp fun harray => ?_
      cases (isArray_of_type htype).symm.trans (hkind harray)

theorem declareLocal_works (h : value.Local) (hkind : w.Tells id k) :
    Does w r (some id) H (declare id role k value) (Answers w id) :=
  declare_works hH huses hwords (fun _ _ _ _ => .bare (Stmt.Local.declare h).toBare (.inr rfl))
    hkind

end

theorem bufferLength?_works :
    Does w r n H (bufferLength? x) fun o p => o = p.buffers.lookup x ∧ H p :=
  .look_andThen fun q => .result fun _ hp => ⟨by rw [hp.2], hp.1⟩

theorem elementPlace_works :
    Does w r n H (elementPlace x i) fun place p => place = p.placeOf x i ∧ H p := by
  refine .same fun p place p' hp hrun => ?_
  cases (elementPlace_eq x i p).symm.trans hrun
  exact ⟨.done, rfl, hp⟩

end Steps

/-! ### Parts of values -/

section Parts

variable {H : Progress → Prop} {id array index : NodeId} {x : Name}
variable {vs : List Name}

/-- In a function, the names are those of operands. -/
abbrev Operands (w : Bench) (vs : List Name) (p : Progress) : Prop :=
  w.site.IsFunction → ∀ v ∈ vs, ∃ id, Operand id v p

/-- By induction on the values, the fields of a struct are set. -/
theorem emitFields_works {object : Name} {position : Nat} (hobject : object.isLegal = true) :
    Does w r n (fun p => .var object ∈ p.declared ∧ Operands w vs p) (emitFields object position vs)
      fun _ p => .var object ∈ p.declared := by
  induction vs generalizing position with
  | nil => exact .result fun _ hp => hp.1
  | cons v vs ih =>
    have hemit : Does w r n (fun p => .var object ∈ p.declared ∧ Operands w (v :: vs) p)
        (emit (.assign (.field object position) (.place (.name v))))
        fun _ p => .var object ∈ p.declared ∧ Operands w vs p := by
      refine .effect
        (fun p hp => .write (.bare ⟨rfl, rfl, rfl, rfl⟩ (.inr rfl)) (Nat.le_refl _) fun hw => ?_)
        fun p hp => ⟨hp.1, fun hw v hv => hp.2 hw v (.tail _ hv)⟩
      obtain ⟨other, hv⟩ := hp.2 hw v (.head _)
      refine .of_single rfl rfl (List.forall_mem_append.2 ⟨?_, hv.usable⟩) (List.forall_mem_nil _)
        (List.forall_mem_nil _)
      cases object with
      | literal l => exact List.forall_mem_nil _
      | _ => exact List.forall_mem_singleton.2 (.declared hobject hp.1)
    exact hemit.andThen fun _ => ih

/-- A struct is declared and its fields are set. -/
theorem lowerStruct_works (hkind : w.Tells id k) :
    Does w r (some id) (Operands w vs) (lowerStruct id role k vs) (Answers w id) := by
  refine (typeOf?_works fun _ _ h => h).andThen fun type => ?_
  cases type with
  | none => exact suppress_works .here
  | some type =>
    refine .given_and fun htype => .declaring (K := fun x p => .var x ∈ p.declared ∧
      Operands w vs p)
      (fun p _ => ⟨.bare ⟨rfl, rfl, rfl, rfl⟩ (.inr rfl), fun _ => ?_⟩)
        (fun _ _ hp => ⟨.head _, hp⟩) fun c => ?_
    · exact .of_fresh rfl rfl rfl (List.forall_mem_nil _) (List.forall_mem_nil _)
    · refine (emitFields_works rfl).andThen fun _ => bindMade_works .here rfl fun p hp _ => ?_
      refine .of_declared rfl hp fun harray => ?_
      cases (isArray_of_type htype).symm.trans (hkind harray)

section Kernel

variable (hkernel : ¬ w.site.IsFunction)
include hkernel

theorem emitKernel_works {s : Stmt} (hs : s.Local) : Does w r n H (emit s) fun _ => anyhow :=
  emit_works hs.toBare (.inr hs.plain) fun _ _ hw => (hkernel hw).elim

theorem bindKernel_works :
    Does w r (some id) (w.Given · id x) (do bind x id k; return x) (Answers w id) :=
  bindResult_works .here fun _ hx => ⟨hx, fun _ hw => (hkernel hw).elim⟩

theorem lasting_given (x : Name) : Lasting (w.Given · id x) := by
  intro p p' h hx
  cases hx with
  | made hx => exact .made hx fun hw => (hkernel hw).elim
  | length hx => exact .length (h.buffers hx) fun hw => (hkernel hw).elim
  | suppressed hx hreported => exact .suppressed hx (hreported.mono h.diagnostics.subset)

/-- An element of a progression gets a name that may be given to the node. -/
theorem lowerProgression_works {layout : SequenceLayout} :
    Does w r (some id) anyhow (lowerProgression layout id field i) fun y p => w.Given p id y := by
  have hmade {y : Name} (hy : y.isMade = true) (p : Progress) : w.Given p id y :=
    .made hy fun hw => (hkernel hw).elim
  unfold lowerProgression
  split
  · exact .failure _
  · split
    · exact .failure _
    · split
      · refine fresh_works.andThen fun y => .given fun hy => ?_
        dsimp only
        split
        · refine fresh_works.next fun m => (emitKernel_works hkernel (.declare ⟨rfl, rfl⟩)).next
            fun _ => ?_
          exact (emitKernel_works hkernel (.declare ⟨rfl, rfl⟩)).next fun _ => .result
            fun p _ => hmade hy p
        · exact (emitKernel_works hkernel (.declare ⟨rfl, rfl⟩)).next fun _ => .result
            fun p _ => hmade hy p
      · refine report_works.andThen fun _ => .andThen (P := fun _ p => Reported p.diagnostics id)
          (.effect (fun p h => .name _ .here (.suppressed rfl ?_)) fun p h => ?_) fun _ => ?_
        · exact ⟨_, List.mem_of_getLast? h, rfl⟩
        · exact ⟨_, List.mem_of_getLast? h, rfl⟩
        · exact .result fun _ h => .suppressed rfl h

/-- A field of an element is read from where it may be read. -/
theorem readField_works {k : ScalarKind} {place : Place} (h : ∀ p, w.Reads p id place) :
    Does w r (some id) anyhow (readField k place) fun y p => w.Given p id y := by
  refine .declaring (K := fun _ => anyhow)
    (fun p _ => ⟨.read _ _ (h p), fun hw => (hkernel hw).elim⟩)
    (fun _ _ _ => trivial) fun c => .result fun p _ => ?_
  exact .made rfl fun hw => (hkernel hw).elim

/-- The fields of an element are put together to the value of the node. -/
theorem lowerElement_works (hkind : w.Tells id k) :
    Does w r (some id) (fun p => ∀ v ∈ vs, w.Given p id v) (lowerElement id k vs)
      (Answers w id) := by
  unfold lowerElement
  split
  · exact (lowerStruct_works hkind).imp (fun _ _ hw => (hkernel hw).elim) fun _ _ h => h
  · cases vs with
    | cons v vs => exact (bindKernel_works hkernel).imp (fun _ h => h v (.head _)) fun _ _ h => h
    | nil => exact suppress_works .here

/-- Each field of an element is computed or read, and they are put together. -/
theorem loadSplitInput_works (hk : w.kind? id = some (.operation (.loadIndexed array index)))
    (hsplit : w.site.splitInput = some (array, metadata))
    (hkind : w.Tells id k) :
    Does w r (some id) anyhow (loadSplitInput w.site metadata id k i) (Answers w id) := by
  refine .andThen (.all (S := fun v p => w.Given p id v) (lasting_given hkernel) fun q hq => ?_)
    fun values => ?_
  · split
    · exact lowerProgression_works hkernel
    · next hnone => exact readField_works hkernel fun p => .splitInput hk hsplit hnone hq
  · refine .andThen (.effect (fun p _ => ?_) fun p h v hv => ?_) fun _ =>
      lowerElement_works hkernel hkind
    · exact .element i hk (by rw [hsplit]; rfl)
    · exact lasting_given hkernel v p _ (.of_element (id, i)) (h v hv)

end Kernel

end Parts

/-! ### Elements of sequences -/

section Sequences

variable {layout : SequenceLayout} {id : NodeId} {p p' p'' : Progress} {y : Name}
variable {ss ss' : List Stmt}
variable (hkernel : ¬ w.site.IsFunction)

/-- If nothing is reported in two pieces of work, nothing is reported in either. -/
theorem Keeps.silent (h : Keeps p p') (h' : Keeps p' p'')
    (hsilent : p''.diagnostics = p.diagnostics) :
    p'.diagnostics = p.diagnostics ∧ p''.diagnostics = p'.diagnostics := by
  have hprefix := hsilent ▸ h'.diagnostics
  have heq : p'.diagnostics = p.diagnostics :=
    hprefix.eq_of_length (Nat.le_antisymm hprefix.length_le h.diagnostics.length_le)
  exact ⟨heq, hsilent.trans heq.symm⟩

theorem Inserts.keep (h : Inserts ss p p') (hp : p'.block <:+ p''.block) : Inserts ss p p'' := by
  obtain ⟨new, hnew, hss⟩ := h
  obtain ⟨more, hmore⟩ := hp
  exact ⟨more ++ new, by rw [← hmore, hnew, List.append_assoc],
    List.subset_append_of_subset_right _ hss⟩

theorem Inserts.after (h : Inserts ss p' p'') (hp : p.block <:+ p'.block) : Inserts ss p p'' := by
  obtain ⟨new, hnew, hss⟩ := h
  obtain ⟨more, hmore⟩ := hp
  exact ⟨new ++ more, by rw [hnew, ← hmore, List.append_assoc],
    List.subset_append_of_subset_left _ hss⟩

theorem Inserts.append (h : Inserts ss p p') (h' : Inserts ss' p p') :
    Inserts (ss ++ ss') p p' := by
  obtain ⟨new, hnew, hss⟩ := h
  obtain ⟨new', hnew', hss'⟩ := h'
  cases List.append_cancel_right (hnew.symm.trans hnew')
  exact ⟨new, hnew, List.append_subset.2 ⟨hss, hss'⟩⟩

theorem Declares.mono {fields : List Nat} {vs : List Name} (h : Declares layout ss fields vs)
    (hsub : ss ⊆ ss') : Declares layout ss' fields vs :=
  h.imp fun _ _ ⟨s, hs, hdecodes⟩ => ⟨s, hsub hs, hdecodes⟩

/-- Unless something is reported, the name is that of an element of the progression. -/
theorem lowerProgression_decodes (h : lowerProgression layout id field i p = .ok (y, p'))
    (hsilent : p'.diagnostics = p.diagnostics) :
    ∃ s, s.Decodes layout field y ∧ Inserts [s] p p' := by
  unfold lowerProgression at h
  cases hfield : layout.fields[field]? with
  | none => rw [hfield] at h; cases h
  | some progression =>
    rw [hfield] at h
    dsimp only at h
    cases hkind : progression.start.kind? with
    | none => rw [hkind] at h; cases h
    | some kind =>
      rw [hkind] at h
      dsimp only at h
      -- without a literal for the start or the stride something is reported
      cases hstart : Literal.ofValue? progression.start with
      | none => rw [hstart] at h; cases h; simp at hsilent
      | some start =>
        cases hstride : Literal.ofValue? (progression.stride.cast kind) with
        | none => rw [hstart, hstride] at h; cases h; simp at hsilent
        | some stride =>
          rw [hstart, hstride] at h
          replace h := Step.after_ok rfl h
          cases hrule : indexRule? progression with
          | some rule =>
            rw [hrule] at h
            replace h := Step.after_ok rfl h
            replace h := Step.after_ok rfl h
            cases h
            exact ⟨_, .indexed _ hfield hrule hkind hstart hstride, [_, _], rfl,
              List.cons_subset.2 ⟨.head _, List.nil_subset _⟩⟩
          | none =>
            rw [hrule] at h
            cases h
            exact ⟨_, .linear _ hfield hrule hkind hstart hstride, [_], rfl, List.Subset.refl _⟩

theorem emitFields_inserts {object : Name} {position : Nat} {vs : List Name} {u : Unit}
    (h : emitFields object position vs p = .ok (u, p')) :
    Inserts (settings object position vs) p p' := by
  induction vs generalizing p position with
  | nil =>
    cases h
    exact ⟨[], rfl, List.Subset.refl _⟩
  | cons v vs ih =>
    replace h := Step.after_ok rfl h
    obtain ⟨new, hnew, hss⟩ := ih h
    refine ⟨new ++ [.assign (.field object position) (.place (.name v))], ?_, ?_⟩
    · rw [hnew, List.append_assoc]
      rfl
    · exact List.cons_subset.2 ⟨by simp, List.subset_append_of_subset_left _ hss⟩

/-- Unless something is reported, an element is its first field or a struct of all fields. -/
theorem lowerElement_inserts {values : List Name} (h : lowerElement id k values p = .ok (y, p'))
    (hsilent : p'.diagnostics = p.diagnostics) :
    values.head? = some y ∨ Inserts (settings y 1 values) p p' := by
  unfold lowerElement at h
  split at h
  · replace h := Step.after_ok rfl h
    replace h := Step.after_ok rfl h
    replace h := Step.after_ok rfl h
    obtain ⟨_, p₁, hfields, ⟨⟩⟩ := Step.bind_eq_ok.1 h
    exact .inr ((emitFields_inserts hfields).after (List.suffix_cons ..))
  · cases values with
    | cons v values =>
      cases h
      exact .inl rfl
    | nil =>
      cases h
      simp at hsilent

include hkernel

/-- By induction on the fields: each has a name of its own. -/
theorem lowerProgressions_decodes {pointers : List FieldPointer} {values : List Name}
    (h : (pointers.mapM fun q => lowerProgression layout id q.field i) p = .ok (values, p'))
    (hsilent : p'.diagnostics = p.diagnostics) :
    ∃ ss, Inserts ss p p' ∧ Declares layout ss (pointers.map FieldPointer.field) values := by
  induction pointers generalizing p values with
  | nil =>
    cases h
    exact ⟨[], ⟨[], rfl, List.Subset.refl _⟩, .nil⟩
  | cons q pointers ih =>
    rw [List.mapM_cons] at h
    obtain ⟨v, p₁, hv, h⟩ := Step.bind_eq_ok.1 h
    obtain ⟨vs, p₂, hvs, ⟨⟩⟩ := Step.bind_pure_eq_ok.1 h
    have hfirst := (lowerProgression_works (w := w) (r := []) hkernel trivial hv).1.keeps
    have hrest := (Works.all (w := w) (r := []) (lasting_given hkernel)
      (fun q _ => lowerProgression_works hkernel) trivial hvs).1.keeps
    obtain ⟨hsilent₁, hsilent₂⟩ := hfirst.silent hrest hsilent
    obtain ⟨s, hs, hinserts⟩ := lowerProgression_decodes hv hsilent₁
    obtain ⟨ss, hss, hvalues⟩ := ih hvs hsilent₂
    exact ⟨[s] ++ ss, (hinserts.keep hrest.block).append (hss.after hfirst.block),
      .cons ⟨s, .head _, hs⟩ (hvalues.mono (List.subset_cons_self ..))⟩

/-- Unless something is reported, an input in fields is loaded as an element of the sequence. -/
theorem loadSplitInput_decodes (hmode : w.site.mode.sequence? = some layout)
    (hkind : w.Tells id k)
    (h : loadSplitInput w.site metadata id k i p = .ok (y, p'))
    (hsilent : p'.diagnostics = p.diagnostics) :
    ∃ ss, Inserts ss p p' ∧ Composes layout (w.site.inputs.map FieldPointer.field) y ss := by
  unfold loadSplitInput at h
  rw [hmode] at h
  obtain ⟨values, p₁, hvalues, h⟩ := Step.bind_eq_ok.1 h
  replace h := Step.after_ok rfl h
  obtain ⟨hwork, hgiven, -⟩ := Works.all (w := w) (r := []) (lasting_given hkernel)
    (fun q _ => lowerProgression_works hkernel) trivial hvalues
  have hkeeps : Keeps p₁ _ := .of_element (id, i)
  have hrest := (lowerElement_works (w := w) (r := []) hkernel hkind
    (fun v hv => lasting_given hkernel v _ _ hkeeps (hgiven v hv)) h).1.keeps
  have hlast : Keeps p₁ p' := hkeeps.trans hrest
  obtain ⟨hsilent₁, hsilent₂⟩ := hwork.keeps.silent hlast hsilent
  obtain ⟨ss, hss, hdecodes⟩ := lowerProgressions_decodes hkernel hvalues hsilent₁
  replace hss := hss.keep hlast.block
  obtain hfirst | hfields := lowerElement_inserts h hsilent₂
  · exact ⟨ss, hss, values, hdecodes, .inl hfirst⟩
  · exact ⟨ss ++ settings y 1 values, hss.append (hfields.after hwork.keeps.block), values,
      hdecodes.mono (List.subset_append_left ..), .inr (List.subset_append_right ..)⟩

end Sequences

/-! ### Expressions -/

/-- An expression uses the names that it is made of, and no words. -/
structure Made (e : Expr) (names : List Name) : Prop where
  localToBlock : e.Local
  uses : e.uses ⊆ names.flatMap Name.uses
  words : e.words = []

theorem made_unaryExpr (op : UnaryOp) (result : Option ScalarKind) (x : Name) :
    Made (unaryExpr op result x) [x] := by
  cases op with
  | neg => exact ⟨⟨rfl, rfl⟩, by simp [unaryExpr, Expr.uses], rfl⟩
  | not =>
    unfold unaryExpr
    dsimp only
    split <;> exact ⟨⟨rfl, rfl⟩, by simp [Expr.uses], rfl⟩

theorem made_binaryExpr (op : BinaryOp) (result : ScalarKind) (left : Option ScalarKind)
    (x y : Name) :
    Made (binaryExpr op result left x y) [x, y] := by
  cases op with
  | rem =>
    unfold binaryExpr
    dsimp only
    split <;> exact ⟨⟨rfl, rfl⟩, by simp [Expr.uses], rfl⟩
  | _ => exact ⟨⟨rfl, rfl⟩, by simp [binaryExpr, Expr.uses], rfl⟩

theorem made_math (g : Graph) (op : MathOp) (result : ScalarKind) (args : List NodeId)
    (names : List Name) :
    Made (.math op ((args.zip names).map fun (arg, x) => mathArgument g result arg x)) names := by
  refine ⟨⟨rfl, rfl⟩, fun i hi => ?_, rfl⟩
  simp only [Expr.uses, List.flatMap_map, List.mem_flatMap] at hi
  obtain ⟨⟨arg, x⟩, hx, hi⟩ := hi
  exact List.mem_flatMap.2 ⟨x, (List.of_mem_zip hx).2, hi⟩

/-! ### Lambdas -/

/-- The bundle of a lambda holds its function. -/
def Bench.Supplied (w : Bench) : Prop :=
  ∀ g callers b, w.lower g callers = .ok b → ∃ f ∈ b.functions, f.name = functionName g.name

theorem exists_mem_addFunctions {new : List Code.Function} {f : Code.Function}
    (fs : List Code.Function) (h : f ∈ new) : ∃ f' ∈ addFunctions fs new, f'.name = f.name := by
  induction new generalizing fs with
  | nil => cases h
  | cons f₁ new ih =>
    rcases List.mem_cons.1 h with rfl | h
    · -- the function is added here, or there is one of its name already
      rw [addFunctions]
      split
      · next hany =>
        obtain ⟨f', hf', hname⟩ := List.any_eq_true.1 hany
        exact ⟨f', mem_addFunctions_of_mem hf', eq_of_beq hname⟩
      · exact ⟨f, mem_addFunctions_of_mem (by simp), rfl⟩
    · exact ih _ h

/-- A lambda has a function after it was asked for, which is lowered at most once. -/
theorem function_works (hw : w.Supplied) {id : NodeId} {lambda : String}
    (hid : w.site.graph.lambdaAt? id = some lambda) :
    Does w r (some id) anyhow (w.function lambda id) fun f p =>
      f = functionName lambda ∧ p.Lists (functionName lambda) := by
  refine .look_andThen fun q => ?_
  dsimp only
  split
  · next hlisted =>
    refine .result ?_
    rintro p ⟨-, rfl⟩
    obtain ⟨f, hf, hname⟩ := List.any_eq_true.1 hlisted
    exact ⟨rfl, f, hf, eq_of_beq hname⟩
  · next hunlisted =>
    split
    · exact .failure_andThen _
    · next hcallers =>
      split
      · exact .failure _
      · next g hg =>
        refine .check_andThen fun b hb => ?_
        refine .andThen (P := fun _ p => p.Lists (functionName lambda)) (.effect ?_ ?_)
          fun _ => .result fun _ h => ⟨rfl, h⟩
        · rintro p ⟨-, rfl⟩
          refine .absorb hid ?_ hcallers hg hb
          rintro ⟨f, hf, hname⟩
          exact hunlisted (List.any_eq_true.2 ⟨f, hf, beq_iff_eq.2 hname⟩)
        · rintro p -
          obtain ⟨f, hf, hname⟩ := hw g _ b hb
          obtain ⟨f', hf', hname'⟩ := exists_mem_addFunctions p.functions hf
          have hlambda : g.name = lambda := by simpa using List.find?_some hg
          exact ⟨f', hf', by rw [hname', hname, hlambda]⟩

end Kernelwright.Lowering
