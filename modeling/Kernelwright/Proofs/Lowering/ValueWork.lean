import Kernelwright.Proofs.Lowering.Works

/-!
# Values are lowered by work

However a value is lowered, it is a piece of work, and the node that was asked for has a name
afterwards. By the end of a visit the lambda of the node has a function, and the elements of a
sequence are computed.

`watch` lowers a value and checks that this is accounted for in the reports. The check is always
passed in a function.
-/

namespace Kernelwright

open Code

section Kinds

variable {g : Graph} {id array index : NodeId} {k : NodeKind}

theorem ValueKind.isArray_ofType (type : ElementType) : (ofType type).isArray = false := by
  fun_induction ofType type <;> trivial

theorem Graph.isArray_rule (hk : g.kind? id = some k) (h : (g.valueKind id).isArray = true) :
    (k.valueKind g.valueKind).isArray = true := by
  rw [← valueKind_eq hk]
  · exact h
  · intro hillegal
    rw [hillegal] at h
    cases h

theorem Graph.not_isArray (hk : g.kind? id = some k) (h : (k.valueKind g.valueKind).isArray = false)
    (harray : (g.valueKind id).isArray = true) : False := by
  rw [isArray_rule hk harray] at h
  cases h

theorem Graph.isArray_of_load (hk : g.kind? id = some (.operation (.loadIndexed array index)))
    (h : (g.valueKind id).isIllegal = false) : (g.valueKind array).isArray = true := by
  have hrule : g.valueKind id = _ := valueKind_eq hk fun hillegal => by
    simp [hillegal, ValueKind.isIllegal] at h
  simp only [NodeKind.valueKind, Operation.valueKind] at hrule
  cases harray : g.valueKind array with
  | array => rfl
  | _ =>
    rw [harray] at hrule
    simp [hrule, ValueKind.isIllegal] at h

end Kinds

namespace Lowering

variable {w : Bench} {r : List Diagnostic} {n : Option NodeId}
variable {p p' : Progress} {lambda : String}

/-! ### Watched values -/

/-- Every node without a legal name is reported. -/
def Progress.Accounts (p : Progress) : Prop :=
  ∀ scope ∈ p.symbols.scopes, ∀ e ∈ scope.nodes, e.2 = .illegal → Reported p.diagnostics e.1

instance (p : Progress) : Decidable p.Accounts :=
  inferInstanceAs (Decidable (∀ scope ∈ p.symbols.scopes, ∀ e ∈ scope.nodes, e.2 = .illegal →
    Reported p.diagnostics e.1))

/-- The lowering of a node is accounted for in the reports: they are about all nodes without a legal
name, and if the node has just been suppressed then the latest is about it. -/
structure Accounted (reported : List Diagnostic) (id : NodeId) (before : Progress) (name : Name)
    (after : Progress) : Prop where
  nodes : after.Accounts
  reports : after.diagnostics ⊆ reported
  latest : before.symbols.nameOf? id = none → name = .illegal →
    after.diagnostics.getLast?.bind (·.node) = some id

instance (reported : List Diagnostic) (id : NodeId) (before : Progress) (name : Name)
    (after : Progress) : Decidable (Accounted reported id before name after) :=
  decidable_of_iff (after.Accounts ∧ after.diagnostics ⊆ reported ∧
      (before.symbols.nameOf? id = none → name = .illegal →
        after.diagnostics.getLast?.bind (·.node) = some id))
    ⟨fun h => ⟨h.1, h.2.1, h.2.2⟩, fun h => ⟨h.1, h.2, h.3⟩⟩

/-- Lower operands, and stop at the first that is not accounted for. -/
def watch (reported : List Diagnostic) (value : Values) : Values := fun id => do
  let before ← get
  let name ← value id
  let after ← get
  if Accounted reported id before name after then return name else throw .endless

/-- Lower the value of a node as `lowerValue` does, and watch it and every operand of operands. -/
def watchedValue (reported : List Diagnostic) (site : Site) (lambdas : List Graph)
    (function : Functions) : Nat → Values
  | 0 => fun _ => throw .endless
  | depth + 1 =>
    watch reported
      (lowerNode site lambdas (watchedValue reported site lambdas function depth) function)

theorem watch_of_accounted {reported : List Diagnostic} {value : Values} {id : NodeId} {x : Name}
    (h : value id p = .ok (x, p')) (haccounted : Accounted reported id p x p') :
    watch reported value id p = .ok (x, p') := by
  unfold watch
  rw [Step.get_bind, Step.bind_of_ok h, Step.get_bind, if_pos haccounted]
  rfl

theorem Tidy.accounts (h : Tidy p) : p.Accounts := by
  rintro scope hscope ⟨id, x⟩ he rfl
  exact h.names id ⟨scope, hscope, he⟩

/-! ### Operands -/

section Values

variable {id array index object : NodeId} {ids : List NodeId} {value watched : Values} {x : Name}
variable {layout : SequenceLayout} {fields : List Nat} {result : ElementType} {k : ValueKind}
variable {names : List Name} {e : Expr} {role : Role}

/-- Operands are lowered by work, and get names. -/
def WorksValues (w : Bench) (r : List Diagnostic) (value watched : Values) : Prop :=
  ∀ n id, Works w r n anyhow (value id) (watched id) (HasName id)

theorem lasting_binds : Lasting fun p => p.symbols.Binds id x := fun _ _ h hx => h.names id x hx

theorem lasting_lists {name : String} : Lasting fun p => p.Lists name :=
  fun _ _ h hname => h.functions name hname

theorem WorksValues.binds (hvalue : WorksValues w r value watched) (id : NodeId) :
    Works w r n anyhow (value id) (watched id) fun x p => p.symbols.Binds id x :=
  (hvalue n id).imp (fun _ h => h) fun _ _ h => SymbolTable.binds_of_nameOf? h

/-- If there are names, they are those of the operands. -/
abbrev Named? (ids : List NodeId) (o : Option (List Name)) (p : Progress) : Prop :=
  ∀ names, o = some names → List.Forall₂ (Operand · · p) ids names

theorem exists_mem_of_forall₂ {α β : Type} {R : α → β → Prop} {as : List α} {bs : List β} {b : β}
    (h : List.Forall₂ R as bs) (hb : b ∈ bs) : ∃ a ∈ as, R a b := by
  induction h with
  | nil => cases hb
  | cons hab _ ih =>
    obtain rfl | hb := List.mem_cons.1 hb
    · exact ⟨_, .head _, hab⟩
    · obtain ⟨a, ha, hab⟩ := ih hb
      exact ⟨a, .tail _ ha, hab⟩

theorem exists_operand (h : Named? ids (some names) p) : ∀ x ∈ names, ∃ id, Operand id x p := by
  intro x hx
  obtain ⟨id, -, hid⟩ := exists_mem_of_forall₂ (h names rfl) hx
  exact ⟨id, hid⟩

theorem declareMade_works (he : Made e names) :
    Does w r (some id) (Named? ids (some names)) (declare id role (w.site.graph.valueKind id) e)
      (Answers w id) :=
  declareLocal_works (fun _ _ h => h)
    (fun _ hp _ i hi => usable_operands (exists_operand hp) i (he.uses hi))
    (he.words ▸ List.forall_mem_nil _) he.localToBlock fun h => h

variable (hvalue : WorksValues w r value watched)
include hvalue

theorem operands_works :
    Works w r n anyhow (operands value ids) (operands watched ids) (Named? ids) := by
  induction ids with
  | nil => exact .result fun _ _ _ h => by cases h; exact .nil
  | cons id ids ih =>
    refine (hvalue.binds id).andThen fun name =>
      .ite (fun _ => .result fun _ _ _ h => by cases h) fun hlegal => ?_
    refine (ih.keep lasting_binds).andThen fun o => ?_
    cases o with
    | none => exact .result fun _ _ _ h => by cases h
    | some names =>
      refine .result fun p h _ hnames => ?_
      cases hnames
      exact .cons ⟨h.2, hlegal⟩ (h.1 names rfl)

theorem lowerMath_works {op : MathOp} :
    Works w r (some id) anyhow (lowerMath w.site.graph value id op ids)
      (lowerMath w.site.graph watched id op ids) (Answers w id) := by
  refine .ite (fun _ => suppress_works .here) fun _ => (operands_works hvalue).andThen
    fun names => ?_
  cases names with
  | none => exact suppress_works .here
  | some names =>
    dsimp only
    split
    · exact suppress_works .here
    · exact declareMade_works (made_math ..)

/-! ### Arrays -/

/-- The length of an array in global memory is declared once in each scope that needs it. -/
theorem lowerLength_works (hk : w.kind? id = some (.operation (.arrayLength array))) :
    Works w r (some id) anyhow (lowerLength value id array) (lowerLength watched id array)
      (Answers w id) := by
  have hid : (w.site.graph.valueKind id).isArray = true → False := Graph.not_isArray hk <| by
    simp only [NodeKind.valueKind, Operation.valueKind]
    cases w.site.graph.valueKind array <;> rfl
  refine (hvalue.binds array).andThen fun arr => .ite (fun _ => suppress_works .here)
    fun hlegal => ?_
  refine bufferLength?_works.andThen fun length => ?_
  cases length with
  | some length =>
    refine bindResult_works .here fun p hp => ?_
    have hmem : (arr, length) ∈ p.buffers := mem_of_lookup hp.1.symm
    refine ⟨.length hmem fun _ => ⟨fun i hi => .length hp.2 hmem hi, fun h => (hid h).elim⟩, ?_⟩
    exact fun h _ => .inr ⟨arr, h ▸ hmem⟩
  | none =>
    have hbind {H : Progress → Prop} (h : ∀ p, H p → w.Usable p (.var (.length arr))) :
        Does w r (some id) H (do bind (.length arr) id (.scalar .int); return .length arr)
          (Answers w id) :=
      bindMade_works .here rfl fun p hp _ =>
        ⟨List.forall_mem_singleton.2 (h p hp), fun h => (hid h).elim⟩
    refine .look_andThen fun q => .ite (fun _ => ?_) fun hsome => hbind ?_
    · refine .andThen (P := fun _ p => p.symbols.Binds array arr ∧ .var (.length arr) ∈ p.declared)
        (.effect (fun p hp => ?_) fun p hp => ⟨hp.1.2, .head _⟩) fun _ =>
          hbind fun p hp => .known hp.1 hlegal (.inl hp.2)
      refine .write (.bare ⟨rfl, rfl, rfl, rfl⟩ (.inr rfl)) (Nat.le_refl _)
        fun _ => .of_single rfl rfl
        (fun i hi => .data hp.1.2 hlegal hp.1.1.symm ?_ hi) ?_ (List.forall_mem_nil _)
      · exact fun htyped => htyped _ (Graph.mem_of_kind? hk) array (.head _)
      · exact List.forall_mem_singleton.2 (.length hp.1.2 hlegal)
    · rintro p ⟨⟨-, harr⟩, rfl⟩
      exact .known harr hlegal (.inr (by simpa [Option.isSome_iff_ne_none] using hsome))

omit hvalue in
/-- Nothing is computed of an array that is neither split nor the input of a sequence of scalars. -/
theorem decoding?_eq_none (hsplit : w.site.splitInput.map Prod.fst ≠ some array)
    (h : ∀ layout kind, w.site.mode.sequence? = some layout → isInput w.site.graph array = true →
      w.site.graph.valueKind id = .scalar kind → False) : w.decoding? id array = none := by
  unfold Bench.decoding?
  cases hmode : w.site.mode.sequence? with
  | none => rfl
  | some layout =>
    have hscalar (hinput : isInput w.site.graph array = true) :
        (w.site.graph.valueKind id).scalar?.isSome = false := by
      cases hkind : w.site.graph.valueKind id with
      | scalar kind => exact (h layout kind hmode hinput hkind).elim
      | _ => rfl
    simp only [hsplit, if_false, ite_eq_left_iff, ite_eq_right_iff, reduceCtorEq, imp_false,
      not_and]
    exact fun _ hinput => by simp [hscalar hinput]

theorem lowerLoad_works (hk : w.kind? id = some (.operation (.loadIndexed array index))) :
    Works w r (some id) anyhow (lowerLoad w.site value id array index)
      (lowerLoad w.site watched id array index) (Answers w id) := by
  refine (hvalue.binds array).andThen fun arr => ?_
  refine ((hvalue.binds index).keep lasting_binds).andThen fun idx => ?_
  refine .ite (fun _ => suppress_works .here) fun hlegal => ?_
  obtain ⟨harr, hidx, hillegal⟩ := not_or.1 hlegal |>.imp_right not_or.1
  have harray := Graph.isArray_of_load hk (Bool.not_eq_true _ ▸ hillegal)
  dsimp only
  split
  case' h_1 => split
  case isTrue hsplit heq =>
    subst heq
    exact (loadSplitInput_works (fun hw => by simp [hw.splitInput] at hsplit) hk hsplit
      fun h => h).of_anyhow
  -- in both cases that are left, the array is not the input that is passed field by field
  all_goals
    have hsplit : w.site.splitInput.map Prod.fst ≠ some array := by simp [*]
    split
    · next houtput =>
      have hkernel (hw : w.site.IsFunction) : False := by simp [hw.splitOutput] at houtput
      refine .of_anyhow
        (.andThen (.all (S := fun v p => w.Given p id v) (lasting_given hkernel) fun q hq => ?_)
        fun values => lowerElement_works hkernel fun h => h)
      exact readField_works hkernel fun p => .splitOutput hk houtput hq
    · split
      · next hmode _ _ =>
        have hkernel (hw : w.site.IsFunction) : False := by simp [hw.mode, Mode.sequence?] at hmode
        exact .of_anyhow
          ((lowerProgression_works hkernel).andThen fun v => bindKernel_works hkernel)
      · next hother =>
        refine elementPlace_works.andThen fun place => ?_
        refine declare_works (fun _ _ h => h) (fun p h _ i hi => ?_) (List.forall_mem_nil _)
          (fun p type y h => ?_) fun h => h
        · obtain hi | hi := usable_placeOf rfl ⟨h.2.2, harr⟩ (fun _ => harray) i (h.1 ▸ hi)
          · exact .name h.2.1 hidx hi
          · exact hi
        · have hplace : place.array? = some arr := h.1 ▸ p.array?_placeOf arr idx
          exact .read type y (.element hk h.2.2 hplace (decoding?_eq_none hsplit hother) hsplit)

omit hvalue in
/-- Elements are computed of the input that is passed field by field, or of an input of scalars. -/
theorem decoding?_cases (h : w.decoding? id array = some (layout, fields)) :
    w.site.mode.sequence? = some layout ∧
      ((∃ metadata, w.site.splitInput = some (array, metadata) ∧
          fields = w.site.inputs.map FieldPointer.field) ∨
        (w.site.splitInput.map Prod.fst ≠ some array ∧ w.site.splitOutput ≠ some array ∧
          isInput w.site.graph array = true ∧
          (∃ kind, w.site.graph.valueKind id = .scalar kind) ∧ fields = [0])) := by
  unfold Bench.decoding? at h
  cases hmode : w.site.mode.sequence? with
  | none => simp [hmode] at h
  | some layout' =>
    rw [hmode] at h
    dsimp only at h
    split at h
    · next hsplit =>
      cases h
      obtain ⟨⟨_, metadata⟩, hinput, rfl⟩ := Option.map_eq_some_iff.1 hsplit
      exact ⟨rfl, .inl ⟨metadata, hinput, rfl⟩⟩
    · next hsplit =>
      split at h
      · cases h
      · next houtput =>
        split at h
        · next hscalar =>
          cases h
          refine ⟨rfl, .inr ⟨hsplit, houtput, hscalar.1, ?_, rfl⟩⟩
          cases hkind : w.site.graph.valueKind id with
          | scalar kind => exact ⟨kind, rfl⟩
          | _ => simp [hkind, ValueKind.scalar?] at hscalar
        · cases h

/-- A load of which the elements are computed is written that way, unless something is reported. -/
theorem lowerLoad_decodes (hk : w.kind? id = some (.operation (.loadIndexed array index)))
    (h : lowerLoad w.site value id array index p = .ok (x, p'))
    (hdecoding : w.decoding? id array = some (layout, fields))
    (hsilent : p'.diagnostics = p.diagnostics) :
    ∃ ss, Inserts ss p p' ∧ Composes layout fields x ss := by
  obtain ⟨arr, p₁, harr, h⟩ := Step.bind_eq_ok.1 h
  obtain ⟨idx, p₂, hidx, h⟩ := Step.bind_eq_ok.1 h
  have hkeeps := ((hvalue none array trivial harr).1.trans (hvalue none index trivial hidx).1).keeps
  obtain ⟨hmode, hcases⟩ := decoding?_cases hdecoding
  have hkernel (hw : w.site.IsFunction) : False := by simp [hw.mode, Mode.sequence?] at hmode
  dsimp only at h
  split at h
  · -- what is suppressed is reported
    cases h
    have hlength := congrArg List.length hsilent
    have hle := hkeeps.diagnostics.length_le
    simp at hlength
    omega
  · obtain ⟨metadata, hinput, rfl⟩ | ⟨hsplit, houtput, hinput, ⟨kind, hkind⟩, rfl⟩ := hcases
    · rw [hinput] at h
      dsimp only at h
      rw [if_pos rfl] at h
      have hrest := (loadSplitInput_works (r := r) hkernel hk hinput (fun h => h) trivial h).1.keeps
      obtain ⟨-, hsilent⟩ := hkeeps.silent hrest hsilent
      obtain ⟨ss, hss, hcomposes⟩ :=
        loadSplitInput_decodes hkernel hmode (fun h => h) h hsilent
      exact ⟨ss, hss.after hkeeps.block, hcomposes⟩
    · have hload : (do let v ← lowerProgression layout id 0 idx; bind v id (.scalar kind); return v)
        p₂ =
          .ok (x, p') := by
        cases hs : w.site.splitInput with
        | none => simpa [hs, houtput, hmode, hinput, hkind] using h
        | some e =>
          have hne : e.1 ≠ array := by simpa [hs] using hsplit
          simpa [hs, hne, houtput, hmode, hinput, hkind] using h
      obtain ⟨v, p₃, hv, hload⟩ := Step.bind_eq_ok.1 hload
      cases hload
      have hfirst := (lowerProgression_works (w := w) (r := r) hkernel trivial hv).1.keeps
      obtain ⟨-, hsilent⟩ := hkeeps.silent hfirst hsilent
      obtain ⟨s, hs, hinserts⟩ := lowerProgression_decodes hv hsilent
      exact ⟨[s], hinserts.after hkeeps.block, [x], .cons ⟨s, .head _, hs⟩ .nil,
        .inl rfl⟩

omit hvalue in
theorem addBuffer_works {m : Nat} {length : Name} :
    Does w r (some id) (fun p => .var (.fresh role m) ∈ p.declared ∧
      Bench.Measures p (.fresh role m) length)
      (do addBuffer (.fresh role m) length; bind (.fresh role m) id k; return .fresh role m)
      (Answers w id) := by
  refine .andThen (P := fun _ p =>
    .var (.fresh role m) ∈ p.declared ∧ (p.buffers.lookup (.fresh role m)).isSome)
    (.effect (fun p hp => .buffer hp.1 hp.2) fun p hp => ⟨hp.1, ?_⟩) fun _ => ?_
  · simp
  · refine bindMade_works .here rfl fun p hp _ => ⟨?_, fun _ => hp.2⟩
    exact List.forall_mem_singleton.2 (.declared rfl hp.1)

/-! ### Tuples and calls -/

theorem lowerInstance_works {type : ElementType}
    (hk : w.kind? id = some (.operation (.newInstance type ids))) :
    Works w r (some id) anyhow (lowerInstance value id type ids) (lowerInstance watched id type ids)
      (Answers w id) := by
  have hid : (w.site.graph.valueKind id).isArray = true → False :=
    Graph.not_isArray hk (ValueKind.isArray_ofType type)
  refine (operands_works hvalue).andThen fun values => ?_
  cases values with
  | none => exact suppress_works .here
  | some values =>
    dsimp only
    split
    · exact (lowerStruct_works fun h => (hid h).elim).imp (fun _ h _ => exists_operand h)
        fun _ _ h => h
    · cases values with
      | nil => exact suppress_works .here
      | cons v vs =>
        refine declareLocal_works (fun _ _ h => h) (fun p h _ => ?_)
          (List.forall_mem_nil _) ⟨rfl, rfl⟩
          fun h => (hid h).elim
        exact (exists_operand h v (.head _)).elim fun _ hv => hv.usable

theorem lowerComponent_works {arity part : UInt64}
    (hk : w.kind? id = some (.operation (.invoke (.tupleField arity part) ids result))) :
    Works w r (some id) anyhow (lowerComponent w.site value id arity.toNat part.toNat ids k)
      (lowerComponent w.site watched id arity.toNat part.toNat ids k) (Answers w id) := by
  have hid : (w.site.graph.valueKind id).isArray = true → False :=
    Graph.not_isArray hk (ValueKind.isArray_ofType result)
  unfold lowerComponent
  cases accessorPosition? arity.toNat part.toNat with
  | none => exact suppress_works .here
  | some position =>
    cases ids with
    | nil => exact .failure _
    | cons object rest =>
      refine (hvalue _ object).andThen fun obj => .ite (fun _ => suppress_works .here)
        fun hlegal => ?_
      refine .look_andThen fun q => ?_
      split
      · next index input metadata pointer helement hsplit hpointer =>
        have hmem := List.mem_reverse.1 (List.mem_of_find?_eq_some hpointer)
        have hread : Does w r (some id) (fun p => (object, index) ∈ p.elements)
            (declare id .field k (.place (.offsetCell pointer.name metadata index)))
              (Answers w id) := by
          refine declare_works (fun _ _ h => h) (fun _ _ hw => ?_) (List.forall_mem_nil _)
            (fun p type y h => ?_) fun h => (hid h).elim
          · simp [hw.splitInput] at hsplit
          · exact .read type y (.component hk h (by rw [hsplit]; rfl) hmem)
        refine hread.imp ?_ fun _ _ h => h
        rintro p ⟨-, rfl⟩
        exact mem_of_lookup helement
      · refine .look_andThen fun q' => ?_
        split
        · refine (declareLocal_works (fun _ _ h => h) (fun p h _ => ?_)
            (List.forall_mem_nil _) ⟨rfl, rfl⟩
            fun h => (hid h).elim).imp (fun _ h => h.1.1) fun _ _ h => h
          exact Operand.usable ⟨SymbolTable.binds_of_nameOf? h, hlegal⟩
        · next hscalar =>
          refine .ite (fun _ => share_works (fun h => (hid h).elim) hlegal ?_)
            fun _ => suppress_works .here
          rintro p ⟨⟨hname, -⟩, rfl⟩
          exact ⟨hname, .scalar hscalar⟩
        · exact suppress_works .here

omit hvalue in
theorem usable_flag {i : Ident} (hi : i ∈ (flagArguments w.site.guards).flatMap Argument.uses) :
    w.Usable p i := by
  obtain ⟨a, ha, hi⟩ := List.mem_flatMap.1 hi
  obtain ⟨hguards, rfl⟩ := eq_deoptFlag_of_mem ha
  cases List.mem_singleton.1 hi
  exact .flag hguards

theorem lowerCall_works (hw : w.Supplied)
    (hk : w.kind? id = some (.operation (.invoke (.lambda lambda) ids result))) :
    Works w r (some id) anyhow
      (lowerCall w.site value w.function id lambda ids (w.site.graph.valueKind id))
      (lowerCall w.site watched w.function id lambda ids (w.site.graph.valueKind id)) fun x p =>
        Answers w id x p ∧ p.Lists (functionName lambda) := by
  have hid : w.site.graph.lambdaAt? id = some lambda := by
    simp [Graph.lambdaAt?, hk, NodeKind.lambda?]
  refine (function_works hw hid).andThen fun f => .given_and fun hf => .keep ?_ lasting_lists
  subst hf
  refine (operands_works hvalue).andThen fun names => ?_
  cases names with
  | none => exact suppress_works .here
  | some names =>
    refine declare_works (fun _ _ h => h) (fun p h hw i hi => ?_)
      (List.forall_mem_singleton.2 ⟨_, hk, .head _⟩)
      (fun p type y h => .call type y hk ((h names rfl).imp fun _ _ h => h.1)) fun h => h
    obtain ⟨a, ha, hi⟩ := List.mem_flatMap.1 hi
    obtain ha | ⟨y, hy, rfl⟩ | ⟨hguards, rfl⟩ := mem_arguments ha
    · simp [hw.mode, Mode.isKernel] at ha
    · exact (exists_operand h y hy).elim fun _ hy => hy.usable i hi
    · cases List.mem_singleton.1 hi
      exact .flag hguards

/-- A fused map declares its buffer and the length of it, and the index in the head of its loop. -/
theorem lowerMapChain_works (hw : w.Supplied) {capacity : UInt64} {element : ElementType}
    (hk : w.kind? id = some (.operation (.mapChain lambda array capacity element))) :
    Works w r (some id) anyhow
      (lowerMapChain w.site w.lambdas value w.function id lambda array capacity.toNat element)
      (lowerMapChain w.site w.lambdas watched w.function id lambda array capacity.toNat element)
      fun x p => Answers w id x p ∧ p.Lists (functionName lambda) := by
  have hid : w.site.graph.lambdaAt? id = some lambda := by
    simp [Graph.lambdaAt?, hk, NodeKind.lambda?]
  have htyped (h : w.site.graph.ArraysTyped) := h _ (Graph.mem_of_kind? hk) array (.head _)
  unfold lowerMapChain
  cases hinner : w.lambdas.find? (·.name == lambda) with
  | none => exact .failure_andThen _
  | some inner =>
    refine .ite (fun _ => .failure_andThen _) fun hone => ?_
    refine (function_works hw hid).andThen fun f => .given_and fun hf => .keep ?_ lasting_lists
    subst hf
    refine (hvalue.binds array).andThen fun arr => (typeOf?_works fun _ _ h => h).andThen
      fun type => ?_
    cases type with
    | none => exact suppress_works .here
    | some type =>
      refine .ite (fun _ => suppress_works .here) fun hlegal => .same ?_
      rintro p x p' ⟨-, harr⟩ h
      -- both names are made first, then the place of the element is looked up
      replace h := Step.after_ok rfl h
      replace h := Step.after_ok rfl h
      replace h := Step.after_ok rfl h
      rw [Step.bind_of_ok (elementPlace_eq ..)] at h
      replace h := Step.after_ok rfl h
      replace h := Step.after_ok rfl h
      replace h := Step.after_ok rfl h
      obtain ⟨hwork, hx, -⟩ := addBuffer_works (r := r) ⟨.tail _ (.head _), .variable (.head _)⟩ h
      refine ⟨.effect (.write (.bare ⟨rfl, rfl, rfl, rfl⟩ (.inr rfl)) (Nat.le_succ _) fun _ => ?_)
        (.effect (.write (.bare ?_ (.inr rfl)) (Nat.le_refl _) fun _ => ?_)
          (.effect
            (.write (.fused _ _ _ hk hinner ?_ harr (p.array?_placeOf ..)) (Nat.le_succ _)
            fun _ => ?_)
            hwork)), hx⟩
      · exact .of_fresh rfl rfl rfl (List.forall_mem_nil _) (List.forall_mem_nil _)
      · cases p.buffers.lookup arr <;> exact ⟨rfl, rfl, rfl, rfl⟩
      · -- the length is the smaller one of the capacity and the length of the array
        cases hlookup : p.buffers.lookup arr with
        | some length =>
          exact .of_single rfl rfl (fun i hi => .length harr (mem_of_lookup hlookup) hi)
            (List.forall_mem_singleton.2 (.legal rfl fun _ _ h => by cases h))
              (List.forall_mem_nil _)
        | none =>
          exact .of_single rfl rfl
            (List.forall_mem_singleton.2 (.data harr hlegal hlookup htyped (.head _)))
            (List.forall_mem_singleton.2 (.legal rfl fun _ _ h => by cases h))
              (List.forall_mem_nil _)
      · simpa using hone
      · constructor
        all_goals
          refine List.forall_mem_cons.2
            ⟨?_, Stmt.allParts_singleton _ ▸ List.forall_mem_singleton.2 ?_⟩
        · exact List.forall_mem_singleton.2 (.inr (.inl (.declared rfl (.head _))))
        · intro i hi
          obtain hi | hi := List.mem_append.1 hi
          · obtain hi | hi := List.mem_append.1 hi
            · cases List.mem_singleton.1 hi
              exact .inr (.inl (.declared rfl (.tail _ (.head _))))
            · exact .inl ⟨Stmt.noConfusion, hi⟩
          · obtain hi | hi := List.mem_append.1 hi
            · refine (usable_placeOf ?_ ?_ htyped i hi).imp (.intro Stmt.noConfusion) .inl
              · rfl
              · exact ⟨harr, hlegal⟩
            · exact .inr (.inl (usable_flag hi))
        · exact List.forall_mem_singleton.2 (.fresh (Nat.le_refl _) (Nat.lt_succ_self _))
        · exact List.forall_mem_nil _
        · exact List.forall_mem_nil _
        · exact List.forall_mem_singleton.2 ⟨id, _, rfl, hk, .head _⟩

theorem lowerInvoke_works (hw : w.Supplied) {target : CallTarget}
    (hk : w.kind? id = some (.operation (.invoke target ids result))) :
    Works w r (some id) anyhow
      (lowerInvoke w.site value w.function id target ids (w.site.graph.valueKind id))
      (lowerInvoke w.site watched w.function id target ids (w.site.graph.valueKind id)) fun x p =>
        Answers w id x p ∧ ∀ lambda, target = .lambda lambda → p.Lists (functionName lambda) := by
  cases target with
  | tupleField arity part =>
    exact (lowerComponent_works hvalue hk).imp (fun _ h => h) fun _ _ h => ⟨h, nofun⟩
  | lambda name =>
    refine (lowerCall_works hvalue hw hk).imp (fun _ h => h) fun _ _ h => ⟨h.1, ?_⟩
    rintro _ ⟨⟩
    exact h.2
  | builtin name =>
    refine Works.imp (P := Answers w id) ?_ (fun _ h => h) fun _ _ h => ⟨h, nofun⟩
    refine (operands_works hvalue).andThen fun names => ?_
    cases names with
    | none => exact suppress_works .here
    | some names =>
      exact declareLocal_works (fun _ _ h => h) (fun _ h _ => usable_operands (exists_operand h))
        (List.forall_mem_singleton.2 ⟨_, hk, .head _⟩) ⟨rfl, rfl⟩ fun h => h

/-! ### Operations -/

theorem lowerOperation_works (hw : w.Supplied) {op : Operation}
    (hk : w.kind? id = some (.operation op)) :
    Works w r (some id) anyhow (lowerOperation w.site w.lambdas value w.function id op)
      (lowerOperation w.site w.lambdas watched w.function id op) fun x p =>
        Answers w id x p ∧
          ∀ lambda, (NodeKind.operation op).lambda? = some lambda →
            p.Lists (functionName lambda) := by
  have hplain {m m' : Lower Name} (hop : (NodeKind.operation op).lambda? = none)
      (h : Works w r (some id) anyhow m m' (Answers w id)) : Works w r (some id) anyhow
        m m' fun x p =>
        Answers w id x p ∧
          ∀ lambda, (NodeKind.operation op).lambda? = some lambda → p.Lists (functionName lambda) :=
    h.imp (fun _ h => h) fun _ _ h => ⟨h, fun _ hlambda => by rw [hop] at hlambda; cases hlambda⟩
  cases op with
  | parameter | phi => exact .failure _
  | constant v =>
    refine hplain rfl ?_
    simp only [lowerOperation]
    split
    · refine bindMade_works .here rfl fun p _ _ => ⟨List.forall_mem_nil _, fun h => ?_⟩
      refine (Graph.not_isArray hk ?_ h).elim
      simp only [NodeKind.valueKind, Operation.valueKind]
      cases v.kind? <;> rfl
    · exact suppress_works .here
  | unary o x =>
    refine hplain rfl ((operands_works hvalue).andThen fun names => ?_)
    split
    · exact declareMade_works (made_unaryExpr ..)
    · exact suppress_works .here
  | binary o x y =>
    refine hplain rfl ((operands_works hvalue).andThen fun names => ?_)
    split
    · split
      · exact suppress_works .here
      · exact declareMade_works (made_binaryExpr ..)
    · exact suppress_works .here
  | compare | normalizeCompare | conditional | convert =>
    refine hplain rfl ((operands_works hvalue).andThen fun names => ?_)
    split
    · exact declareMade_works ⟨⟨rfl, rfl⟩, by simp [Expr.uses], rfl⟩
    · exact suppress_works .here
  | relabel o x =>
    refine hplain rfl ((hvalue _ x).andThen fun name => .ite (fun _ => suppress_works .here)
      fun hlegal => ?_)
    exact share_works (Graph.isArray_rule hk) hlegal fun p h => ⟨h, .relabel hk⟩
  | math => exact hplain rfl (lowerMath_works hvalue)
  | arrayLength => exact hplain rfl (lowerLength_works hvalue hk)
  | loadIndexed => exact hplain rfl (lowerLoad_works hvalue hk)
  | loadField object field =>
    refine hplain rfl
      ((hvalue.binds object).andThen fun obj => .ite (fun _ => suppress_works .here) fun h => ?_)
    exact declareLocal_works (fun _ _ h => h) (fun p hp _ => Operand.usable ⟨hp, (not_or.1 h).1⟩)
      (List.forall_mem_nil _) ⟨rfl, rfl⟩ fun h => h
  | newInstance => exact hplain rfl (lowerInstance_works hvalue hk)
  | newArray element length =>
    refine hplain rfl
      (.declaring (K := fun x p => .var x ∈ p.declared) (fun p _ => ⟨?_, fun _ => ?_⟩)
      (fun _ _ _ => .head _) fun c => addBuffer_works.imp (fun _ h => ⟨h, .literal _⟩)
        fun _ _ h => h)
    · exact .bare ⟨rfl, rfl, rfl, rfl⟩ (.inr rfl)
    · exact .of_fresh rfl rfl rfl (List.forall_mem_nil _) (List.forall_mem_nil _)
  | invoke target args result =>
    refine (lowerInvoke_works hvalue hw hk).imp (fun _ h => h) fun _ _ h =>
      ⟨h.1, fun lambda hlambda => ?_⟩
    cases target with
    | lambda name => exact h.2 lambda (by cases hlambda; rfl)
    | _ => cases hlambda
  | mapChain =>
    refine (lowerMapChain_works hvalue hw hk).imp (fun _ h => h) fun _ _ h => ⟨h.1, ?_⟩
    rintro _ ⟨⟩
    exact h.2

/-- A node is visited the first time that it is asked for. -/
theorem lowerNode_works (hw : w.Supplied) :
    Works w r n anyhow (lowerNode w.site w.lambdas value w.function id)
      (watch r (lowerNode w.site w.lambdas watched w.function) id) (HasName id) := by
  intro p x p' _ h
  have hname : nameOf? id p = .ok (p.symbols.nameOf? id, p) := rfl
  rw [lowerNode, Step.bind_of_ok hname] at h
  cases hid : p.symbols.nameOf? id with
  | some y =>
    rw [hid] at h hname
    cases h
    refine ⟨.done, hid, fun _ htidy hreported => watch_of_accounted ?_
      ⟨htidy.accounts, hreported, ?_⟩⟩
    · rw [lowerNode, Step.bind_of_ok hname]
      rfl
    · intro hnone
      rw [hid] at hnone
      cases hnone
  | none =>
    rw [hid] at h hname
    obtain ⟨kind, hlookup, h⟩ := Step.lift_bind_eq_ok.1 h
    have hkind := Graph.kind_eq_ok_iff.1 hlookup
    replace h := Step.after_ok rfl h
    -- what was suppressed just now is what the latest report is about
    have hlatest (hwork : w.Work n p p') (hx : Answers w id x p') (hw : w.site.IsFunction)
      (htidy : Tidy p)
        (hreported : p'.diagnostics ⊆ r) : Accounted r id p x p' := by
      have htidy' := hwork.tidy htidy
      refine ⟨htidy'.accounts, hreported,
        fun _ hillegal => (hx.latest hillegal hw).resolve_right ?_⟩
      rintro ⟨a, ha⟩
      exact htidy'.lengths _ ha rfl
    cases kind with
    | operation op =>
      obtain ⟨hwork, ⟨hx, hlisted⟩, hwatched⟩ := lowerOperation_works hvalue hw hkind trivial h
      have hwork : w.Work n p p' := by
        refine .visit hkind hwork
          ⟨.inr ⟨fun _ => NodeKind.noConfusion, hid⟩, ?_, hlisted, fun hsilent ss hss => ?_⟩ .done
        · rintro index type ⟨⟩
          cases h
        · rintro array index layout fields ⟨⟩ hdecoding
          obtain ⟨_, ⟨new, hnew, hsub⟩, vs, hvs, hlast⟩ :=
            lowerLoad_decodes hvalue hkind h hdecoding hsilent
          cases List.append_cancel_right (hnew.symm.trans hss)
          exact ⟨x, ⟨value, _, _, h, hx.name, hss⟩, vs, hvs.mono hsub,
            hlast.imp_right fun h => List.Subset.trans h hsub⟩
      refine ⟨hwork, hx.name, fun hw htidy hreported =>
        watch_of_accounted ?_ (hlatest hwork hx hw htidy hreported)⟩
      rw [lowerNode, Step.bind_of_ok hname]
      exact Step.lift_bind_eq_ok.2 ⟨_, hlookup, hwatched hw ⟨htidy.names, htidy.lengths⟩ hreported⟩
    | unsupported name inputs next =>
      have hfail : Works w r (some id) anyhow
          (do inputs.forM (fun input => discard (value input)); fail id name)
          (do inputs.forM (fun input => discard (watched input)); fail id name) (Answers w id) :=
        (Works.each fun input _ => (hvalue _ input).ignore).next fun _ => fail_works hkind
      obtain ⟨hwork, hx, hwatched⟩ := hfail trivial h
      have hwork : w.Work n p p' :=
        .visit hkind hwork ⟨.inr ⟨nofun, hid⟩, nofun, nofun, fun _ _ _ => nofun⟩ .done
      refine ⟨hwork, hx.name, fun hw htidy hreported =>
        watch_of_accounted ?_ (hlatest hwork hx hw htidy hreported)⟩
      rw [lowerNode, Step.bind_of_ok hname]
      exact Step.lift_bind_eq_ok.2 ⟨_, hlookup, hwatched hw ⟨htidy.names, htidy.lengths⟩ hreported⟩
    | control c => cases h

omit hvalue in
/-- Values are lowered by work, and likewise when they are watched. -/
theorem lowerValue_works (hw : w.Supplied) (r : List Diagnostic) (depth : Nat) :
    WorksValues w r (lowerValue w.site w.lambdas w.function depth)
      (watchedValue r w.site w.lambdas w.function depth) := by
  induction depth with
  | zero => exact fun _ _ => .failure _
  | succ depth ih => exact fun _ _ => lowerNode_works ih hw

end Values

end Lowering

end Kernelwright
