import Kernelwright.Proofs.Lowering.Calls
import Kernelwright.Proofs.Lowering.KernelSignature

/-!
# Reads of an encoded input

If the input of a kernel is a sequence, its elements are computed and not read. `Graph.Bypasses` are
the nodes of which that does not hold: an element is read only where the input, or a node that
relabels it, is loaded from or mapped over, or where a component of a tuple is read again.
-/

namespace Kernelwright

open Code

def Code.Argument.passed? : Argument → Option Name
  | .name x => some x
  | .withMetadata x => some x
  | _ => none

namespace Graph

variable (g : Graph)

/-- The node is the array, maybe under another label. -/
inductive Relabels (array : NodeId) : NodeId → Prop
  | refl : Relabels array array
  | step {op source id} : g.kind? id = some (.operation (.relabel op source)) →
      Relabels array source → Relabels array id

/-- The nodes at which elements of an encoded input are read from memory. -/
inductive Bypasses (soa : Bool) (input : NodeId) : NodeId → Prop
  /-- Tuples that are not passed field by field are read as a whole. -/
  | whole {id index} : g.kind? id = some (.operation (.loadIndexed input index)) →
      g.splitInput? soa ≠ some input → (g.valueKind id).scalar? = none → Bypasses soa input id
  /-- A label hides that an array is the input. -/
  | relabelled {id array index} : g.kind? id = some (.operation (.loadIndexed array index)) →
      g.Relabels input array → array ≠ input → Bypasses soa input id
  /-- A component is read again, even if the tuple was computed. -/
  | component {id arity part object rest result array index} :
      g.kind? id = some (.operation (.invoke (.tupleField arity part) (object :: rest) result)) →
      g.kind? object = some (.operation (.loadIndexed array index)) →
      g.splitInput? soa = some array → Bypasses soa input id
  /-- A fused map reads the elements that it passes on. -/
  | fused {id lambda array capacity element} :
      g.kind? id = some (.operation (.mapChain lambda array capacity element)) →
      g.Relabels input array → Bypasses soa input id

/-- A lambda is passed the array itself. -/
def HandsOver (array id : NodeId) : Prop :=
  ∃ lambda args result, g.kind? id = some (.operation (.invoke (.lambda lambda) args result)) ∧
    ∃ arg ∈ args, g.Relabels array arg

end Graph

namespace Lowering

variable {id index : NodeId}

/-! ### Who has the pointers -/

/-- The pointers of the input are names of the input alone, and no name of a scalar. -/
structure Hides (w : Bench) (input : NodeId) (width : Nat) (p : Progress) : Prop where
  names : ∀ id i, i < width → p.symbols.Binds id (.parameter i) → w.site.graph.Relabels input id
  kinds : ∀ i, i < width → ∀ m, p.symbols.meaning? (.parameter i) = some m → m.kind.scalar? = none
  buffers : ∀ e ∈ p.buffers, e.2.isMade = true
  elements : ∀ e ∈ p.elements, ∃ array index,
    w.kind? e.1 = some (.operation (.loadIndexed array index)) ∧
    w.site.splitInput.map Prod.fst = some array

section

variable {w : Bench} {n : Option NodeId} {input : NodeId} {width : Nat} {p p' : Progress}

theorem Hides.bind {x : Name} {k : ValueKind} (hp : Hides w input width p)
    (hid : ∀ i, i < width → x = .parameter i → w.site.graph.Relabels input id ∧ k.scalar? = none) :
    Hides w input width { p with symbols := p.symbols.bind x id k } where
  names other i hi hx := by
    obtain ⟨rfl, heq⟩ | hx := SymbolTable.binds_bind.1 hx
    · exact (hid i hi heq.symm).1
    · exact hp.names other i hi hx
  kinds i hi m hm := by
    rw [SymbolTable.meaning?_bind] at hm
    split at hm
    · next hx =>
      cases hm
      exact (hid i hi hx.symm).2
    · exact hp.kinds i hi m hm
  buffers := hp.buffers
  elements := hp.elements

theorem Bench.Effect.hides (h : w.Effect n p p') (hp : Hides w input width p) :
    Hides w input width p' := by
  cases h with
  | note | meet => exact ⟨hp.names, hp.kinds, hp.buffers, hp.elements⟩
  | name k _ hx =>
    refine hp.bind fun i _ heq => ?_
    -- a name that is made, or the length of a buffer, is no parameter
    subst heq
    cases hx with
    | made hx => cases hx
    | length hx => cases hp.buffers _ hx
    | suppressed hx => cases hx
  | @share _ id source x hname _ hshares =>
    refine hp.bind fun i hi heq => ?_
    subst heq
    have hsource := hp.names source i hi (SymbolTable.binds_of_nameOf? hname)
    cases hshares with
    | relabel hkind =>
      refine ⟨.step hkind hsource, ?_⟩
      cases hm : p.symbols.meaning? (.parameter i) with
      | none => rfl
      | some m => exact hp.kinds i hi m hm
    | scalar hkind =>
      obtain ⟨m, hm, hscalar⟩ := Option.map_eq_some_iff.1 hkind
      rw [hname] at hm
      have hnone := hp.kinds i hi m hm
      rw [hscalar] at hnone
      cases hnone
  | buffer _ hlength =>
    refine ⟨hp.names, hp.kinds, List.forall_mem_cons.2 ⟨?_, hp.buffers⟩, hp.elements⟩
    cases hlength <;> rfl
  | element i hkind hsplit =>
    exact ⟨hp.names, hp.kinds, hp.buffers, List.forall_mem_cons.2
      ⟨⟨_, _, hkind, hsplit⟩, hp.elements⟩⟩
  | write | absorb => exact ⟨hp.names, hp.kinds, hp.buffers, hp.elements⟩

theorem hides_invariant : w.Invariant fun _ p => Hides w input width p where
  effect hp h := h.hides hp
  block _ _ hp := ⟨hp.names, hp.kinds, hp.buffers, hp.elements⟩
  enter hp :=
    ⟨fun id i hi hx => hp.names id i hi (SymbolTable.binds_enter.1 hx), hp.kinds, hp.buffers,
    hp.elements⟩
  exit hp hp' htail := by
    rw [SymbolTable.exit_eq htail]
    exact ⟨hp.names, hp.kinds, hp'.buffers, hp'.elements⟩
  visit hp _ _ := hp
  leave _ hp' := hp'

end

/-! ### What is read through them -/

/-- The input of a kernel is encoded. -/
structure Encoded (w : Bench) (soa : Bool) (input : NodeId) (width : Nat)
    (layout : SequenceLayout) :
    Prop where
  sequence : w.site.mode.sequence? = some layout
  isInput : Lowering.isInput w.site.graph input = true
  splitInput : w.site.splitInput.map Prod.fst = w.site.graph.splitInput? soa
  splitOutput : w.site.splitOutput ≠ some input
  outputs : ∀ q ∈ w.site.outputs, ∃ j, width ≤ j ∧ q.name = .parameter j
  scope : ∀ a ∈ w.site.scope,
    ∃ j, width ≤ j ∧ (a = .name (.parameter j) ∨ a = .withMetadata (.parameter j))

section

variable {w : Bench} {soa : Bool} {n : Option NodeId} {input : NodeId} {width : Nat}
variable {layout : SequenceLayout} {p p' : Progress} {s t : Stmt} {i : Nat}
variable {a : Argument} {c : String × List Argument} {ss : List Stmt}

/-- Elements of an encoded input are computed, unless they are tuples that are not passed field by
field. -/
theorem Encoded.whole (h : Encoded w soa input width layout)
    (hdecoding : w.decoding? id input = none) :
    w.site.graph.splitInput? soa ≠ some input ∧ (w.site.graph.valueKind id).scalar? = none := by
  unfold Bench.decoding? at hdecoding
  rw [h.sequence, h.splitInput] at hdecoding
  dsimp only at hdecoding
  split at hdecoding
  · cases hdecoding
  · next hsplit =>
    rw [if_neg h.splitOutput] at hdecoding
    split at hdecoding
    · cases hdecoding
    · next hscalar =>
      refine ⟨hsplit, ?_⟩
      simpa [h.isInput] using hscalar

theorem Encoded.scope_read (h : Encoded w soa input width layout) (ha : a ∈ w.scope) :
    a.read? = none ∧ ∀ i, i < width → a.passed? ≠ some (.parameter i) := by
  unfold Bench.scope at ha
  split at ha
  · obtain ⟨j, hj, hname⟩ := h.scope a ha
    have hpassed : a.passed? = some (.parameter j) := by rcases hname with rfl | rfl <;> rfl
    refine ⟨by rcases hname with rfl | rfl <;> rfl, fun i hi heq => ?_⟩
    cases hpassed.symm.trans heq
    exact Nat.not_le.2 hi hj
  · cases ha

variable (hw : Encoded w soa input width layout) (hi : i < width)
include hw hi

section

variable (hp : Hides w input width p) (ht : p'.block = t :: p.block) (hs : s ∈ t.parts)
include hp ht hs

/-- An element is read through a pointer of the input only where the encoding is bypassed. -/
theorem Bench.Effect.bypasses (h : w.Effect n p p') (hread : .parameter i ∈ s.reads) :
    ∃ id, n = some id ∧ w.site.graph.Bypasses soa input id := by
  cases h.cause ht with
  | bare hlocal =>
    rw [hlocal.parts] at hs
    cases List.mem_singleton.1 hs
    rw [hlocal.reads] at hread
    cases hread
  | @read id place type x hreads =>
    cases List.mem_singleton.1 hs
    refine ⟨id, rfl, ?_⟩
    have hplace : place.array? = some (.parameter i) := Option.mem_toList.1 hread
    cases hreads with
    | @element array index y _ hkind hy hplace' hdecoding hsplit =>
      obtain rfl : y = .parameter i := Option.some.inj (hplace'.symm.trans hplace)
      by_cases hinput : array = input
      · subst hinput
        obtain ⟨hsplit, hscalar⟩ := hw.whole hdecoding
        exact .whole hkind hsplit hscalar
      · exact .relabelled hkind (hp.names array i hi hy) hinput
    | splitInput _ _ hnone => cases hnone.symm.trans hw.sequence
    | splitOutput _ _ hq =>
      obtain ⟨j, hj, hname⟩ := hw.outputs _ hq
      rw [Place.array?, hname] at hplace
      cases hplace
      exact (Nat.not_le.2 hi hj).elim
    | component hkind helement _ _ =>
      obtain ⟨array, index, hload, hsplit⟩ := hp.elements _ helement
      exact .component hkind hload (hw.splitInput.symm.trans hsplit)
  | call type x hkind hnames =>
    cases List.mem_singleton.1 hs
    -- only the places that a fused map passes on are read, and there is none here
    obtain ⟨a, ha, hread⟩ := List.mem_filterMap.1 hread
    obtain ha | ⟨y, -, rfl⟩ | ⟨-, rfl⟩ := mem_arguments ha
    · rw [(hw.scope_read ha).1] at hread
      cases hread
    · cases hread
    · cases hread
  | @fused id _ array _ _ _ y place buffer j length hkind _ _ hy hplace =>
    obtain rfl | hs := List.mem_cons.1 hs
    · cases hread
    · cases List.mem_singleton.1 hs
      obtain ⟨a, ha, hread⟩ := List.mem_filterMap.1 hread
      obtain rfl | ha := List.mem_cons.1 ha
      · obtain rfl : y = .parameter i := Option.some.inj (hplace.symm.trans hread)
        exact ⟨id, rfl, .fused hkind (hp.names array i hi hy)⟩
      · obtain ⟨-, rfl⟩ := eq_deoptFlag_of_mem ha
        cases hread

theorem Bench.Effect.handsOver (h : w.Effect n p p') (hc : s.call? = some c) (ha : a ∈ c.2)
    (hpassed : a.passed? = some (.parameter i)) :
    ∃ id, n = some id ∧ w.site.graph.HandsOver input id := by
  cases h.cause ht with
  | bare hlocal =>
    rw [hlocal.parts] at hs
    cases List.mem_singleton.1 hs
    cases hlocal.call.symm.trans hc
  | read =>
    cases List.mem_singleton.1 hs
    cases hc
  | @call id lambda args result names type x hkind hnames =>
    cases List.mem_singleton.1 hs
    cases hc
    refine ⟨id, rfl, lambda, args, result, hkind, ?_⟩
    obtain ha | ⟨y, hy, rfl⟩ | ⟨-, rfl⟩ := mem_arguments ha
    · exact ((hw.scope_read ha).2 i hi hpassed).elim
    · cases hpassed
      obtain ⟨arg, harg, hbinds⟩ := exists_mem_of_forall₂ hnames hy
      exact ⟨arg, harg, hp.names arg i hi hbinds⟩
    · cases hpassed
  | fused =>
    obtain rfl | hs := List.mem_cons.1 hs
    · cases hc
    · cases List.mem_singleton.1 hs
      cases hc
      obtain rfl | ha := List.mem_cons.1 ha
      · cases hpassed
      · obtain ⟨-, rfl⟩ := eq_deoptFlag_of_mem ha
        cases hpassed

end

/-- What a text reads through a pointer of the input is read at a node that is marked in it. -/
theorem Bench.Shows.bypasses (h : w.Shows (fun _ => Hides w input width) none p ss)
    (hread : .parameter i ∈ Stmt.elementReads ss) :
    ∃ id ∈ Stmt.visited ss, w.site.graph.Bypasses soa input id := by
  obtain ⟨s, hs, hread⟩ := List.mem_flatMap.1 hread
  obtain ⟨-, hnone⟩ | ⟨m, q, q', t, hm, hq, heffect, ht, hst⟩ := h.written s hs
  · cases hnone ▸ hread
  · obtain ⟨id, rfl, hbypasses⟩ := heffect.bypasses hw hi hq ht hst hread
    obtain ⟨other, hother, ⟨⟩⟩ := hm.resolve_left nofun
    exact ⟨id, hother, hbypasses⟩

theorem Bench.Shows.handsOver (h : w.Shows (fun _ => Hides w input width) none p ss)
    (hc : c ∈ Stmt.calls ss) (ha : a ∈ c.2) (hpassed : a.passed? = some (.parameter i)) :
    ∃ id ∈ Stmt.visited ss, w.site.graph.HandsOver input id := by
  obtain ⟨s, hs, hc⟩ := List.mem_filterMap.1 hc
  obtain ⟨hnone, -⟩ | ⟨m, q, q', t, hm, hq, heffect, ht, hst⟩ := h.written s hs
  · cases hnone.symm.trans hc
  · obtain ⟨id, rfl, hhands⟩ := heffect.handsOver hw hi hq ht hst hc ha hpassed
    obtain ⟨other, hother, ⟨⟩⟩ := hm.resolve_left nofun
    exact ⟨id, hother, hhands⟩

end

/-! ### What is computed -/

theorem needsStruct_of_scalar {t : ElementType} (h : (ValueKind.ofType t).scalar?.isSome = true) :
    t.needsStruct = false := by
  match t, h with
  | .scalar _, _ => rfl
  | .record [], _ => rfl
  | .record [_], _ => rfl
  | .record (_ :: _ :: _), h => cases h

theorem one_lt_fields {t : ElementType} (h : t.needsStruct = true) : 1 < t.fields.length := by
  cases t with
  | scalar => cases h
  | record fs => exact of_decide_eq_true h

section

variable {g : Graph} {soa : Bool} {input : NodeId} {element : ElementType}
    {rest : List Graph.Parameter}

/-- An element that is loaded from an array has the kind that the type of the array tells, if it has
any. -/
theorem valueKind_of_load {i : UInt64}
    (hload : g.kind? id = some (.operation (.loadIndexed input index)))
    (hinput : g.kind? input = some (.operation (.parameter i (.array element))))
    (hlegal : g.valueKind id ≠ .illegal) : g.valueKind id = .ofType element := by
  have hid : g.valueKind id = (Operation.loadIndexed input index).valueKind g.valueKind :=
    Graph.valueKind_eq hload hlegal
  have harray : g.valueKind input ≠ .illegal := by
    intro hillegal
    rw [Operation.valueKind, hillegal] at hid
    exact hlegal hid
  rw [hid, Operation.valueKind, Graph.valueKind_eq hinput harray]
  rfl

theorem pointers_of_splitInput (hvalid : g.Valid)
    (hinput : g.parameters = ⟨input, Skeleton.inputParameter, .array element⟩ :: rest)
    (hsplit : g.splitInput? soa = some input) :
    element.pointers soa = element.fields.length ∧ 1 < element.fields.length := by
  obtain ⟨q, hq, rfl⟩ := Option.map_eq_some_iff.1 hsplit
  obtain ⟨hmem, hq⟩ := List.mem_filter.1 (List.mem_of_getLast? hq)
  have hkind := hvalid.mem_parameters.1 (hinput ▸ List.mem_cons_self)
  have htype : q.type = .array element := by
    have hkind' := hvalid.mem_parameters.1 hmem
    injection (Option.some.inj (hkind.symm.trans hkind')) with hoperation
    injection hoperation with _ htype
    exact htype.symm
  have hstruct : element.needsStruct = true ∧ soa = true := by
    simp only [Graph.Parameter.isSplit, htype, Bool.and_eq_true] at hq
    exact hq.1
  exact ⟨if_pos hstruct, one_lt_fields hstruct.1⟩

end

/-! ### Kernels -/

def kernelBench (k : KernelInput) (options : Options) (s : Signature) : Bench where
  site := s.site k.skeleton (.kernel k.computation k.sequence) options.guards
  lambdas := k.lambdas
  callers := []
  lower := lowerBundle k.lambdas options.guards (callDepth k.lambdas)
  walks := true

section

variable {k : KernelInput} {options : Options} {s : Signature} {kernel : Code.Function} {b : Bundle}
variable {extra : ExtraArrays} {layout : SequenceLayout} {input : NodeId} {element : ElementType}
variable {rest : List Graph.Parameter}
variable {structs : Structs}

theorem opening_local (k : KernelInput) (guards : Bool) : ∀ s ∈ k.opening guards, s.Local := by
  intro s hs
  unfold KernelInput.opening at hs
  rcases List.mem_append.1 hs with hs | hs
  all_goals
    split at hs
    · cases List.mem_singleton.1 hs
      exact ⟨⟨rfl, rfl, rfl, rfl⟩, rfl⟩
    · cases hs

variable (hvalid : k.skeleton.Valid)
variable (hinput : k.skeleton.parameters = ⟨input, Skeleton.inputParameter, .array element⟩ :: rest)
include hvalid hinput

theorem encoded_kernel (hsequence : k.sequence = some layout)
    (hs : Signature.ofKernel k.skeleton k.lambda k.computation structs options.soa
      options.guards = .ok s) :
    Encoded (kernelBench k options s) options.soa input (element.pointers options.soa) layout := by
  have hreserves := Signature.ofKernel_reserves hs hinput
  have hkind := hvalid.mem_parameters.1 (hinput ▸ List.mem_cons_self)
  refine ⟨hsequence, ?_, Signature.ofKernel_splitInput hs, fun hsplit => ?_, hreserves.outputs,
    hreserves.scope⟩
  · change isInput k.skeleton input = true
    rw [isInput, hkind]
    rfl
  · obtain ⟨q, hq, hindex, rfl⟩ := Signature.ofKernel_splitOutput hs hsplit
    have hkind' := hvalid.mem_parameters.1 hq
    rw [hindex] at hkind'
    cases hkind.symm.trans hkind'

/-- An element of the input is computed from all fields that it is passed by, or from none. -/
theorem decoding_covers
    (hw : Encoded (kernelBench k options s) options.soa input (element.pointers options.soa) layout)
    (hs : s.Reserves input (element.pointers options.soa))
    (hload : k.skeleton.kind? id = some (.operation (.loadIndexed input index))) :
    (kernelBench k options s).decoding? id input = none ∨
      ∃ fields, (kernelBench k options s).decoding? id input = some (layout, fields) ∧
        ∀ field < element.pointers options.soa, field ∈ fields := by
  have hkind := hvalid.mem_parameters.1 (hinput ▸ List.mem_cons_self)
  unfold Bench.decoding?
  rw [hw.sequence, hw.splitInput]
  dsimp only
  split
  · next hsplit =>
    refine .inr ⟨_, rfl, fun field hfield => ?_⟩
    obtain ⟨hpointers, hmany⟩ := pointers_of_splitInput hvalid hinput hsplit
    obtain ⟨q, hq, rfl⟩ := hs.fields (hpointers ▸ hmany) field hfield
    exact List.mem_map.2 ⟨q, hq, rfl⟩
  · rw [if_neg hw.splitOutput]
    split
    · next hscalar =>
      refine .inr ⟨_, rfl, fun field hfield => ?_⟩
      -- a scalar is passed by one pointer
      have hsome : (k.skeleton.valueKind id).scalar?.isSome = true := hscalar.2
      have hlegal : k.skeleton.valueKind id ≠ .illegal := by
        intro hillegal
        rw [hillegal] at hsome
        cases hsome
      rw [valueKind_of_load hload hkind hlegal] at hsome
      rw [ElementType.pointers, needsStruct_of_scalar hsome] at hfield
      rw [Nat.lt_one_iff.1 hfield]
      exact .head _
    · exact .inl rfl

theorem lower_shows (hsequence : k.sequence = some layout)
    (h : k.lower options = .ok (kernel, b, extra)) :
    ∃ s p, s.Reserves input (element.pointers options.soa) ∧ kernel.parameters = s.parameters ∧
      b.diagnostics = p.diagnostics ∧
      Encoded (kernelBench k options s) options.soa input (element.pointers options.soa) layout ∧
      (kernelBench k options s).Shows
        (fun _ => Hides (kernelBench k options s) input (element.pointers options.soa)) none p
        kernel.body := by
  obtain ⟨s, p, hs, hbody, rfl, rfl⟩ := KernelInput.lower_eq_ok h
  have hsupplied : (kernelBench k options s).Supplied := Bench.supplied_of_lower rfl
  have hkernel (h : (kernelBench k options s).site.IsFunction) : False := by cases h.mode
  obtain ⟨hwork, -⟩ := lowerBody_works hsupplied rfl (fun h => (hkernel h).elim)
    (fun t ht => ⟨opening_local k options.guards t ht, hkernel⟩) [] trivial hbody
  have hreserves := Signature.ofKernel_reserves hs hinput
  obtain ⟨ss, hblock, hshows⟩ := hwork.shows hides_invariant
    ⟨fun id i hi hx => by rw [hreserves.names id i hi hx]; exact .refl,
      hreserves.kinds, nofun, nofun⟩
  obtain rfl : p.body = ss := by simp [Progress.body, hblock, Progress.start]
  exact ⟨s, p, hreserves, rfl, rfl, encoded_kernel hvalid hinput hsequence hs, hshows⟩

end

/-! ### The skeleton of a map -/

section

variable {lambda : String} {input output : ElementType} {soa : Bool}

theorem parameters_map : (Skeleton.map lambda input output).parameters =
    [⟨7, Skeleton.inputParameter, .array input⟩,
      ⟨8, Skeleton.outputParameter, .array output⟩] :=
  Graph.parameters_of_pairwise rfl (List.pairwise_pair.2 rfl)

theorem load_map {array : NodeId}
    (h : (Skeleton.map lambda input output).kind? id = some
      (.operation (.loadIndexed array index))) :
    id = 15 ∧ array = 7 := by
  have hnode : id = .ofPosition 15 ∧ array = 7 ∧ index = 12 := by
    simpa [Skeleton.map, Graph.ofKinds] using Graph.mem_of_kind? h
  exact ⟨hnode.1, hnode.2.1⟩

theorem valueKind_load_map : (Skeleton.map lambda input output).valueKind 15 = .ofType input := by
  with_unfolding_all rfl

theorem splitInput?_map (hstruct : input.needsStruct = true) :
    (Skeleton.map lambda input output).splitInput? true = some 7 := by
  have houtput : Graph.Parameter.isSplit true
      ⟨8, Skeleton.outputParameter, .array output⟩ = false := by
    simp [Graph.Parameter.isSplit]
  have hinput : Graph.Parameter.isSplit true
      ⟨7, Skeleton.inputParameter, .array input⟩ = true := by
    simp [Graph.Parameter.isSplit, hstruct, Skeleton.inputParameter, Skeleton.outputParameter]
  rw [Graph.splitInput?, parameters_map]
  simp [hinput, houtput]

/-- The skeleton of a map never bypasses the encoding of its input, unless that is an array of
tuples that are passed as a whole. -/
theorem not_bypasses_map
    (hinput : (∃ kind, ValueKind.ofType input = .scalar kind) ∨ input.needsStruct = true ∧
      soa = true) (id : NodeId) : ¬ (Skeleton.map lambda input output).Bypasses soa 7 id := by
  intro h
  cases h with
  | whole hload hsplit hscalar =>
    obtain ⟨rfl, -⟩ := load_map hload
    rw [valueKind_load_map] at hscalar
    obtain ⟨kind, hkind⟩ | ⟨hstruct, rfl⟩ := hinput
    · rw [hkind] at hscalar
      cases hscalar
    · exact hsplit (splitInput?_map hstruct)
  | relabelled hload _ hne => exact hne (load_map hload).2
  | component hkind | fused hkind =>
    simpa [Skeleton.map, Graph.ofKinds] using Graph.mem_of_kind? hkind

theorem not_handsOver_map (id : NodeId) :
    ¬ (Skeleton.map lambda input output).HandsOver 7 id := by
  rintro ⟨name, args, result, hkind, arg, harg, hrelabels⟩
  have hnode : id = .ofPosition 16 ∧ name = lambda ∧ args = [15] ∧ result = output := by
    simpa [Skeleton.map, Graph.ofKinds] using Graph.mem_of_kind? hkind
  obtain ⟨-, -, rfl, -⟩ := hnode
  cases List.mem_singleton.1 harg
  cases hrelabels with
  | step hrelabel => cases hrelabel

end

/-! ### Kernels of sequences -/

section

variable {k : KernelInput} {options : Options} {kernel : Code.Function} {b : Bundle}
variable {extra : ExtraArrays} {layout : SequenceLayout} {input : NodeId} {element : ElementType}
variable {rest : List Graph.Parameter}

/-- The elements of an input that is a sequence are read only at nodes that bypass the encoding, and
lambdas get its pointers only at nodes that hand it over. At all other nodes the load gives a name
that the text computes from all fields. The skeleton of a map reads nothing of its input, unless
tuples are passed as a whole. -/
theorem encoded_input_unread (hsequence : k.sequence = some layout)
    (hvalid : k.skeleton.validate = .ok ())
    (hinput : k.skeleton.parameters = ⟨input, Skeleton.inputParameter, .array element⟩ :: rest)
    (h : k.lower options = .ok (kernel, b, extra)) :
    (∀ i < element.pointers options.soa,
      (∃ c, .pointer c (.parameter i) ∈ kernel.parameters) ∧
      (.parameter i ∈ kernel.elementReads →
        ∃ id ∈ kernel.visited, k.skeleton.Bypasses options.soa input id) ∧
      ∀ c ∈ kernel.calls, ∀ a ∈ c.2, a.passed? = some (.parameter i) →
        ∃ id ∈ kernel.visited, k.skeleton.HandsOver input id) ∧
    (b.diagnostics = [] → ∀ id ∈ kernel.visited, ∀ index,
      k.skeleton.kind? id = some (.operation (.loadIndexed input index)) →
      k.skeleton.Bypasses options.soa input id ∨
        ∃ site : Site, site.graph = k.skeleton ∧ ∃ x ss fields, site.Loads id input index x ss ∧
          ss ⊆ Stmt.allParts kernel.body ∧ Composes layout fields x ss ∧
          ∀ field < element.pointers options.soa, field ∈ fields) ∧
    (k.skeleton = Skeleton.map k.lambda.name k.input k.output →
      (∃ kind, ValueKind.ofType k.input = .scalar kind) ∨
        k.input.needsStruct = true ∧ options.soa = true →
      ∀ i < element.pointers options.soa, .parameter i ∉ kernel.elementReads ∧
        ∀ c ∈ kernel.calls, ∀ a ∈ c.2, a.passed? ≠ some (.parameter i)) := by
  have hvalid := Graph.valid_of_validate hvalid
  obtain ⟨s, p, hreserves, hparameters, hdiagnostics, hw, hshows⟩ :=
    lower_shows hvalid hinput hsequence h
  have hreads : ∀ i < element.pointers options.soa, .parameter i ∈ kernel.elementReads →
      ∃ id ∈ kernel.visited, k.skeleton.Bypasses options.soa input id :=
    fun i hi hread => hshows.bypasses hw hi hread
  have hcalls : ∀ i < element.pointers options.soa, ∀ c ∈ kernel.calls, ∀ a ∈ c.2,
      a.passed? = some (.parameter i) → ∃ id ∈ kernel.visited, k.skeleton.HandsOver input id :=
    fun i hi c hc a ha hpassed => hshows.handsOver hw hi hc ha hpassed
  refine ⟨fun i hi => ⟨?_, hreads i hi, hcalls i hi⟩, fun hnone id hid index hload => ?_,
    fun hmap htype i hi => ⟨fun hread => ?_, fun c hc a ha hpassed => ?_⟩⟩
  · rw [hparameters]
    exact hreserves.pointers i hi
  · obtain hdecoding | ⟨fields, hdecoding, hfields⟩ :=
      decoding_covers hvalid hinput hw hreserves hload
    · obtain ⟨hsplit, hscalar⟩ := hw.whole hdecoding
      exact .inl (.whole hload hsplit hscalar)
    · obtain ⟨ss, hss, hperforms⟩ := hshows.performed id hid _ hload (hdiagnostics ▸ hnone)
      obtain ⟨x, hloads, hcomposes⟩ := hperforms input index layout fields rfl hdecoding
      exact .inr ⟨_, rfl, x, ss, fields, hloads, hss, hcomposes, hfields⟩
  all_goals
    rw [hmap, parameters_map] at hinput
    cases hinput
  · obtain ⟨id, -, hbypasses⟩ := hreads i hi hread
    rw [hmap] at hbypasses
    exact not_bypasses_map htype id hbypasses
  · obtain ⟨id, -, hhands⟩ := hcalls i hi c hc a ha hpassed
    rw [hmap] at hhands
    exact not_handsOver_map id hhands

end

/-! ### Pairs of progressions -/

/-- Changes the sign of the first component of a pair. -/
def opposite : Graph := .ofOperations "opposite" [
  .parameter 0 (.tuple (.record [.scalar .int, .scalar .int])),
  .invoke (.tupleField 2 0) [1] (.scalar .int), .unary .neg 2]

/-- The pairs `(i, 5 + 2 * i)`. -/
def lines : SequenceLayout :=
  ⟨[⟨.scalar (.int 0), .scalar (.int 1), .scalar (.int 0), .linear⟩,
    ⟨.scalar (.int 5), .scalar (.int 2), .scalar (.int 0), .linear⟩]⟩

/-- A map over pairs that are a sequence. -/
def opposites : KernelInput where
  skeleton := Skeleton.map "opposite" (.record [.scalar .int, .scalar .int]) (.scalar .int)
  lambda := opposite
  nested := []
  computation := .map
  input := .record [.scalar .int, .scalar .int]
  output := .scalar .int
  sequence := some lines

/-- Pairs that are passed field by field are computed, both components of them. -/
theorem opposites_unread : ∃ kernel b extra,
    opposites.lower Options.default = .ok (kernel, b, extra) ∧ b.diagnostics = [] ∧
    (∀ i < 2, .parameter i ∉ kernel.elementReads) ∧
    (15 : NodeId) ∈ kernel.visited ∧
    ∃ site : Site, ∃ x ss fields, site.Loads 15 7 12 x ss ∧ ss ⊆ Stmt.allParts kernel.body ∧
      Composes lines fields x ss ∧ ∀ field < 2, field ∈ fields := by
  have hrun : ∃ r, opposites.lower Options.default = .ok r ∧ r.2.1.diagnostics = [] ∧
      (15 : NodeId) ∈ r.1.visited := by
    have hparameters : opposites.skeleton.parameters = _ := parameters_map
    simp only [KernelInput.lower, Signature.ofKernel, hparameters]
    decide +kernel
  obtain ⟨⟨kernel, b, extra⟩, hlower, hdiagnostics, hvisited⟩ := hrun
  have htype : (∃ kind, ValueKind.ofType opposites.input = .scalar kind) ∨
      opposites.input.needsStruct = true ∧ Options.default.soa = true := .inr ⟨rfl, rfl⟩
  obtain ⟨-, hdecoded, hunread⟩ := encoded_input_unread rfl rfl parameters_map hlower
  obtain ⟨site, -, hcomputed⟩ :=
    (hdecoded hdiagnostics 15 hvisited 12 rfl).resolve_left (not_bypasses_map htype 15)
  exact ⟨kernel, b, extra, hlower, hdiagnostics, fun i hi => (hunread rfl htype i hi).1, hvisited,
    site, hcomputed⟩

/-- Pairs that are passed as a whole are read from memory. -/
theorem opposites_read_whole : opposites.validate = .ok () ∧ opposites.sequence = some lines ∧
    ∃ r, opposites.lower { Options.default with soa := false } = .ok r ∧
      r.2.1.diagnostics = [] ∧ .parameter 0 ∈ r.1.elementReads ∧
      .pointer (.struct opposites.input) (.parameter 0) ∈ r.1.parameters := by
  have hparameters : opposites.skeleton.parameters = _ := parameters_map
  refine ⟨rfl, rfl, ?_⟩
  simp only [KernelInput.lower, Signature.ofKernel, hparameters]
  decide +kernel

end Lowering

end Kernelwright
