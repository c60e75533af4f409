import Kernelwright.Lowering.Kernel
import Kernelwright.Proofs.Graph.Kinds
import Kernelwright.Proofs.Lowering.FunctionSignature

/-!
# The parameters of a kernel

The parameters of a kernel are numbered as they are added, so those that are added later never touch
the names of the first one. An array of tuples may be passed by one pointer for each field. Of
several such arrays the last is the one whose elements are put together from fields.
-/

namespace Kernelwright

open Code

/-- Whether the parameter is an array of tuples that is passed field by field, and is not the
output. -/
def Graph.Parameter.isSplit (soa : Bool) (q : Graph.Parameter) : Bool :=
  match q.type with
  | .array element => element.needsStruct && soa && q.index != Skeleton.outputParameter
  | _ => false

/-- The array whose elements are put together from fields. -/
def Graph.splitInput? (g : Graph) (soa : Bool) : Option NodeId :=
  (g.parameters.filter (·.isSplit soa)).getLast?.map (·.node)

/-- The number of pointers that an array is passed by. -/
def ElementType.pointers (element : ElementType) (soa : Bool) : Nat :=
  if element.needsStruct ∧ soa then element.fields.length else 1

namespace Lowering

namespace Signature

variable {s s' s₁ s₂ : Signature}
variable {x : Name} {type : ParameterType} {isOutput : Bool} {field width : Nat} {names : List Name}
variable {ps : List Graph.Parameter} {input id : NodeId}
variable {p : Graph.Parameter} {element : ElementType} {soa : Bool} {fields : List FieldPointer}

/-! ### Adding parameters -/

/-- What adding parameters does: the numbers that are taken are new, and nothing is forgotten. -/
structure Grows (s s' : Signature) : Prop where
  next : s.next ≤ s'.next
  parameters : s.parameters ⊆ s'.parameters
  inputs : s.inputs ⊆ s'.inputs
  outputs : ∀ q ∈ s'.outputs, q ∈ s.outputs ∨ ∃ j, s.next ≤ j ∧ q.name = .parameter j
  scope : ∀ a ∈ s'.scope, a ∈ s.scope ∨
    ∃ j, s.next ≤ j ∧ (a = .name (.parameter j) ∨ a = .withMetadata (.parameter j))
  names : ∀ id x, s'.symbols.Binds id x → s.symbols.Binds id x ∨ ∃ j, s.next ≤ j ∧ x = .parameter j
  meanings : ∀ i, i < s.next → s'.symbols.meaning? (.parameter i) = s.symbols.meaning?
    (.parameter i)

namespace Grows

theorem refl (s : Signature) : Grows s s :=
  ⟨Nat.le_refl _, List.Subset.refl _, List.Subset.refl _, fun _ hq => .inl hq, fun _ ha => .inl ha,
    fun _ _ hx => .inl hx, fun _ _ => rfl⟩

theorem trans (h : Grows s s₁) (h' : Grows s₁ s₂) : Grows s s₂ where
  next := Nat.le_trans h.next h'.next
  parameters := List.Subset.trans h.parameters h'.parameters
  inputs := List.Subset.trans h.inputs h'.inputs
  outputs q hq := by
    obtain hq | ⟨j, hj, hname⟩ := h'.outputs q hq
    · exact h.outputs q hq
    · exact .inr ⟨j, Nat.le_trans h.next hj, hname⟩
  scope a ha := by
    obtain ha | ⟨j, hj, hname⟩ := h'.scope a ha
    · exact h.scope a ha
    · exact .inr ⟨j, Nat.le_trans h.next hj, hname⟩
  names id x hx := by
    obtain hx | ⟨j, hj, hname⟩ := h'.names id x hx
    · exact h.names id x hx
    · exact .inr ⟨j, Nat.le_trans h.next hj, hname⟩
  meanings i hi := (h'.meanings i (Nat.lt_of_lt_of_le hi h.next)).trans (h.meanings i hi)

theorem bind {j : Nat} (h : Grows s s') (hj : s.next ≤ j) (id : NodeId) (k : ValueKind) :
    Grows s (s'.bind (.parameter j) id k) where
  next := h.next
  parameters := h.parameters
  inputs := h.inputs
  outputs := h.outputs
  scope := h.scope
  names other x hx := by
    obtain ⟨-, rfl⟩ | hx := SymbolTable.binds_bind.1 hx
    · exact .inr ⟨j, hj, rfl⟩
    · exact h.names other x hx
  meanings i hi := by
    have hne : Name.parameter i ≠ .parameter j := by
      intro heq
      cases heq
      exact Nat.lt_irrefl _ (Nat.lt_of_lt_of_le hi hj)
    rw [Signature.bind, SymbolTable.meaning?_bind, if_neg hne]
    exact h.meanings i hi

theorem declare (h : s.takeName.2.declare x type = .ok s') : Grows s s' := by
  obtain ⟨c, structs, -, rfl⟩ := declare_eq_ok h
  exact { refl s with next := Nat.le_succ _, parameters := List.subset_append_left .. }

theorem addFlag (s : Signature) (guards : Bool) : Grows s (s.addFlag guards) := by
  cases guards with
  | false => exact .refl s
  | true => exact { refl s with parameters := List.subset_append_left .. }

end Grows

/-! ### Pointers for fields -/

/-- The pointers for fields have one number after the other. -/
structure Numbered (next count : Nat) (fields : List FieldPointer) : Prop where
  names : fields.map FieldPointer.name = (List.range' next count).map .parameter
  fields : fields.map FieldPointer.field = List.range count

theorem Numbered.exists_number {next count : Nat} (h : Numbered next count fields)
    (hx : x ∈ fields.map FieldPointer.name) : ∃ j, next ≤ j ∧ x = .parameter j := by
  obtain ⟨j, hj, rfl⟩ := List.mem_map.1 (h.names ▸ hx)
  exact ⟨j, (List.mem_range'_1.1 hj).1, rfl⟩

def withPointers (s : Signature) (isOutput : Bool) (fields : List FieldPointer) : Signature :=
  { s with
  parameters := s.parameters ++ fields.map fun q => .pointer (.scalar q.kind) q.name
  inputs := s.inputs ++ if isOutput then [] else fields
  outputs := s.outputs ++ if isOutput then fields else []
  next := s.next + fields.length }

theorem addFieldPointers_eq_ok {ts : List ElementType}
    (h : s.addFieldPointers isOutput element field ts = .ok (names, s')) :
    ∃ fields : List FieldPointer, names = fields.map FieldPointer.name ∧
      fields.map FieldPointer.name = (List.range' s.next ts.length).map .parameter ∧
      fields.map FieldPointer.field = List.range' field ts.length ∧
      s' = s.withPointers isOutput fields := by
  induction ts generalizing s s' field names with
  | nil =>
    cases h
    exact ⟨[], rfl, rfl, rfl, by simp [withPointers]⟩
  | cons t ts ih =>
    unfold addFieldPointers at h
    split at h
    · cases h
    · next kind _ =>
      obtain ⟨⟨rest, s₂⟩, hrest, h⟩ := bind_eq_ok.1 h
      change (s.addFieldPointer isOutput kind field).2.addFieldPointers _ _ _ _ = _ at hrest
      obtain ⟨fields, hsame, hnames, hfields, rfl⟩ := ih hrest
      cases h
      have hnext : (s.addFieldPointer isOutput kind field).2.next = s.next + 1 := by
        cases isOutput <;> rfl
      refine ⟨⟨.parameter s.next, field, kind⟩ :: fields, congrArg (_ :: ·) hsame, ?_, ?_, ?_⟩
      · rw [List.map_cons, hnames, hnext, List.length_cons, List.range'_succ]
        rfl
      · rw [List.map_cons, hfields]
        rfl
      · cases isOutput <;> simp [withPointers, addFieldPointer, takeName, push] <;> omega

theorem Grows.withPointers {count : Nat} (h : Numbered s.next count fields) (isOutput : Bool) :
    Grows s (s.withPointers isOutput fields) where
  next := Nat.le_add_right ..
  parameters := List.subset_append_left ..
  inputs := List.subset_append_left ..
  outputs q hq := by
    refine (List.mem_append.1 hq).imp_right fun hq => ?_
    split at hq
    · exact h.exists_number (List.mem_map_of_mem hq)
    · cases hq
  scope _ ha := .inl ha
  names _ _ hx := .inl hx
  meanings _ _ := rfl

/-! ### Single parameters -/

/-- An array that is passed field by field is the output or has metadata, which is named after its
last pointer. -/
theorem addSplit_cases (h : s.addSplit p element = .ok s') : ∃ fields j,
    Numbered s.next element.fields.length fields ∧ s.next ≤ j ∧
    ((p.index = Skeleton.outputParameter ∧ s' = { s.withPointers true fields with
        splitOutput := some p.node }.bind (.parameter j) p.node (.array element)) ∨
      (p.index ≠ Skeleton.outputParameter ∧
        s' = { (s.withPointers false fields).push (.metadata (.parameter j)) with
          dimensions := s.dimensions ++ [Name.parameter j]
          splitInput := some (p.node, Name.parameter j) }.bind (.parameter j) p.node
            (.array element))) := by
  obtain ⟨⟨names, s₁⟩, hpointers, h⟩ := bind_eq_ok.1 h
  obtain ⟨fields, rfl, hnames, hfields, rfl⟩ := addFieldPointers_eq_ok hpointers
  have hnumbered : Numbered s.next element.fields.length fields :=
    ⟨hnames, hfields.trans List.range_eq_range'.symm⟩
  dsimp only at h
  split at h
  · next first last hfirst hlast =>
    by_cases houtput : p.index = Skeleton.outputParameter
    · rw [if_pos (decide_eq_true houtput)] at h
      obtain ⟨j, hj, rfl⟩ := hnumbered.exists_number (List.mem_of_head? hfirst)
      cases h
      exact ⟨fields, j, hnumbered, hj, .inl ⟨houtput, by rw [decide_eq_true houtput]⟩⟩
    · rw [if_neg (by simpa using houtput)] at h
      obtain ⟨j, hj, rfl⟩ := hnumbered.exists_number (List.mem_of_getLast? hlast)
      cases h
      exact ⟨fields, j, hnumbered, hj, .inr ⟨houtput, by rw [decide_eq_false houtput]; rfl⟩⟩
  · cases h

theorem addKernelParameter_cases (h : s.addKernelParameter soa p = .ok s') :
    (∃ element, p.type = .array element ∧ (element.needsStruct = true ∧ soa = true) ∧
      s.addSplit p element = .ok s') ∨
    ((∀ element, p.type = .array element → ¬ (element.needsStruct = true ∧ soa = true)) ∧
      ∃ s₁, s.takeName.2.declare (.parameter s.next) p.type = .ok s₁ ∧
        s' = s₁.bind (.parameter s.next) p.node p.type.valueKind) := by
  have hone (h : (do
      let s₁ ← s.takeName.2.declare (.parameter s.next) p.type
      return s₁.bind (.parameter s.next) p.node p.type.valueKind) = .ok s') :
      ∃ s₁, s.takeName.2.declare (.parameter s.next) p.type = .ok s₁ ∧
        s' = s₁.bind (.parameter s.next) p.node p.type.valueKind := by
    obtain ⟨s₁, hs₁, h⟩ := bind_eq_ok.1 h
    cases h
    exact ⟨s₁, hs₁, rfl⟩
  obtain ⟨node, index, type⟩ := p
  cases type with
  | array element =>
    by_cases hsplit : element.needsStruct = true ∧ soa = true
    · exact .inl ⟨element, rfl, hsplit, by simpa [addKernelParameter, hsplit] using h⟩
    · simp only [addKernelParameter, if_neg hsplit] at h
      exact .inr ⟨fun _ htype => by cases htype; exact hsplit, hone h⟩
  | _ => exact .inr ⟨nofun, hone h⟩

theorem Grows.addKernelParameter (h : s.addKernelParameter soa p = .ok s') : Grows s s' := by
  obtain ⟨element, -, -, h⟩ | ⟨-, s₁, hs₁, rfl⟩ := addKernelParameter_cases h
  · obtain ⟨fields, j, hnumbered, hj, hcases⟩ := addSplit_cases h
    have hpointers := Grows.withPointers hnumbered
    obtain ⟨-, rfl⟩ | ⟨-, rfl⟩ := hcases
    · refine .bind ?_ hj _ _
      exact { hpointers true with }
    · refine .bind ?_ hj _ _
      exact { hpointers false with
        parameters := List.Subset.trans (hpointers false).parameters (List.subset_append_left ..) }
  · exact .bind (declare hs₁) (Nat.le_refl _) _ _

theorem Grows.addScope (h : s.addScope p = .ok s') : Grows s s' := by
  obtain ⟨s₁, hs₁, h⟩ := bind_eq_ok.1 h
  cases h
  have hbefore : Grows s s₁ := declare hs₁
  refine { hbefore with scope := fun a ha => ?_ }
  rcases List.mem_append.1 ha with ha | ha
  · exact hbefore.scope a ha
  · cases List.mem_singleton.1 ha
    refine .inr ⟨s.next, Nat.le_refl _, ?_⟩
    split
    · exact .inr rfl
    · exact .inl rfl

theorem Grows.foldlM {add : Signature → Graph.Parameter → Except KernelError Signature}
    (hadd : ∀ {s s' p}, add s p = .ok s' → Grows s s') (h : ps.foldlM add s = .ok s') :
    Grows s s' := by
  induction ps generalizing s with
  | nil =>
    cases h
    exact .refl _
  | cons p ps ih =>
    obtain ⟨s₁, hs₁, h⟩ := bind_eq_ok.1 h
    exact (hadd hs₁).trans (ih h)

/-! ### The first parameter -/

/-- The first names belong to one array, and nothing else has them. -/
structure Reserves (s : Signature) (input : NodeId) (width : Nat) : Prop where
  next : width ≤ s.next
  pointers : ∀ i, i < width → ∃ c, .pointer c (.parameter i) ∈ s.parameters
  fields : 1 < width → ∀ i, i < width → ∃ q ∈ s.inputs, q.field = i
  outputs : ∀ q ∈ s.outputs, ∃ j, width ≤ j ∧ q.name = .parameter j
  scope : ∀ a ∈ s.scope,
    ∃ j, width ≤ j ∧ (a = .name (.parameter j) ∨ a = .withMetadata (.parameter j))
  names : ∀ id i, i < width → s.symbols.Binds id (.parameter i) → id = input
  kinds : ∀ i, i < width → ∀ m, s.symbols.meaning? (.parameter i) = some m → m.kind.scalar? = none

theorem Reserves.grow (h : s.Reserves input width) (hs : Grows s s') :
    s'.Reserves input width where
  next := Nat.le_trans h.next hs.next
  pointers i hi := by
    obtain ⟨c, hc⟩ := h.pointers i hi
    exact ⟨c, hs.parameters hc⟩
  fields hwidth i hi := by
    obtain ⟨q, hq, hfield⟩ := h.fields hwidth i hi
    exact ⟨q, hs.inputs hq, hfield⟩
  outputs q hq := by
    obtain hq | ⟨j, hj, hname⟩ := hs.outputs q hq
    · exact h.outputs q hq
    · exact ⟨j, Nat.le_trans h.next hj, hname⟩
  scope a ha := by
    obtain ha | ⟨j, hj, hname⟩ := hs.scope a ha
    · exact h.scope a ha
    · exact ⟨j, Nat.le_trans h.next hj, hname⟩
  names id i hi hx := by
    obtain hx | ⟨j, hj, hname⟩ := hs.names id _ hx
    · exact h.names id i hi hx
    · cases hname
      exact (Nat.not_le.2 hi (Nat.le_trans h.next hj)).elim
  kinds i hi := by
    rw [hs.meanings i (Nat.lt_of_lt_of_le hi h.next)]
    exact h.kinds i hi

theorem not_binds_empty (structs : Structs) (id : NodeId) (x : Name) :
    ¬ (empty structs).symbols.Binds id x := by
  rintro ⟨t, ht, hid⟩
  cases List.mem_singleton.1 ht
  cases hid

theorem reserves_bind (structs : Structs) (hsymbols : s.symbols = (empty structs).symbols)
    (hnext : width ≤ s.next)
    (hpointers : ∀ i, i < width → ∃ c, .pointer c (.parameter i) ∈ s.parameters)
    (hfields : 1 < width → ∀ i, i < width → ∃ q ∈ s.inputs, q.field = i) (houtputs : s.outputs = [])
    (hscope : s.scope = []) :
    (s.bind x input (.array element)).Reserves input width where
  next := hnext
  pointers := hpointers
  fields := hfields
  outputs q hq := by cases houtputs ▸ hq
  scope a ha := by cases hscope ▸ ha
  names id i _ hx := by
    obtain ⟨rfl, -⟩ | hx := SymbolTable.binds_bind.1 hx
    · rfl
    · exact (not_binds_empty structs id _ (hsymbols ▸ hx)).elim
  kinds i _ m hm := by
    rw [Signature.bind, SymbolTable.meaning?_bind, hsymbols] at hm
    split at hm
    · cases hm
      rfl
    · cases hm

/-- The first parameter of a kernel, if it is an array other than the output, is passed by the
pointers with the first numbers. -/
theorem reserves_first {structs : Structs}
    (h : (empty structs).addKernelParameter soa
      ⟨input, Skeleton.inputParameter, .array element⟩ = .ok s) :
    s.Reserves input (element.pointers soa) := by
  obtain ⟨_, ⟨⟩, hsplit, h⟩ | ⟨hwhole, s₁, hs₁, rfl⟩ := addKernelParameter_cases h
  · obtain ⟨fields, j, hnumbered, -, ⟨houtput, -⟩ | ⟨-, rfl⟩⟩ := addSplit_cases h
    · cases houtput
    rw [ElementType.pointers, if_pos hsplit]
    refine reserves_bind structs rfl ?_ (fun i hi => ?_) (fun _ i hi => ?_) rfl rfl
    · have hlength := congrArg List.length hnumbered.fields
      rw [List.length_map, List.length_range] at hlength
      exact (hlength.symm.trans (Nat.zero_add _).symm).le
    · have hmem : Name.parameter i ∈ fields.map FieldPointer.name :=
        hnumbered.names ▸ List.mem_map_of_mem
          (List.mem_range'_1.2 ⟨Nat.zero_le i, (Nat.zero_add _).symm ▸ hi⟩)
      obtain ⟨q, hq, hname⟩ := List.mem_map.1 hmem
      exact ⟨_, List.mem_append_left _ (List.mem_map.2 ⟨q, hq, by rw [hname]⟩)⟩
    · exact List.mem_map.1 (hnumbered.fields ▸ List.mem_range.2 hi)
  · obtain ⟨c, _, -, rfl⟩ := declare_eq_ok hs₁
    rw [ElementType.pointers, if_neg (hwhole element rfl)]
    refine reserves_bind structs rfl (Nat.le_refl 1) (fun i hi => ?_)
      (fun hlt => absurd hlt (Nat.lt_irrefl 1)) rfl rfl
    obtain rfl : i = 0 := Nat.lt_one_iff.1 hi
    exact ⟨c, .head _⟩

/-! ### Arrays that are passed field by field -/

theorem addKernelParameter_splitInput (h : s.addKernelParameter soa p = .ok s') :
    s'.splitInput.map Prod.fst = if p.isSplit soa then some p.node else s.splitInput.map
      Prod.fst := by
  obtain ⟨element, htype, hsplit, h⟩ | ⟨hwhole, s₁, hs₁, rfl⟩ := addKernelParameter_cases h
  · obtain ⟨fields, j, -, -, ⟨houtput, rfl⟩ | ⟨houtput, rfl⟩⟩ := addSplit_cases h
    · rw [if_neg (by simp [Graph.Parameter.isSplit, htype, houtput])]
      rfl
    · rw [if_pos (by simp [Graph.Parameter.isSplit, htype, hsplit, houtput])]
      rfl
  · have hnot : p.isSplit soa = false := by
      unfold Graph.Parameter.isSplit
      split
      · next element htype =>
        have hwhole := hwhole element htype
        cases hstruct : element.needsStruct <;> cases soa <;> simp_all
      · rfl
    rw [if_neg (by simp [hnot])]
    obtain ⟨c, _, -, rfl⟩ := declare_eq_ok hs₁
    rfl

theorem addKernelParameter_splitOutput (h : s.addKernelParameter soa p = .ok s') :
    s'.splitOutput = s.splitOutput ∨
      (p.index = Skeleton.outputParameter ∧ s'.splitOutput = some p.node) := by
  obtain ⟨element, htype, hsplit, h⟩ | ⟨hwhole, s₁, hs₁, rfl⟩ := addKernelParameter_cases h
  · obtain ⟨fields, j, -, -, ⟨houtput, rfl⟩ | ⟨-, rfl⟩⟩ := addSplit_cases h
    · exact .inr ⟨houtput, rfl⟩
    · exact .inl rfl
  · obtain ⟨c, _, -, rfl⟩ := declare_eq_ok hs₁
    exact .inl rfl

theorem foldlM_splitInput (h : ps.foldlM (addKernelParameter soa) s = .ok s') :
    s'.splitInput.map Prod.fst =
      ((ps.filter (·.isSplit soa)).getLast?.map (·.node)).or (s.splitInput.map Prod.fst) := by
  induction ps generalizing s with
  | nil =>
    cases h
    rfl
  | cons p ps ih =>
    obtain ⟨s₁, hs₁, h⟩ := bind_eq_ok.1 h
    rw [ih h, addKernelParameter_splitInput hs₁, List.filter_cons]
    cases hsplit : p.isSplit soa with
    | false => rfl
    | true => cases hlast : (ps.filter (·.isSplit soa)).getLast? <;>
        simp [List.getLast?_cons, hlast]

theorem foldlM_splitOutput (h : ps.foldlM (addKernelParameter soa) s = .ok s')
    (hid : s'.splitOutput = some id) :
    s.splitOutput = some id ∨ ∃ q ∈ ps, q.index = Skeleton.outputParameter ∧ q.node = id := by
  induction ps generalizing s with
  | nil =>
    cases h
    exact .inl hid
  | cons p ps ih =>
    obtain ⟨s₁, hs₁, h⟩ := bind_eq_ok.1 h
    obtain hid | ⟨q, hq, hid⟩ := ih h
    · obtain heq | ⟨hindex, hnode⟩ := addKernelParameter_splitOutput hs₁
      · exact .inl (heq ▸ hid)
      · exact .inr ⟨p, .head _, hindex, Option.some.inj (hnode.symm.trans hid)⟩
    · exact .inr ⟨q, .tail _ hq, hid⟩

theorem foldlM_addScope (h : ps.foldlM addScope s = .ok s') :
    ∃ parameters dimensions structs scope next, s' = { s with
      parameters := parameters
      dimensions := s.dimensions ++ dimensions
      structs := structs
      scope := scope
      next := next } := by
  induction ps generalizing s with
  | nil =>
    cases h
    exact ⟨_, [], _, _, _, by rw [List.append_nil]⟩
  | cons p ps ih =>
    obtain ⟨s₂, hs₂, h⟩ := bind_eq_ok.1 h
    obtain ⟨s₁, hs₁, hs₂⟩ := bind_eq_ok.1 hs₂
    obtain ⟨c, _, -, rfl⟩ := declare_eq_ok hs₁
    cases hs₂
    obtain ⟨parameters, dimensions, structs, scope, next, rfl⟩ := ih h
    exact ⟨_, _, _, _, _, by rw [List.append_assoc]⟩

/-! ### Kernels -/

section

variable {skeleton lambda : Graph} {computation : Computation} {structs : Structs} {guards : Bool}

/-- The parameters of a kernel are those of the skeleton, and then those that its lambda takes from
its scope, and the flag. -/
theorem ofKernel_eq_ok (h : ofKernel skeleton lambda computation structs soa guards = .ok s) :
    ∃ s₁ : Signature, skeleton.parameters.foldlM (addKernelParameter soa) (empty structs) = .ok s₁ ∧
      Grows s₁ s ∧ ∃ parameters dimensions structs scope next, s = { s₁ with
        parameters := parameters
        dimensions := s₁.dimensions ++ dimensions
        structs := structs
        scope := scope
        next := next } := by
  obtain ⟨s₁, hs₁, h⟩ := bind_eq_ok.1 h
  obtain ⟨ps, -, h⟩ := bind_eq_ok.1 h
  obtain ⟨s₂, hs₂, h⟩ := bind_eq_ok.1 h
  cases h
  have hscope : Grows s₁ s₂ := .foldlM Grows.addScope hs₂
  refine ⟨s₁, hs₁, hscope.trans (.addFlag s₂ guards), ?_⟩
  obtain ⟨parameters, dimensions, structs, scope, next, rfl⟩ := foldlM_addScope hs₂
  cases guards <;> exact ⟨_, dimensions, _, _, _, rfl⟩

/-- The input of a kernel has the names with the first numbers to itself. -/
theorem ofKernel_reserves {rest : List Graph.Parameter}
    (h : ofKernel skeleton lambda computation structs soa guards = .ok s)
    (hinput : skeleton.parameters = ⟨input, Skeleton.inputParameter, .array element⟩ :: rest) :
    s.Reserves input (element.pointers soa) := by
  obtain ⟨s₁, hs₁, hgrows, -⟩ := ofKernel_eq_ok h
  rw [hinput] at hs₁
  obtain ⟨s₀, hs₀, hs₁⟩ := bind_eq_ok.1 hs₁
  have hrest : Grows s₀ s₁ := .foldlM Grows.addKernelParameter hs₁
  exact (reserves_first hs₀).grow (hrest.trans hgrows)

theorem ofKernel_splitInput (h : ofKernel skeleton lambda computation structs soa guards = .ok s) :
    s.splitInput.map Prod.fst = skeleton.splitInput? soa := by
  obtain ⟨s₁, hs₁, -, _, _, _, _, _, rfl⟩ := ofKernel_eq_ok h
  rw [foldlM_splitInput hs₁]
  exact Option.or_none

theorem ofKernel_splitOutput (h : ofKernel skeleton lambda computation structs soa guards = .ok s)
    (hid : s.splitOutput = some id) :
    ∃ q ∈ skeleton.parameters, q.index = Skeleton.outputParameter ∧ q.node = id := by
  obtain ⟨s₁, hs₁, -, _, _, _, _, _, rfl⟩ := ofKernel_eq_ok h
  exact (foldlM_splitOutput hs₁ hid).resolve_left nofun

end

end Signature

namespace KernelInput

variable {k : KernelInput} {options : Options}

/-- The text of a kernel is that of its body, and its parameters are those of its signature. -/
theorem lower_eq_ok {kernel : Code.Function} {b : Bundle} {extra : ExtraArrays}
    (h : k.lower options = .ok (kernel, b, extra)) :
    ∃ (s : Signature) (p : Progress), Signature.ofKernel k.skeleton k.lambda k.computation
        ((Structs.empty.register k.input).register k.output) options.soa options.guards = .ok s ∧
      lowerBody (s.site k.skeleton (.kernel k.computation k.sequence) options.guards) k.lambdas
        (functionFor k.lambdas [] (lowerBundle k.lambdas options.guards (callDepth k.lambdas)))
        s.dimensions (k.opening options.guards) (.start s.symbols s.structs) = .ok ((), p) ∧
      kernel = ⟨.kernel (Skeleton.kernelName k.skeleton), s.parameters, p.body⟩ ∧
      b = ⟨p.functions, p.structs, p.diagnostics⟩ := by
  obtain ⟨s, hs, h⟩ := bind_eq_ok.1 h
  obtain ⟨⟨⟨⟩, p⟩, hbody, h⟩ := bind_eq_ok.1 h
  cases h
  exact ⟨s, p, hs, hbody, rfl, rfl⟩

end KernelInput

end Lowering

end Kernelwright
