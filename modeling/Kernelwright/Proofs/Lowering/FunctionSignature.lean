import Kernelwright.Lowering.Bundle
import Kernelwright.Proofs.Code.Symbols

/-!
# The signature of a function

Each parameter of a graph becomes a parameter of its function that is named by its index, and an
array becomes another one for its metadata and is to get a dimension. Where guards are written, the
flag comes last. The names of the parameters are all that a function starts with, and no array is
passed field by field.
-/

namespace Kernelwright

open Code

/-- What a parameter of a lambda becomes in the text. -/
inductive Graph.Parameter.Becomes (q : Graph.Parameter) : List Code.Parameter → Prop
  | array (c : CType) : q.type.isArray = true →
      Becomes q [.pointer c (.parameter q.index.toNat), .metadata (.parameter q.index.toNat)]
  | value (c : CType) : q.type.isArray = false → Becomes q [.byValue c (.parameter q.index.toNat)]

namespace Lowering

variable {g : Graph} {s s' : Signature} {structs : Structs} {guards : Bool} {q : Graph.Parameter}
variable {qs : List Graph.Parameter} {id : NodeId} {x : Name}

def bindParameters (t : SymbolTable Name) (ps : List Graph.Parameter) : SymbolTable Name :=
  ps.foldl (fun t p => t.bind (.parameter p.index.toNat) p.node p.type.valueKind) t

def flagParameter (guards : Bool) : List Parameter := if guards then [.deoptFlag] else []

/-- The arrays among parameters, which need a dimension. -/
def dimensionsOf (qs : List Graph.Parameter) : List Name :=
  (qs.filter (·.type.isArray)).map fun q => .parameter q.index.toNat

/-- What a parameter becomes; one that takes a scalar says so. -/
structure Stated (q : Graph.Parameter) (block : List Code.Parameter) : Prop where
  becomes : q.Becomes block
  scalar : ∀ k, q.type = .scalar k → block = [.byValue (.scalar k) (.parameter q.index.toNat)]

/-- What a parameter becomes, where its value or its elements have a type in the text. -/
def statedAs (x : Name) (type : ParameterType) (c : CType) : List Parameter :=
  if type.isArray then [.pointer c x, .metadata x] else [.byValue c x]

theorem declare_eq_ok {type : ParameterType} (h : s.declare x type = .ok s') :
    ∃ c structs, (∀ k, type = .scalar k → c = .scalar k) ∧ s' = { s with
      parameters := s.parameters ++ statedAs x type c
      dimensions := s.dimensions ++ if type.isArray then [x] else []
      structs := structs } := by
  have hneeds (c : CType) : ∃ structs, s.needs c = { s with structs := structs } := by
    cases c <;> exact ⟨_, rfl⟩
  cases type with
  | scalar k =>
    cases h
    exact ⟨.scalar k, s.structs, fun _ hk => by cases hk; rfl, by
      simp [Signature.push, Signature.needs, statedAs, ParameterType.isArray]⟩
  | array | tuple =>
    unfold Signature.declare at h
    dsimp only at h
    split at h
    · cases h
    · next c _ =>
      cases h
      obtain ⟨structs, hstructs⟩ := hneeds c
      exact ⟨c, structs, nofun, by simp [hstructs, Signature.push, statedAs, ParameterType.isArray]⟩

theorem addParameter_eq_ok (h : s.addParameter q = .ok s') :
    ∃ block structs, Stated q block ∧ s' = { s with
      parameters := s.parameters ++ block
      dimensions := s.dimensions ++ dimensionsOf [q]
      symbols := bindParameters s.symbols [q]
      structs := structs } := by
  obtain ⟨s₁, hs₁, h⟩ := bind_eq_ok.1 h
  cases h
  obtain ⟨c, structs, hc, rfl⟩ := declare_eq_ok hs₁
  refine ⟨statedAs _ q.type c, structs, ⟨?_, fun k hk => by rw [hc k hk, hk]; rfl⟩, ?_⟩
  · unfold statedAs
    split
    · exact .array c ‹_›
    · exact .value c (Bool.eq_false_iff.2 ‹_›)
  · cases harray : q.type.isArray <;> simp [Signature.bind, dimensionsOf, harray, bindParameters]

theorem foldlM_addParameter (h : qs.foldlM Signature.addParameter s = .ok s') :
    ∃ blocks structs, List.Forall₂ Stated qs blocks ∧ s' = { s with
      parameters := s.parameters ++ blocks.flatten
      dimensions := s.dimensions ++ dimensionsOf qs
      symbols := bindParameters s.symbols qs
      structs := structs } := by
  induction qs generalizing s with
  | nil =>
    cases h
    exact ⟨[], s'.structs, .nil, by simp [dimensionsOf, bindParameters]⟩
  | cons q qs ih =>
    obtain ⟨s₁, hs₁, h⟩ := bind_eq_ok.1 h
    obtain ⟨block, structs, hblock, rfl⟩ := addParameter_eq_ok hs₁
    obtain ⟨blocks, structs, hblocks, rfl⟩ := ih h
    refine ⟨block :: blocks, structs, .cons hblock hblocks, ?_⟩
    cases harray : q.type.isArray <;> simp [dimensionsOf, bindParameters, harray]

/-- The signature of a function says what the parameters of its graph become, and nothing else. -/
theorem ofFunction_eq_ok (h : Signature.ofFunction g structs guards = .ok s) :
    ∃ blocks structs, List.Forall₂ Stated g.parameters blocks ∧ s = { Signature.empty structs with
      parameters := blocks.flatten ++ flagParameter guards
      dimensions := dimensionsOf g.parameters
      symbols := bindParameters .empty g.parameters } := by
  obtain ⟨s₁, hs₁, h⟩ := bind_eq_ok.1 h
  obtain ⟨blocks, structs, hblocks, rfl⟩ := foldlM_addParameter hs₁
  cases h
  refine ⟨blocks, structs, hblocks, ?_⟩
  cases guards <;> simp [Signature.addFlag, Signature.push, Signature.empty, flagParameter]

theorem binds_bindParameters {t : SymbolTable Name} (h : (bindParameters t qs).Binds id x) :
    t.Binds id x ∨ ∃ q ∈ qs, id = q.node ∧ x = .parameter q.index.toNat := by
  induction qs generalizing t with
  | nil => exact .inl h
  | cons q qs ih =>
    obtain h | ⟨q', hq', h⟩ := ih h
    · exact (SymbolTable.binds_bind.1 h).symm.imp_right fun h => ⟨q, .head _, h⟩
    · exact .inr ⟨q', .tail _ hq', h⟩

variable (h : Signature.ofFunction g structs guards = .ok s)
include h

theorem ofFunction_binds
    (hx : s.symbols.Binds id x) :
    ∃ p ∈ g.parameters, id = p.node ∧ x = .parameter p.index.toNat := by
  obtain ⟨blocks, structs, -, rfl⟩ := ofFunction_eq_ok h
  obtain ⟨t, ht, hid⟩ | hx := binds_bindParameters hx
  · cases List.mem_singleton.1 ht
    cases hid
  · exact hx

theorem ofFunction_isFunction :
    s.splitInput = none ∧ s.splitOutput = none ∧ ∀ x ∈ s.dimensions, x.isLegal = true := by
  obtain ⟨blocks, structs, -, rfl⟩ := ofFunction_eq_ok h
  refine ⟨rfl, rfl, fun x hx => ?_⟩
  obtain ⟨q, -, rfl⟩ := List.mem_map.1 hx
  rfl

/-- The parameters of a function declare what the parameters of its graph are named, and the
flag. -/
theorem ofFunction_declared : ∀ q ∈ s.parameters, ∀ i ∈ q.declares,
      (∃ n, i = .var (.parameter n) ∨ i = .metadata (.parameter n)) ∨ i = .deoptFlag := by
  obtain ⟨blocks, structs, hblocks, rfl⟩ := ofFunction_eq_ok h
  refine List.forall_mem_append.2 ⟨?_, ?_⟩
  · clear h
    generalize g.parameters = qs at hblocks
    induction hblocks with
    | nil => exact List.forall_mem_nil _
    | cons hblock _ ih =>
      refine List.forall_mem_append.2 ⟨?_, ih⟩
      cases hblock.becomes <;> simp [Parameter.declares]
  · cases guards <;> simp [flagParameter, Parameter.declares]

theorem ofFunction_legal : ∀ q ∈ s.parameters, ∀ i ∈ q.declares, i.isLegal = true := by
  intro q hq i hi
  obtain ⟨n, rfl | rfl⟩ | rfl := ofFunction_declared h q hq i hi <;> rfl

end Lowering

end Kernelwright
