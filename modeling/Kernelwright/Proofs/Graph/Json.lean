import Kernelwright.Graph.Json
import Kernelwright.Proofs.Element.Json

/-!
# Graphs read back from JSON

Every node reads back from its JSON form, a constant if its value does.
-/

namespace Kernelwright

open Decode

variable {form : TagFields} {room : Nat} {c : Control} {k : NodeKind} {g : Graph}

/-! ### Parts of nodes -/

@[simp] theorem NodeId.ofJson_toJson (id : NodeId) (form : TagFields) (room : Nat) :
    ofJson form room id.toJson = some id := by
  rw [ofJson, toJson, position, uint32_nat]
  rfl

@[simp] theorem NodeId.list_ofJson {ids : List NodeId} (h : (listToJson ids).depth ≤ room) :
    Decode.list ofJson form room (listToJson ids) = some ids :=
  Decode.reads_list (fun id _ form room _ => id.ofJson_toJson form room) form h

@[simp] theorem NodeId.option_ofJson (id : Option NodeId) (form : TagFields) (room : Nat) :
    Decode.option ofJson form room (.ofOption toJson id) = some id := by
  cases id with
  | none => rfl
  | some id =>
    have hreads : Reads ofJson id.toJson id := fun form room _ => id.ofJson_toJson form room
    exact hreads.option (by simp [toJson, Json.nat]) form (Nat.zero_le room)

theorem Control.reads_payload (h : c ≠ .deoptimize) :
    Reads (ofPayload? c.name) (.members c.fields) c := by
  intro form room hroom
  -- the reader of a kind differs in the names of its fields only
  have hread {names : List String} {read : Nat → Fields → Option Control}
      (hnodup : (c.fields.map Prod.fst).Nodup) (hnames : ∀ m ∈ c.fields, m.1 ∈ names)
      (h : ∀ form room, read room ⟨form, false, c.fields⟩ = some c) :
      tagFields names read form room (.members c.fields) = some c :=
    reads_tagFields (reads_record hnodup hnames fun form room _ => h form room) form hroom
  cases c with
  | deoptimize => exact absurd rfl h
  | _ =>
    refine hread (by simp [fields]) (by simp [fields]) fun form room => ?_
    simp [fields, Fields.required, Fields.optional, List.lookup_cons]

theorem ParameterType.reads (t : ParameterType) : Reads ofJson t.toJson t := by
  cases t with
  | scalar k => exact reads_tagged fun form room _ => by simp
  | tuple | array => exact reads_tagged fun form room hroom => by simp [hroom]

@[simp] theorem ParameterType.ofJson_toJson {t : ParameterType} (h : t.toJson.depth ≤ room) :
    ofJson form room t.toJson = some t := t.reads form h

theorem CallTarget.reads (t : CallTarget) : Reads ofJson t.toJson t := by
  cases t with
  | tupleField arity component =>
    refine reads_tagged fun form room hroom => ?_
    refine reads_tagFields (reads_record (by simp) (by simp) fun form room _ => ?_) form hroom
    simp [Fields.required, List.lookup_cons]
  | lambda | builtin => exact reads_tagged fun form room _ => rfl

@[simp] theorem CallTarget.ofJson_toJson {t : CallTarget} (h : t.toJson.depth ≤ room) :
    ofJson form room t.toJson = some t := t.reads form h

/-! ### Nodes and graphs -/

def NodeKind.constants : NodeKind → List Value
  | .operation (.constant v) => [v]
  | _ => []

def Graph.constants (g : Graph) : List Value := g.nodes.toList.flatMap (·.kind.constants)

theorem Operation.reads_payload {o : Operation}
    (h : ∀ v ∈ (NodeKind.operation o).constants, v.FloatFree) :
    Reads (ofPayload? o.name) o.payload o := by
  intro form room hroom
  have hread {names : List String} {read : Nat → Fields → Option Operation}
    {ms : List (String × Json)}
      (hroom : (Json.members ms).depth ≤ room)
      (hnodup : (ms.map Prod.fst).Nodup) (hnames : ∀ m ∈ ms, m.1 ∈ names)
      (h : ∀ form room, (∀ m ∈ ms, m.2.depth ≤ room) → read room ⟨form, false, ms⟩ = some o) :
      tagFields names read form room (.members ms) = some o :=
    reads_tagFields (reads_record hnodup hnames h) form hroom
  cases o with
  | constant v =>
    have hv := v.reads (h v (by simp [NodeKind.constants])) form hroom
    show (Value.ofJson form room v.toJson).map _ = _
    rw [hv]
    rfl
  | _ =>
    refine hread hroom (by simp) (by simp) fun form room hms => ?_
    simp only [List.forall_mem_cons, List.not_mem_nil] at hms
    simp [Fields.required, List.lookup_cons, hms, UnaryOp.ofTag?_tag, BinaryOp.ofTag?_tag,
      CompareOp.ofTag?_tag, Relabel.ofTag?_tag, MathOp.ofTag?_tag]

theorem NodeKind.toJson_control (h : c ≠ .deoptimize) :
    (NodeKind.control c).toJson = .tagged c.name (.members c.fields) := by
  cases c with
  | deoptimize => exact absurd rfl h
  | _ => rfl

theorem NodeKind.reads (h : ∀ v ∈ k.constants, v.FloatFree) : Reads ofJson k.toJson k := by
  cases k with
  | control c =>
    by_cases hc : c = .deoptimize
    · subst hc
      intro form room _
      rfl
    · rw [NodeKind.toJson_control hc]
      refine reads_tagged fun form room hroom => ?_
      have hread := Control.reads_payload hc form hroom
      cases c with
      | deoptimize => exact absurd rfl hc
      | _ =>
        simp only [Control.name] at hread ⊢
        simp [hread]
  | operation o =>
    refine reads_tagged fun form room hroom => ?_
    have hread := Operation.reads_payload h form hroom
    have hnone : Control.ofPayload? o.name form room o.payload = none := by cases o <;> rfl
    cases o <;> simp [Operation.name] at hread hnone ⊢ <;> simp [hread, hnone]
  | unsupported name inputs next =>
    refine reads_tagged fun form room hroom => ?_
    refine reads_tagFields (reads_record (by simp) (by simp) fun form room hms => ?_) form hroom
    simp only [List.forall_mem_cons, List.not_mem_nil] at hms
    simp [Fields.required, Fields.optional, List.lookup_cons, hms]

theorem Node.reads {n : Node} (h : ∀ v ∈ n.kind.constants, v.FloatFree) :
    Reads ofJson n.toJson n := by
  refine reads_record (by simp) (by simp) fun form room hms => ?_
  simp only [List.forall_mem_cons, List.not_mem_nil] at hms
  have hkind := NodeKind.reads h form hms.2.1
  simp [Fields.required, List.lookup_cons, hkind]

theorem Graph.reads (h : ∀ v ∈ g.constants, v.FloatFree) : Reads ofJson g.toJson g := by
  refine reads_record (by simp) (by simp) fun form room hms => ?_
  simp only [List.forall_mem_cons, List.not_mem_nil] at hms
  have hnodes : Reads (Decode.list Node.ofJson) (.array (g.nodes.toList.map Node.toJson))
      g.nodes.toList :=
    Decode.reads_list fun n hn => Node.reads fun v hv => h v (List.mem_flatMap.2 ⟨n, hn, hv⟩)
  simp [Fields.required, List.lookup_cons, hnodes form hms.2.1]

/-! ### Legibility -/

@[simp] theorem NodeId.legible (id : NodeId) : id.toJson.Legible := Json.legible_nat _

@[simp] theorem NodeId.legible_list (ids : List NodeId) : (listToJson ids).Legible :=
  .array (by simp)

@[simp] theorem NodeId.legible_option (id : Option NodeId) : (Json.ofOption toJson id).Legible := by
  cases id with
  | none => exact .null
  | some id => exact id.legible

@[simp] theorem ParameterType.legible (t : ParameterType) : t.toJson.Legible := by
  cases t <;> exact Json.Legible.tagged (by simp) _

@[simp] theorem CallTarget.legible (t : CallTarget) : t.toJson.Legible := by
  cases t with
  | tupleField arity component => exact Json.Legible.tagged (.members (by simp)) _
  | lambda name | builtin name => exact Json.Legible.tagged (.text name) _

theorem NodeKind.legible (h : ∀ v ∈ k.constants, v.toJson.Legible) : k.toJson.Legible := by
  cases k with
  | control c =>
    by_cases hc : c = .deoptimize
    · rw [hc]
      exact .text _
    · rw [toJson_control hc]
      exact Json.Legible.tagged (.members (by cases c <;> simp [Control.fields])) _
  | operation o =>
    refine Json.Legible.tagged ?_ _
    cases o with
    | constant v => exact h v (by simp [constants])
    | _ => exact .members (by simp)
  | unsupported name inputs next => exact Json.Legible.tagged (.members (by simp)) _

theorem Graph.legible (h : ∀ v ∈ g.constants, v.toJson.Legible) : g.toJson.Legible := by
  have hnode : ∀ n ∈ g.nodes.toList, n.toJson.Legible := by
    intro n hn
    have hkind := NodeKind.legible fun v hv => h v (List.mem_flatMap.2 ⟨n, hn, hv⟩)
    exact .members (by simp [hkind])
  have hnodes : (Json.array (g.nodes.toList.map Node.toJson)).Legible := by
    refine .array fun v hv => ?_
    obtain ⟨n, hn, rfl⟩ := List.mem_map.1 hv
    exact hnode n hn
  exact .members (by simp [hnodes])

end Kernelwright
