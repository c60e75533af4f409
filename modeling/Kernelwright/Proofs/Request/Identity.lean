import Kernelwright.Proofs.Element.Settle
import Kernelwright.Proofs.Request.RoundTrip

/-!
# What an identity tells apart

The identity of a request that carries none is the digest of its compact JSON form. Two requests
have one compact form exactly if they are equal up to the floating-point numbers in them that are
not finite. So the form of a request with finite numbers determines its kernel.
-/

namespace Kernelwright

open Decode

theorem map_eq_map_iff {α β γ : Type} {f : α → β} {s : α → γ} (h : ∀ a b, f a = f b ↔ s a = s b) :
    (as bs : List α) → (as.map f = bs.map f ↔ as.map s = bs.map s)
  | [], [] => by simp
  | [], b :: bs => by simp
  | a :: as, [] => by simp
  | a :: as, b :: bs => by simp only [List.map_cons, List.cons.injEq, h, map_eq_map_iff h as bs]

/-! ### Graphs -/

def NodeKind.settle : NodeKind → NodeKind
  | .operation (.constant v) => .operation (.constant v.settle)
  | k => k

def Node.settle (n : Node) : Node := ⟨n.id, n.kind.settle⟩

def Graph.settle (g : Graph) : Graph := ⟨g.name, (g.nodes.toList.map Node.settle).toArray⟩

theorem NodeKind.settle_of_constants {k : NodeKind} (h : k.constants = []) : k.settle = k := by
  cases k with
  | operation o =>
    cases o with
    | constant v => cases h
    | _ => rfl
  | _ => rfl

theorem NodeKind.constants_cases (k : NodeKind) :
    k.constants = [] ∨ ∃ v, k = .operation (.constant v) := by
  cases k with
  | operation o =>
    cases o with
    | constant v => exact .inr ⟨v, rfl⟩
    | _ => exact .inl rfl
  | _ => exact .inl rfl

theorem NodeKind.toJson_ne_constant {k : NodeKind} (h : k.constants = []) (v : Value) :
    k.toJson ≠ (NodeKind.operation (.constant v)).toJson := by
  cases k with
  | control c => cases c <;> simp [toJson, Json.tagged, Json.text, Control.name, Operation.name]
  | operation o =>
    cases o with
    | constant w => cases h
    | _ => simp [toJson, Json.tagged, Operation.name]
  | unsupported name inputs next => simp [toJson, Json.tagged, Operation.name]

theorem NodeKind.toJson_eq_iff (k l : NodeKind) : k.toJson = l.toJson ↔ k.settle = l.settle := by
  rcases k.constants_cases with hk | ⟨v, rfl⟩
  · rcases l.constants_cases with hl | ⟨w, rfl⟩
    · rw [settle_of_constants hk, settle_of_constants hl]
      refine ⟨fun h => ?_, congrArg toJson⟩
      have hread := NodeKind.reads (k := k) (by simp [hk]) .named (Nat.le_refl _)
      have hread' := NodeKind.reads (k := l) (by simp [hl]) .named (Nat.le_refl _)
      rw [h, hread'] at hread
      exact (Option.some.inj hread).symm
    · refine iff_of_false (toJson_ne_constant hk w) ?_
      rw [settle_of_constants hk]
      rintro rfl
      cases hk
  · rcases l.constants_cases with hl | ⟨w, rfl⟩
    · refine iff_of_false (toJson_ne_constant hl v).symm ?_
      rw [settle_of_constants hl]
      rintro rfl
      cases hl
    · simp only [toJson, Json.tagged, Operation.payload, settle, Json.object.injEq, List.cons.injEq,
        Prod.mk.injEq, and_true, operation.injEq, Operation.constant.injEq, Operation.name,
        true_and]
      exact v.toJson_eq_iff w

theorem NodeId.toJson_inj {a b : NodeId} : a.toJson = b.toJson ↔ a = b := by
  refine ⟨fun h => ?_, congrArg toJson⟩
  have hread := a.ofJson_toJson .named 0
  rw [h, b.ofJson_toJson] at hread
  exact (Option.some.inj hread).symm

theorem Node.toJson_eq_iff (m n : Node) : m.toJson = n.toJson ↔ m.settle = n.settle := by
  simp [toJson, settle, Json.members, NodeId.toJson_inj, NodeKind.toJson_eq_iff]

theorem Graph.toJson_eq_iff (g h : Graph) : g.toJson = h.toJson ↔ g.settle = h.settle := by
  have hnodes := map_eq_map_iff Node.toJson_eq_iff g.nodes.toList h.nodes.toList
  simp only [toJson, settle, Json.members, Json.text, List.map_cons, List.map_nil,
    Json.object.injEq, List.cons.injEq, Prod.mk.injEq, Json.string.injEq, Option.some.injEq,
    Json.array.injEq, true_and, and_true, Graph.mk.injEq, Array.mk.injEq, hnodes]

/-! ### Sequence layouts -/

def Progression.settle (p : Progression) : Progression :=
  ⟨p.start.settle, p.stride.settle, p.bound.settle, p.rule⟩

def SequenceLayout.settle (l : SequenceLayout) : SequenceLayout := ⟨l.fields.map Progression.settle⟩

theorem Progression.toJson_eq_iff (p q : Progression) :
    p.toJson = q.toJson ↔ p.settle = q.settle := by
  have hrule : p.rule.tag = q.rule.tag ↔ p.rule = q.rule := by
    refine ⟨fun h => ?_, congrArg DecodeRule.tag⟩
    have := congrArg DecodeRule.ofTag? h
    rwa [DecodeRule.ofTag?_tag, DecodeRule.ofTag?_tag, Option.some.injEq] at this
  simp [toJson, settle, Json.members, Json.text, Value.toJson_eq_iff, hrule]

theorem SequenceLayout.toJson_eq_iff (l m : SequenceLayout) :
    l.toJson = m.toJson ↔ l.settle = m.settle := by
  simp [toJson, settle, Json.members, map_eq_map_iff Progression.toJson_eq_iff]

/-! ### Requests -/

namespace Request

def settle (r : Request) : Request :=
  { r with
    skeleton := r.skeleton.map Graph.settle
    lambda := r.lambda.settle
    nested := r.nested.map Graph.settle
    sequence := r.sequence.map SequenceLayout.settle }

/-- Every floating-point number in the request is finite. -/
def Finite (r : Request) : Prop := ∀ v ∈ r.values, ∀ s ∈ v.leaves, s.isFinite = true

instance (r : Request) : Decidable r.Finite :=
  inferInstanceAs (Decidable (∀ v ∈ r.values, ∀ s ∈ v.leaves, _))

theorem option_map_eq_iff {α β γ : Type} {f : α → β} {s : α → γ} (h : ∀ a b, f a = f b ↔ s a = s b)
    (a b : Option α) : a.map f = b.map f ↔ a.map s = b.map s := by
  cases a <;> cases b <;> simp [h]

theorem members_inj {ms ns : List (String × Json)} (h : Json.members ms = Json.members ns) :
    ms = ns := by
  simp only [Json.members, Json.object.injEq] at h
  refine (List.map_inj_right ?_).1 h
  rintro ⟨k, v⟩ ⟨l, w⟩ heq
  cases heq
  rfl

theorem types_inj {t u : TypeInfo} (h : typesToJson t = typesToJson u) : t = u := by
  have hread := reads_types t .named (Nat.le_refl _)
  rw [h, reads_types u .named (Nat.le_refl _)] at hread
  exact (Option.some.inj hread).symm

theorem nat_inj {m n : UInt64} (h : Json.nat m.toNat = Json.nat n.toNat) : m = n := by
  have hread := uint64_nat m .named 0
  rw [h, uint64_nat] at hread
  exact (Option.some.inj hread).symm

theorem member?_congr {α : Type} {f : α → Json} {a b : Option α} (h : a.map f = b.map f)
    (name : String) :
    member? name f a = member? name f b := by
  cases a <;> cases b <;> simp_all [member?]

theorem toJson_eq_iff_parts (r q : Request) : r.toJson = q.toJson ↔
    r.id = q.id ∧ r.skeleton.map Graph.toJson = q.skeleton.map Graph.toJson ∧
      r.lambda.toJson = q.lambda.toJson ∧ r.nested.map Graph.toJson = q.nested.map Graph.toJson ∧
      r.types = q.types ∧
      r.sequence.map SequenceLayout.toJson = q.sequence.map SequenceLayout.toJson ∧
      r.totalSize = q.totalSize := by
  constructor
  · intro h
    rw [toJson_eq, toJson_eq] at h
    have hlookup (key : String) : r.written.lookup key = q.written.lookup key := by
      rw [members_inj h]
    have hid := hlookup "id"
    have hskeleton := hlookup "skeleton"
    have hlambda := hlookup "lambda"
    have hnested := hlookup "nested"
    have htypes := hlookup "types"
    have hsequence := hlookup "sequence"
    have hsize := hlookup "total_size"
    simp only [lookup_written, Option.some.injEq]
      at hid hskeleton hlambda hnested htypes hsequence hsize
    refine ⟨?_, hskeleton, hlambda, ?_, types_inj htypes, hsequence, ?_⟩
    · exact Option.map_injective (fun _ _ heq => by simpa [Json.text] using heq) hid
    · cases hr : r.nested <;> cases hq : q.nested <;> simp_all
    · exact Option.map_injective (fun _ _ heq => nat_inj heq) hsize
  · rintro ⟨hid, hskeleton, hlambda, hnested, htypes, hsequence, hsize⟩
    have hempty : r.nested.isEmpty = q.nested.isEmpty := by
      cases hr : r.nested <;> cases hq : q.nested <;> simp_all
    rw [toJson_eq, toJson_eq, written, written, hid, member?_congr hskeleton, hlambda, nestedMember,
      hempty, hnested, htypes, member?_congr hsequence, hsize, ← nestedMember]

theorem toJson_eq_iff (r q : Request) : r.toJson = q.toJson ↔ r.settle = q.settle := by
  rw [toJson_eq_iff_parts, option_map_eq_iff Graph.toJson_eq_iff, Graph.toJson_eq_iff,
    map_eq_map_iff Graph.toJson_eq_iff, option_map_eq_iff SequenceLayout.toJson_eq_iff]
  simp only [settle, Request.mk.injEq]

theorem legible_toJson (r : Request) : r.toJson.Legible :=
  legible fun v _ => v.legible fun s _ => s.legible_payload

theorem settle_graph {g : Graph} (h : ∀ v ∈ g.constants, ∀ s ∈ v.leaves, s.isFinite = true) :
    g.settle = g := by
  have hkind : ∀ n ∈ g.nodes.toList, n.settle = n := by
    intro n hn
    have hconstants : ∀ v ∈ n.kind.constants, v.settle = v := fun v hv =>
      v.settle_of_isFinite (h v (List.mem_flatMap.2 ⟨n, hn, hv⟩))
    rcases n with ⟨id, k⟩
    rcases k.constants_cases with hk | ⟨v, rfl⟩
    · rw [Node.settle, NodeKind.settle_of_constants hk]
    · rw [Node.settle, NodeKind.settle, hconstants v (by simp [NodeKind.constants])]
  rw [Graph.settle, List.map_congr_left hkind, List.map_id']

theorem Finite.settle {r : Request} (h : r.Finite) : r.settle = r := by
  have hgraph : ∀ g ∈ r.graphs, g.settle = g := fun g hg => settle_graph fun v hv =>
    h v (List.mem_append_left _ (List.mem_flatMap.2 ⟨g, hg, hv⟩))
  have hskeleton : r.skeleton.map Graph.settle = r.skeleton := by
    cases hs : r.skeleton with
    | none => rfl
    | some g => exact congrArg some (hgraph g (by simp [graphs, hs]))
  have hnested : r.nested.map Graph.settle = r.nested :=
    (List.map_congr_left fun g hg => hgraph g (by simp [graphs, hg])).trans (List.map_id' _)
  have hsequence : r.sequence.map SequenceLayout.settle = r.sequence := by
    cases hs : r.sequence with
    | none => rfl
    | some l =>
      have hslots : ∀ p ∈ l.fields, p.settle = p := by
        intro p hp
        have hvalue : ∀ v ∈ p.slots, v.settle = v := fun v hv => v.settle_of_isFinite
          (h v (List.mem_append_right _ (List.mem_flatMap.2
            ⟨l, by simp [hs], List.mem_flatMap.2 ⟨p, hp, hv⟩⟩)))
        simp only [Progression.slots, List.forall_mem_cons, List.not_mem_nil] at hvalue
        rw [Progression.settle, hvalue.1, hvalue.2.1, hvalue.2.2.1]
      have hfields : l.settle = l := by
        rw [SequenceLayout.settle, List.map_congr_left hslots, List.map_id']
      exact congrArg some hfields
  rw [Request.settle, hskeleton, hgraph r.lambda (by simp [graphs]), hnested, hsequence]

/-- A request for the kernel that puts a number into the first element of its output. -/
def putting (x : Ieee.Binary32) : Request where
  id := none
  skeleton := some (.ofKinds "put" [.start 4,
    .operation (.parameter 1 (.array (.scalar .float))), .int 0,
    .operation (.constant (.scalar (.float x))), .control (.storeIndexed 1 2 3 5),
    .ret none])
  lambda := .ofOperations "same" [.parameter 0 (.scalar .float)]
  nested := []
  types := ⟨.scalar .float, .scalar .float, .map⟩
  sequence := none
  totalSize := none

/-- The compact form tells requests apart up to floating-point numbers that are not finite, so that
of finite requests determines the kernel. -/
theorem compact_determines_kernel (r q : Request) :
    (r.toJson.compact = q.toJson.compact ↔ r.settle = q.settle) ∧
    (r.Finite → q.Finite → r.toJson.compact = q.toJson.compact →
      ∀ session, r.generate session = q.generate session) := by
  have hiff : r.toJson.compact = q.toJson.compact ↔ r.settle = q.settle :=
    (r.legible_toJson.compact_inj q.legible_toJson).trans (toJson_eq_iff r q)
  refine ⟨hiff, fun hr hq hcompact session => ?_⟩
  have hsettle := hiff.1 hcompact
  rw [hr.settle, hq.settle] at hsettle
  rw [hsettle]

/-- One and the number next to it have forms of their own, and one has its kernel. -/
theorem compact_determines_one : (putting ⟨0x3f800000⟩).Finite ∧
    (putting ⟨0x3f800000⟩).toJson.compact ≠ (putting ⟨0x3f800001⟩).toJson.compact ∧
    ∀ session,
      (putting ⟨0x3f800000⟩).generate session = (putting ⟨0x3f800000⟩).generate session := by
  have hfinite : (putting ⟨0x3f800000⟩).Finite := by decide
  refine ⟨hfinite, fun heq => ?_, (compact_determines_kernel _ _).2 hfinite hfinite rfl⟩
  have hsettle := (compact_determines_kernel _ _).1.1 heq
  cases hsettle

/-- Requests for the two infinities have one compact form and different kernels. -/
theorem infinities_share_form :
    (putting ⟨0x7f800000⟩).toJson.compact = (putting ⟨0xff800000⟩).toJson.compact ∧
      (putting ⟨0x7f800000⟩).generate (.start .default) ≠
        (putting ⟨0xff800000⟩).generate (.start .default) := by
  refine ⟨congrArg Json.compact ((toJson_eq_iff _ _).2 rfl), fun heq => ?_⟩
  have hplus : ((putting ⟨0x7f800000⟩).generate (.start .default)).toOption.elim 0
      (·.1.source.utf8ByteSize) = 280 := by decide +kernel
  have hminus : ((putting ⟨0xff800000⟩).generate (.start .default)).toOption.elim 0
      (·.1.source.utf8ByteSize) = 283 := by decide +kernel
  rw [heq, hminus] at hplus
  cases hplus

end Request

end Kernelwright
