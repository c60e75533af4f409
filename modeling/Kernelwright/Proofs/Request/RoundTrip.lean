import Kernelwright.Proofs.Graph.Json
import Kernelwright.Proofs.Steps
import Kernelwright.Request.Basic

/-!
# Requests read back from JSON

A request without floating-point values reads back from its text, as far as the reader allows
containers to nest, and so keeps its identity.
-/

namespace Kernelwright

open Decode

variable {l : SequenceLayout}

/-! ### Sequence layouts -/

theorem DecodeRule.ofTag?_tag (r : DecodeRule) : ofTag? r.tag = some r := by cases r <;> decide

theorem Computation.ofTag?_tag (c : Computation) : ofTag? c.tag = some c := by cases c <;> decide

def Progression.slots (p : Progression) : List Value := [p.start, p.stride, p.bound]

def SequenceLayout.slots (l : SequenceLayout) : List Value := l.fields.flatMap Progression.slots

theorem Progression.reads {p : Progression} (h : ∀ v ∈ p.slots, v.FloatFree) :
    Reads ofJson p.toJson p := by
  refine reads_record (by simp) (by simp) fun form room hms => ?_
  simp only [List.forall_mem_cons, List.not_mem_nil] at hms
  simp only [slots, List.forall_mem_cons, List.not_mem_nil] at h
  have hstart := p.start.reads h.1 form hms.1
  have hstride := p.stride.reads h.2.1 form hms.2.1
  have hbound := p.bound.reads h.2.2.1 form hms.2.2.1
  simp [Fields.required, List.lookup_cons, hstart, hstride, hbound, DecodeRule.ofTag?_tag]

theorem SequenceLayout.reads (h : ∀ v ∈ l.slots, v.FloatFree) : Reads ofJson l.toJson l := by
  refine reads_record (by simp) (by simp) fun form room hms => ?_
  simp only [List.forall_mem_cons, List.not_mem_nil] at hms
  have hfields : Reads (Decode.list Progression.ofJson) (.array (l.fields.map Progression.toJson))
      l.fields :=
    Decode.reads_list fun p hp => Progression.reads fun v hv => h v (List.mem_flatMap.2 ⟨p, hp, hv⟩)
  simp [Fields.required, hfields form hms.1]

theorem SequenceLayout.legible (h : ∀ v ∈ l.slots, v.toJson.Legible) : l.toJson.Legible := by
  have hfield : ∀ p ∈ l.fields, p.toJson.Legible := by
    intro p hp
    have hslots : ∀ v ∈ p.slots, v.toJson.Legible :=
      fun v hv => h v (List.mem_flatMap.2 ⟨p, hp, hv⟩)
    simp only [Progression.slots, List.forall_mem_cons, List.not_mem_nil] at hslots
    exact .members (by simp [hslots])
  have hfields : (Json.array (l.fields.map Progression.toJson)).Legible := by
    refine .array fun v hv => ?_
    obtain ⟨p, hp, rfl⟩ := List.mem_map.1 hv
    exact hfield p hp
  exact .members (by simp [hfields])

/-! ### Requests -/

namespace Request

variable {ms : List (String × Json)} {name : String} {json : Json} {α : Type} {form : TagFields}
variable {room : Nat} {d : Decode α} {f : α → Json} {a : Option α}

def graphs (r : Request) : List Graph := r.skeleton.toList ++ r.lambda :: r.nested

/-- The values in a request: the constants of its graphs and the slots of its sequence. -/
def values (r : Request) : List Value :=
  r.graphs.flatMap Graph.constants ++ r.sequence.toList.flatMap SequenceLayout.slots

/-- No value in the request has a floating-point leaf. -/
def FloatFree (r : Request) : Prop := ∀ v ∈ r.values, v.FloatFree

instance (r : Request) : Decidable r.FloatFree := inferInstanceAs (Decidable (∀ v ∈ r.values, _))

theorem reads_types (t : TypeInfo) : Reads typesOfJson (typesToJson t) t := by
  refine reads_record (by simp) (by simp) fun form room hms => ?_
  simp only [List.forall_mem_cons, List.not_mem_nil] at hms
  simp [Fields.required, List.lookup_cons, hms, Computation.toJson, Computation.ofJson,
    Computation.ofTag?_tag]

theorem withDefault_option (hlookup : ms.lookup name = a.map f) (hms : ∀ m ∈ ms, m.2.depth ≤ room)
    (h : ∀ x ∈ a, Reads d (f x) x ∧ f x ≠ .null) :
    (Fields.mk form false ms).withDefault name none (.option d) room = some a := by
  cases a with
  | none => simp only [Fields.withDefault, hlookup, Option.map_none]
  | some x =>
    obtain ⟨hreads, hnull⟩ := h x rfl
    simp only [Fields.withDefault, hlookup, Option.map_some]
    exact hreads.option hnull form (hms _ (mem_of_lookup hlookup))

theorem required_reads {a : α} (hlookup : ms.lookup name = some json)
    (hms : ∀ m ∈ ms, m.2.depth ≤ room) (h : Reads d json a) :
    (Fields.mk form false ms).required name d room = some a := by
  simp only [Fields.required, hlookup, Option.bind_some]
  exact h form (hms _ (mem_of_lookup hlookup))

@[simp] theorem lookup_member? (name key : String) (f : α → Json) (a : Option α) :
    (member? name f a).lookup key = if key = name then a.map f else none := by
  cases a with
  | none => simp [member?]
  | some x =>
    by_cases hkey : key = name
    · simp [member?, hkey]
    · simp [member?, List.lookup_cons, hkey, beq_false_of_ne hkey]

/-- The member of the further lambdas, where there are any. -/
def nestedMember (gs : List Graph) : List (String × Json) :=
  if gs.isEmpty then [] else [("nested", .array (gs.map Graph.toJson))]

def written (r : Request) : List (String × Json) :=
  member? "id" Json.text r.id
  ++ member? "skeleton" Graph.toJson r.skeleton
  ++ [("lambda", r.lambda.toJson)]
  ++ nestedMember r.nested
  ++ [("types", typesToJson r.types)]
  ++ member? "sequence" SequenceLayout.toJson r.sequence
  ++ member? "total_size" (fun n => Json.nat n.toNat) r.totalSize

theorem toJson_eq (r : Request) : r.toJson = .members r.written := rfl

theorem names_written (r : Request) : (r.written.map Prod.fst).Sublist
    ["id", "skeleton", "lambda", "nested", "types", "sequence", "total_size"] := by
  have hmember {α : Type} (name : String) (f : α → Json) (a : Option α) :
      ((member? name f a).map Prod.fst).Sublist [name] := by
    cases a <;> simp [member?]
  have hnested : ((nestedMember r.nested).map Prod.fst).Sublist ["nested"] := by
    unfold nestedMember
    split <;> simp
  simp only [written, List.map_append]
  exact ((((((hmember ..).append (hmember ..)).append (.refl ["lambda"])).append hnested).append
    (.refl ["types"])).append (hmember ..)).append (hmember ..)

theorem lookup_nestedMember (gs : List Graph) (key : String) : (nestedMember gs).lookup key
    = if key = "nested" ∧ gs ≠ [] then some (.array (gs.map Graph.toJson)) else none := by
  cases gs with
  | nil => simp [nestedMember]
  | cons g gs =>
    by_cases hkey : key = "nested"
    · simp [nestedMember, hkey]
    · simp [nestedMember, List.lookup_cons, hkey, beq_false_of_ne hkey]

theorem withDefault_nested {gs : List Graph}
    (hlookup : ms.lookup "nested" = if gs ≠ [] then some (.array (gs.map Graph.toJson)) else none)
    (hms : ∀ m ∈ ms, m.2.depth ≤ room) (h : ∀ g ∈ gs, ∀ v ∈ g.constants, v.FloatFree) :
    (Fields.mk form false ms).withDefault "nested" [] (.list Graph.ofJson) room = some gs := by
  cases gs with
  | nil => simp [Fields.withDefault, hlookup]
  | cons g gs =>
    have hreads : Reads (Decode.list Graph.ofJson) _ (g :: gs) :=
      Decode.reads_list fun g hg => Graph.reads (h g hg)
    simp only [Fields.withDefault, hlookup]
    exact hreads form (hms _ (mem_of_lookup hlookup))

theorem lookup_written (r : Request) : r.written.lookup "id" = r.id.map Json.text ∧
    r.written.lookup "skeleton" = r.skeleton.map Graph.toJson ∧
    r.written.lookup "lambda" = some r.lambda.toJson ∧
    (r.written.lookup "nested" =
      if r.nested ≠ [] then some (.array (r.nested.map Graph.toJson)) else none) ∧
    r.written.lookup "types" = some (typesToJson r.types) ∧
    r.written.lookup "sequence" = r.sequence.map SequenceLayout.toJson ∧
    r.written.lookup "total_size" = r.totalSize.map fun n => Json.nat n.toNat := by
  simp [written, List.lookup_append, lookup_nestedMember, List.lookup_cons]

theorem reads {r : Request} (h : r.FloatFree) : Reads ofJson r.toJson r := by
  have hgraph : ∀ g ∈ r.graphs, ∀ v ∈ g.constants, v.FloatFree := fun g hg v hv =>
    h v (List.mem_append_left _ (List.mem_flatMap.2 ⟨g, hg, hv⟩))
  have hslots : ∀ l ∈ r.sequence, ∀ v ∈ l.slots, v.FloatFree := fun l hl v hv =>
    h v (List.mem_append_right _ (List.mem_flatMap.2 ⟨l, Option.mem_toList.2 hl, hv⟩))
  obtain ⟨hid, hskeleton, hlambda, hnested, htypes, hsequence, hsize⟩ := r.lookup_written
  rw [toJson_eq]
  refine reads_record (r.names_written.nodup (by decide))
    (fun m hm => r.names_written.subset (List.mem_map.2 ⟨m, hm, rfl⟩)) fun form room hms => ?_
  rw [withDefault_option hid hms fun s _ => ⟨fun _ _ _ => rfl, by simp [Json.text]⟩,
    withDefault_option hskeleton hms fun g hg =>
      ⟨Graph.reads (hgraph g (List.mem_append_left _ (Option.mem_toList.2 hg))), by
        simp [Graph.toJson, Json.members]⟩,
    required_reads hlambda hms (Graph.reads (hgraph _ (by simp [graphs]))),
    withDefault_nested hnested hms fun g hg => hgraph g (by simp [graphs, hg]),
    required_reads htypes hms (reads_types _),
    withDefault_option hsequence hms fun l hl =>
      ⟨SequenceLayout.reads (hslots l hl), by simp [SequenceLayout.toJson, Json.members]⟩,
    withDefault_option hsize hms fun n _ =>
      ⟨fun form room _ => uint64_nat n form room, by simp [Json.nat]⟩]
  rfl

theorem legible_member? (h : ∀ x ∈ a, (f x).Legible) (name : String) :
    ∀ m ∈ member? name f a, m.2.Legible := by
  cases a with
  | none => simp [member?]
  | some x => simpa [member?] using h x rfl

theorem legible {r : Request} (h : ∀ v ∈ r.values, v.toJson.Legible) : r.toJson.Legible := by
  have hgraph : ∀ g ∈ r.graphs, g.toJson.Legible := fun g hg => Graph.legible fun v hv =>
    h v (List.mem_append_left _ (List.mem_flatMap.2 ⟨g, hg, hv⟩))
  have hsequence : ∀ l ∈ r.sequence, l.toJson.Legible :=
    fun l hl => SequenceLayout.legible fun v hv =>
    h v (List.mem_append_right _ (List.mem_flatMap.2 ⟨l, Option.mem_toList.2 hl, hv⟩))
  have hnested : ∀ m ∈ nestedMember r.nested, m.2.Legible := by
    unfold nestedMember
    split
    · simp
    · have harray : (Json.array (r.nested.map Graph.toJson)).Legible := by
        refine .array fun v hv => ?_
        obtain ⟨g, hg, rfl⟩ := List.mem_map.1 hv
        exact hgraph g (by simp [graphs, hg])
      simpa using harray
  have htypes : (typesToJson r.types).Legible := .members (by simp [Computation.toJson])
  rw [toJson_eq]
  refine .members ?_
  simp only [written, List.forall_mem_append]
  refine ⟨⟨⟨⟨⟨⟨?_, ?_⟩, ?_⟩, hnested⟩, ?_⟩, ?_⟩, ?_⟩
  · exact legible_member? (fun s _ => .text s) _
  · exact legible_member? (fun g hg => hgraph g (List.mem_append_left _ (Option.mem_toList.2 hg))) _
  · simpa using hgraph r.lambda (by simp [graphs])
  · simpa using htypes
  · exact legible_member? hsequence _
  · exact legible_member? (fun n _ => Json.legible_nat _) _

/-- A request without floating-point values reads back from its text as far as containers may nest,
with the same identity. -/
theorem parse_text_of_floatFree (r : Request) (hfree : r.FloatFree)
    (hdepth : r.toJson.depth ≤ maxNesting) :
    parse? r.text = some r ∧ (parse? r.text).map identity = some r.identity := by
  have hlegible : r.toJson.Legible := legible fun v hv => v.legible fun s hs =>
    Scalar.legible_payload_of_not_floating (hfree v hv s hs)
  have hparse : parse? r.text = some r := by
    rw [parse?, text, hlegible.parse?_pretty]
    exact reads hfree .listed hdepth
  exact ⟨hparse, by rw [hparse]; rfl⟩

/-- A request with an identity, a constant tuple, a further lambda and a sequence. -/
def ramp : Request where
  id := some "ramp \"1\"\n\u0001é"
  skeleton := none
  lambda := .ofKinds "ramp" [.start 4,
    .operation (.parameter 0 (.tuple (.record [.scalar .long, .scalar .boolean]))),
    .operation
      (.constant (.tuple [.scalar (.long (-9223372036854775808)), .scalar (.boolean true)])),
    .operation (.math .fmax [1, 2]), .ret (some 3)]
  nested := [.ofKinds "none" [.start 1, .control .deoptimize,
    .unsupported "odd" [1] none]]
  types := ⟨.record [.scalar .long, .scalar .boolean], .scalar .long, .map⟩
  sequence := some ⟨[⟨.scalar (.byte (-3)), .scalar (.char 200), .scalar (.short (-1)), .modulo⟩]⟩
  totalSize := some 18446744073709551615

theorem parse_text_ramp : ramp.FloatFree ∧ ramp.toJson.depth ≤ maxNesting ∧
    parse? ramp.text = some ramp ∧ (parse? ramp.text).map identity = some ramp.identity := by
  have hfree : ramp.FloatFree := by decide
  have hdepth : ramp.toJson.depth ≤ maxNesting := by decide
  exact ⟨hfree, hdepth, parse_text_of_floatFree ramp hfree hdepth⟩

end Request

end Kernelwright
