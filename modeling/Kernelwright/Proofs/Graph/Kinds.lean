import Kernelwright.Graph.Validate
import Kernelwright.Proofs.Program.Arithmetic
import Kernelwright.Proofs.Steps

/-!
# Kinds in graphs of words

What a valid graph promises about its edges, and what kinds mean in it. A legal kind follows from
the kinds of the operands, although inference forgets on its way down which nodes it has asked.
`OnWords` describes the graphs that compute with integers and truth values only; their nodes have
word kinds.
-/

namespace Kernelwright

variable {a : ScalarKind} {o : Operation}
variable {id phi : NodeId}

/-! ### Rules -/

@[simp] theorem ValueKind.illegal_choice (k : ValueKind) : choice .illegal k = .illegal := by
  unfold choice
  split <;> simp_all

@[simp] theorem ValueKind.choice_illegal (k : ValueKind) : choice k .illegal = .illegal := by
  cases k <;> rfl

section Rules

variable {infer infer' : NodeId → ValueKind}

theorem mathKind_mono {ids : List NodeId} (h : ∀ id, infer id = .illegal ∨ infer id = infer' id)
    (k : ScalarKind) :
    mathKind k (ids.map infer) = .illegal ∨ mathKind k (ids.map infer) = mathKind k
      (ids.map infer') := by
  induction ids generalizing k with
  | nil => exact .inr rfl
  | cons id ids ih =>
    obtain hid | hid := h id
    · simp [hid, mathKind]
    · simp only [List.map_cons, ← hid]
      generalize infer id = i
      cases i with
      | scalar a =>
        cases a with
        | boolean => exact .inl rfl
        | _ => exact ih _
      | _ => exact .inl rfl

/-- Where less can be inferred of the operands, less can be inferred of the node, and nothing
else. -/
theorem NodeKind.valueKind_mono (h : ∀ id, infer id = .illegal ∨ infer id = infer' id)
    (k : NodeKind) :
    k.valueKind infer = .illegal ∨ k.valueKind infer = k.valueKind infer' := by
  cases k with
  | control c => exact .inr rfl
  | unsupported => exact .inr rfl
  | operation o =>
    cases o with
    | parameter | constant | newInstance | newArray | invoke | mapChain => exact .inr rfl
    | unary op x | convert op x | arrayLength x | loadIndexed x | loadField x =>
      obtain hx | hx := h x <;> simp [NodeKind.valueKind, Operation.valueKind, hx]
    | binary op x y | compare op x y | normalizeCompare x y =>
      obtain hx | hx := h x
      · simp [NodeKind.valueKind, Operation.valueKind, hx]
      · obtain hy | hy := h y
        · refine .inl ?_
          simp only [NodeKind.valueKind, Operation.valueKind, hy]
          cases infer x <;> rfl
        · simp [NodeKind.valueKind, Operation.valueKind, hx, hy]
    | conditional c t f =>
      simp only [NodeKind.valueKind, Operation.valueKind]
      obtain ht | ht := h t
      · exact .inl (by rw [ht, ValueKind.illegal_choice])
      · obtain hf | hf := h f
        · exact .inl (by rw [hf, ValueKind.choice_illegal])
        · exact .inr (by rw [ht, hf])
    | relabel op x => exact h x
    | math op args => exact mathKind_mono h .float
    | phi m vs =>
      cases vs with
      | nil => exact .inr rfl
      | cons v vs => exact h v

end Rules

/-! ### Words -/

def ValueKind.isWord : ValueKind → Bool
  | .scalar k => k.isWord
  | _ => false

theorem ValueKind.isWord_iff {κ : ValueKind} :
    κ.isWord = true ↔ ∃ k : ScalarKind, κ = .scalar k ∧ k.isWord = true := by
  cases κ <;> simp [isWord]

/-- Whether a scalar is a truth value, or an integer that is not negative. -/
def Scalar.isPlain : Scalar → Bool
  | .int n => 0 ≤ n.toInt
  | .long n => 0 ≤ n.toInt
  | .boolean _ => true
  | _ => false

/-- Whether a control node goes forward, and gives a value back where it returns. -/
def Control.isForward : Control → Bool
  | .start _ | .region _ | .join _ | .merge _ | .branch .. | .ret (some _) => true
  | _ => false

def Operation.isOnWords : Operation → Bool
  | .parameter _ (.scalar k) => k.isWord
  | .constant (.scalar s) => s.isPlain
  | .convert k _ => k.isWord
  | .unary .. | .binary .. | .compare .. | .normalizeCompare .. | .conditional
    .. | .relabel .. => true
  | .phi .. => true
  | _ => false

def NodeKind.isOnWords : NodeKind → Bool
  | .control c => c.isForward
  | .operation o => o.isOnWords
  | .unsupported .. => false

def NodeKind.choices : NodeKind → List NodeId
  | .operation (.conditional _ t f) => [t, f]
  | .operation (.phi _ values) => values
  | _ => []

theorem UnaryOp.valueKind_word (op : UnaryOp) (ha : a.isWord = true) :
    op.valueKind a = .illegal ∨ (op.valueKind a).isWord = true := by
  cases op <;> cases a <;> cases ha <;> decide

theorem BinaryOp.valueKind_word (op : BinaryOp) {b : ScalarKind} (ha : a.isWord = true)
    (hb : b.isWord = true) : op.valueKind a b = .illegal ∨ (op.valueKind a b).isWord = true := by
  cases op <;> cases a <;> cases ha <;> cases b <;> cases hb <;> decide

theorem ValueKind.choice_word {t f : ValueKind} (ht : t = .illegal ∨ t.isWord = true)
    (hf : f = .illegal ∨ f.isWord = true) : choice t f = .illegal ∨ (choice t f).isWord = true := by
  obtain rfl | ht := ht
  · exact .inl (illegal_choice f)
  · obtain rfl | hf := hf
    · exact .inl (choice_illegal t)
    · obtain ⟨a, rfl, ha⟩ := isWord_iff.1 ht
      obtain ⟨b, rfl, hb⟩ := isWord_iff.1 hf
      cases a <;> cases ha <;> cases b <;> cases hb <;> decide

theorem Operation.valueKind_word (ho : o.isOnWords = true) {infer : NodeId → ValueKind}
    (h : ∀ x ∈ o.inputs, infer x = .illegal ∨ (infer x).isWord = true) :
    o.valueKind infer = .illegal ∨ (o.valueKind infer).isWord = true := by
  cases o with
  | parameter index type =>
    cases type with
    | scalar k => exact .inr ho
    | _ => cases ho
  | constant v =>
    cases v with
    | scalar s =>
      cases s with
      | int | long | boolean => exact .inr rfl
      | _ => cases ho
    | tuple vs => cases ho
  | unary op x =>
    rw [valueKind]
    obtain hx | hx := h x (.head _)
    · exact .inl (by rw [hx])
    · obtain ⟨a, hx, ha⟩ := ValueKind.isWord_iff.1 hx
      rw [hx]
      exact op.valueKind_word ha
  | binary op x y =>
    rw [valueKind]
    obtain hx | hx := h x (.head _)
    · exact .inl (by rw [hx])
    · obtain ⟨a, hx, ha⟩ := ValueKind.isWord_iff.1 hx
      obtain hy | hy := h y (.tail _ (.head _))
      · exact .inl (by rw [hx, hy])
      · obtain ⟨b, hy, hb⟩ := ValueKind.isWord_iff.1 hy
        rw [hx, hy]
        exact op.valueKind_word ha hb
  | compare op x y | normalizeCompare x y =>
    rw [valueKind]
    split
    · exact .inr rfl
    · exact .inl rfl
  | conditional c t f =>
    exact ValueKind.choice_word (h t (by simp [inputs])) (h f (by simp [inputs]))
  | convert k x =>
    rw [valueKind]
    split
    · exact .inr ho
    · exact .inl rfl
  | relabel op x => exact h x (.head _)
  | phi m vs =>
    cases vs with
    | nil => exact .inl rfl
    | cons v vs => exact h v (.head _)
  | _ => cases ho

namespace Graph

variable {g : Graph}
variable {k : NodeKind} {v x m : NodeId} {n : Node} {p : Parameter} {vs fresh : List NodeId}

/-! ### Valid graphs -/

theorem kind?_eq_some_iff : g.kind? id = some k ↔ g.nodes[id.position]? = some ⟨id, k⟩ := by
  unfold kind?
  cases hn : g.nodes[id.position]? with
  | none => simp
  | some n =>
    obtain ⟨i, k'⟩ := n
    by_cases hi : i = id <;> simp [hi]

theorem parameters_of_pairwise {ps : List Parameter} (h : g.nodes.toList.filterMap parameter? = ps)
    (hps : ps.Pairwise fun a b => decide (a.index ≤ b.index) = true) : g.parameters = ps := by
  rw [parameters, h, List.mergeSort_of_pairwise hps]

theorem mem_of_kind? (h : g.kind? id = some k) : ⟨id, k⟩ ∈ g.nodes.toList :=
  Array.mem_toList_iff.2 (Array.mem_of_getElem? (kind?_eq_some_iff.1 h))

theorem kind_eq_ok_iff : g.kind id = .ok k ↔ g.kind? id = some k := by
  unfold kind
  cases g.kind? id <;> simp

theorem phiValueAt_eq_ok {stop : NodeId} (h : g.phiValueAt phi stop = .ok v) :
    ∃ m vs, g.kind? phi = some (.operation (.phi m vs)) ∧ v ∈ vs := by
  obtain ⟨k, hk, h⟩ := bind_eq_ok.1 h
  split at h
  · rename_i m vs
    obtain ⟨_, _, h⟩ := bind_eq_ok.1 h
    refine ⟨m, vs, kind_eq_ok_iff.1 hk, ?_⟩
    cases hv : (g.phiSlot? m stop).bind (vs[·]?) with
    | none => rw [hv] at h; cases h
    | some w =>
      rw [hv] at h
      cases h
      obtain ⟨i, _, hi⟩ := Option.bind_eq_some_iff.1 hv
      exact List.mem_of_getElem? hi
  · cases h

/-- What a valid graph promises. -/
structure Valid (g : Graph) : Prop where
  ids : (g.nodes.toList.map (·.id)).Nodup
  kind : ∀ n ∈ g.nodes.toList, g.kind? n.id = some n.kind
  node : ∀ n ∈ g.nodes.toList, g.checkNode n = .ok ()

theorem position_of_checkOrder (h : g.checkOrder = .ok ()) {i : Nat}
    (hi : g.nodes.toList[i]? = some n) : n.id.position = i := by
  have hpos := forM_eq_ok h _ (List.mk_mem_zipIdx_iff_getElem?.2 hi)
  by_cases hp : n.id.position = i
  · exact hp
  · simp [hp] at hpos

theorem kind?_of_checkOrder (h : g.checkOrder = .ok ()) (hn : n ∈ g.nodes.toList) :
    g.kind? n.id = some n.kind := by
  obtain ⟨i, hi⟩ := List.mem_iff_getElem?.1 hn
  rw [kind?_eq_some_iff, position_of_checkOrder h hi, ← Array.getElem?_toList, hi]

theorem nodup_of_checkOrder (h : g.checkOrder = .ok ()) : (g.nodes.toList.map (·.id)).Nodup := by
  have hpositions : g.nodes.toList.map (·.id.position) = List.range g.nodes.toList.length := by
    refine List.ext_getElem (by simp) fun i hi _ => ?_
    rw [List.getElem_map, List.getElem_range]
    exact position_of_checkOrder h (List.getElem?_eq_getElem _)
  have hrange := List.nodup_range (n := g.nodes.toList.length)
  rw [← hpositions, List.Nodup, List.pairwise_map] at hrange
  rw [List.Nodup, List.pairwise_map]
  exact hrange.imp fun hne heq => hne (congrArg _ heq)

theorem valid_of_validate (h : g.validate = .ok ()) : g.Valid := by
  obtain ⟨_, horder, h⟩ := bind_eq_ok.1 h
  obtain ⟨_, _, h⟩ := bind_eq_ok.1 h
  exact ⟨nodup_of_checkOrder horder, fun n hn => kind?_of_checkOrder horder hn, forM_eq_ok h⟩

theorem checkEdge_eq_ok {sort : NodeKind → Bool} (h : g.checkEdge sort id = .ok ()) :
    ∃ k, g.kind? id = some k ∧ sort k = true := by
  obtain ⟨k, hk, h⟩ := bind_eq_ok.1 h
  refine ⟨k, kind_eq_ok_iff.1 hk, ?_⟩
  cases hs : sort k with
  | false => simp [hs] at h
  | true => rfl

namespace Valid

variable (hg : g.Valid)
include hg

theorem checks (h : g.kind? id = some k) :
    k.inputs.forM (g.checkEdge NodeKind.isValue) = .ok () ∧ g.checkAnchor k = .ok () := by
  obtain ⟨_, hinputs, hrest⟩ := bind_eq_ok.1 (hg.node _ (mem_of_kind? h))
  obtain ⟨_, _, hanchor⟩ := bind_eq_ok.1 hrest
  exact ⟨hinputs, hanchor⟩

theorem input (h : g.kind? id = some k) (hx : x ∈ k.inputs) :
    ∃ k', g.kind? x = some k' ∧ k'.isValue = true :=
  checkEdge_eq_ok (forM_eq_ok (hg.checks h).1 x hx)

theorem mem_phisOf : phi ∈ g.phisOf m ↔ ∃ vs, g.kind? phi = some (.operation (.phi m vs)) := by
  unfold phisOf
  rw [List.mem_map]
  constructor
  · rintro ⟨n, hn, rfl⟩
    obtain ⟨hn, hphi⟩ := List.mem_filter.1 hn
    rw [hg.kind n hn]
    unfold isPhiOf at hphi
    split at hphi
    · rename_i m' vs heq
      rw [heq, of_decide_eq_true hphi]
      exact ⟨vs, rfl⟩
    · cases hphi
  · rintro ⟨vs, hphi⟩
    exact ⟨_, List.mem_filter.2 ⟨mem_of_kind? hphi, decide_eq_true rfl⟩, rfl⟩

theorem mem_parameters :
    p ∈ g.parameters ↔ g.kind? p.node = some (.operation (.parameter p.index p.type)) := by
  unfold parameters
  rw [List.mem_mergeSort, List.mem_filterMap]
  constructor
  · rintro ⟨n, hn, hp⟩
    unfold parameter? at hp
    split at hp
    · rename_i index type hkind
      cases hp
      rw [← hkind, hg.kind n hn]
    · cases hp
  · exact fun hp => ⟨_, mem_of_kind? hp, rfl⟩

theorem nodup_mergePhis : g.mergePhis.Nodup :=
  hg.ids.sublist (List.filter_sublist.map _)

theorem phi_of_mem_mergePhis (h : phi ∈ g.mergePhis) :
    ∃ m vs, g.kind? phi = some (.operation (.phi m vs)) := by
  unfold mergePhis at h
  obtain ⟨n, hn, rfl⟩ := List.mem_map.1 h
  obtain ⟨hn, hphi⟩ := List.mem_filter.1 hn
  rw [hg.kind n hn]
  split at hphi
  · rename_i m vs hkind
    exact ⟨m, vs, by rw [hkind]⟩
  · cases hphi

theorem merge_of_join (h : g.kind? id = some (.control (.join m))) :
    ∃ next, g.kind? m = some (.control (.merge next)) := by
  obtain ⟨k, hk, hs⟩ := checkEdge_eq_ok (hg.checks h).2
  unfold mergeSort at hs
  split at hs
  · exact ⟨_, hk⟩
  · cases hs

theorem anchor_of_phi (h : g.kind? id = some (.operation (.phi m vs))) :
    ∃ k, g.kind? m = some k ∧ (mergeSort k || loopHeadSort k) = true :=
  checkEdge_eq_ok (hg.checks h).2

end Valid

/-! ### Inference -/

theorem valueKindIn_of_mem (hid : id ∈ fresh) (hk : g.kind? id = some k) :
    g.valueKindIn fresh id = k.valueKind (g.valueKindIn (fresh.erase id)) := by
  rw [valueKindIn, dif_pos hid, hk]

theorem valueKindIn_mono {fresh' : List NodeId} (h : fresh.Sublist fresh') (id : NodeId) :
    g.valueKindIn fresh id = .illegal ∨ g.valueKindIn fresh id = g.valueKindIn fresh' id := by
  -- along the list of nodes that may still be asked, which loses one node with each question
  induction hn : fresh.length using Nat.strongRecOn generalizing fresh fresh' id with
  | ind n ih =>
    by_cases hid : id ∈ fresh
    · cases hk : g.kind? id with
      | none => exact .inl (by rw [valueKindIn, dif_pos hid, hk])
      | some k =>
        rw [valueKindIn_of_mem hid hk, valueKindIn_of_mem (h.subset hid) hk]
        refine k.valueKind_mono fun x => ih _ ?_ (h.erase id) x rfl
        have := List.length_pos_of_mem hid
        rw [List.length_erase_of_mem hid]
        omega
    · exact .inl (by rw [valueKindIn, dif_neg hid])

theorem valueKind_eq (hk : g.kind? id = some k) (hlegal : g.valueKind id ≠ .illegal) :
    g.valueKind id = k.valueKind g.valueKind := by
  by_cases hid : id ∈ g.ids
  · have heq : g.valueKind id = k.valueKind (g.valueKindIn (g.ids.erase id)) :=
      valueKindIn_of_mem hid hk
    obtain h | h := k.valueKind_mono (valueKindIn_mono (List.erase_sublist (l := g.ids) (a := id)))
    · exact absurd (heq.trans h) hlegal
    · exact heq.trans h
  · exact absurd (by rw [valueKind, valueKindIn, dif_neg hid]) hlegal

/-! ### Graphs of words -/

/-- A graph that computes with words and never loops. Every node has a kind, values of which one is
passed on or returned have one kind, and the parameters are numbered from zero. -/
structure OnWords (g : Graph) : Prop where
  nodes : ∀ n ∈ g.nodes.toList, n.kind.isOnWords = true
  legal : ∀ n ∈ g.nodes.toList, g.valueKind n.id ≠ .illegal
  choices : ∀ n ∈ g.nodes.toList, ∀ v ∈ n.kind.choices, g.valueKind v = g.valueKind n.id
  returns : ∀ n ∈ g.nodes.toList, ∀ v ∈ returned? n, g.valueKind v = g.returnKind
  parameters : g.parameters.map (·.index.toNat) = List.range g.parameters.length

namespace OnWords

variable {id : NodeId}

variable (h : g.OnWords)
include h

theorem isOnWords (hk : g.kind? id = some k) : k.isOnWords = true :=
  h.nodes _ (mem_of_kind? hk)

theorem valueKind_eq (ho : g.kind? id = some (.operation o)) :
    g.valueKind id = o.valueKind g.valueKind :=
  Graph.valueKind_eq ho (h.legal _ (mem_of_kind? ho))

theorem valueKind_choice (hk : g.kind? id = some k) (hv : v ∈ k.choices) :
    g.valueKind v = g.valueKind id :=
  h.choices _ (mem_of_kind? hk) v hv

theorem valueKind_returned (hk : g.kind? id = some (.control (.ret (some v)))) :
    g.valueKind v = g.returnKind :=
  h.returns _ (mem_of_kind? hk) v rfl

theorem getElem?_parameters (hp : p ∈ g.parameters) : g.parameters[p.index.toNat]? = some p := by
  obtain ⟨i, hi⟩ := List.mem_iff_getElem?.1 hp
  have hindex : some p.index.toNat = (List.range g.parameters.length)[i]? := by
    rw [← h.parameters, List.getElem?_map, hi]
    rfl
  rw [List.getElem?_range (List.getElem?_eq_some_iff.1 hi).1] at hindex
  rw [Option.some.inj hindex, hi]

theorem operation (hk : g.kind? id = some k) (hv : k.isValue = true) : ∃ o, k = .operation o := by
  cases k with
  | control c => cases hv
  | operation o => exact ⟨o, rfl⟩
  | unsupported => cases h.isOnWords hk

theorem input (hg : g.Valid) (hk : g.kind? id = some k) (hx : x ∈ k.inputs) :
    ∃ o, g.kind? x = some (.operation o) := by
  obtain ⟨k', hk', hv⟩ := hg.input hk hx
  obtain ⟨o, rfl⟩ := h.operation hk' hv
  exact ⟨o, hk'⟩

theorem merge_of_phi (hg : g.Valid) (hk : g.kind? id = some (.operation (.phi m vs))) :
    ∃ next, g.kind? m = some (.control (.merge next)) := by
  obtain ⟨k, hm, hsort⟩ := hg.anchor_of_phi hk
  have hforward := h.isOnWords hm
  cases k with
  | control c =>
    cases c with
    | merge next => exact ⟨next, hm⟩
    | loopHead => cases hforward
    | _ => cases hsort
  | _ => cases hsort

theorem valueKindIn_word (hg : g.Valid) (fresh : List NodeId)
    (ho : g.kind? id = some (.operation o)) :
    g.valueKindIn fresh id = .illegal ∨ (g.valueKindIn fresh id).isWord = true := by
  induction hn : fresh.length using Nat.strongRecOn generalizing fresh id o with
  | ind n ih =>
    by_cases hid : id ∈ fresh
    · rw [valueKindIn_of_mem hid ho]
      refine Operation.valueKind_word (h.isOnWords ho) fun x hx => ?_
      obtain ⟨o', ho'⟩ := h.input hg ho hx
      refine ih _ ?_ (fresh.erase id) ho' rfl
      have := List.length_pos_of_mem hid
      rw [List.length_erase_of_mem hid]
      omega
    · exact .inl (by rw [valueKindIn, dif_neg hid])

theorem valueKind_word (hg : g.Valid) (ho : g.kind? id = some (.operation o)) :
    ∃ k, g.valueKind id = .scalar k ∧ k.isWord = true :=
  ValueKind.isWord_iff.1
    ((h.valueKindIn_word hg g.ids ho).resolve_left (h.legal _ (mem_of_kind? ho)))

end OnWords

end Graph

end Kernelwright
