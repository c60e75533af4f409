import Kernelwright.Proofs.Host.Comparison

/-!
# What a call is expected to do

A situation says what is known of a call at some point: its graph, arguments and phis, what its
nodes are expected to be evaluated to until the next back edge, and the arrays there are. Only what
is expected may be remembered. `Yields` takes a call from one situation to the next.
-/

namespace Kernelwright.Host

variable {handle p : Nat} {vs : Array Value} {s : Slot} {merge : NodeId}

/-- What is known of a call. -/
structure Situation where
  graph : Graph
  args : List Slot
  phis : Table
  /-- What nodes are evaluated to. -/
  expected : NodeId → Slot
  /-- The arrays of the call and its callers; others may stand behind them. -/
  arrays : Arena

/-- The machine is in the situation. -/
structure Situation.Holds (σ : Situation) (m : Machine) : Prop where
  graph : m.frame.graph = σ.graph
  args : m.frame.args = σ.args
  phis : m.frame.phis = σ.phis
  kept : m.frame.arrays = []
  memo : ∀ id s, m.frame.memo.get? id = some s → s = σ.expected id
  arena : ∃ extra, m.arena = σ.arrays ++ extra

variable {α β : Type} {σ σ' σ'' : Situation}

/-- From every machine in the situation `σ`, the evaluation gives `a` and ends in `σ'`. -/
def Yields (σ : Situation) (act : Run α) (a : α) (σ' : Situation) : Prop :=
  ∀ m, σ.Holds m → ∃ m', act m = .ok (a, m') ∧ σ'.Holds m'

namespace Yields

variable {a : α} {b : β}

theorem pure (a : α) : Yields σ (Pure.pure a) a σ := fun m hm => ⟨m, rfl, hm⟩

theorem bind {act : Run α} {k : α → Run β} (h : Yields σ act a σ') (hk : Yields σ' (k a) b σ'') :
    Yields σ (act >>= k) b σ'' := by
  intro m hm
  obtain ⟨m₁, hact, hm₁⟩ := h m hm
  obtain ⟨m₂, hb, hm₂⟩ := hk m₁ hm₁
  exact ⟨m₂, Step.bind_eq_ok.2 ⟨a, m₁, hact, hb⟩, hm₂⟩

theorem frame_bind {k : Frame → Run β}
    (h : ∀ f : Frame, f.graph = σ.graph → f.args = σ.args → f.phis = σ.phis → Yields σ (k f) b σ') :
    Yields σ (Run.frame >>= k) b σ' :=
  fun m hm => h m.frame hm.graph hm.args hm.phis m hm

theorem ofOption {o : Option α} {e : HostError} (h : o = some a) :
    Yields σ (Run.ofOption o e) a σ := by
  subst h
  exact fun m hm => ⟨m, rfl, hm⟩

theorem ofGraph {x : Except KernelError α} (h : x = .ok a) : Yields σ (Run.ofGraph x) a σ := by
  subst h
  exact fun m hm => ⟨m, rfl, hm⟩

theorem items (h : σ.arrays[handle]? = some vs) : Yields σ (Run.items handle) vs σ := by
  intro m hm
  refine ⟨m, ?_, hm⟩
  obtain ⟨extra, harena⟩ := hm.arena
  have hlt : handle < σ.arrays.size := (Array.getElem?_eq_some_iff.1 h).1
  rw [Run.items, harena, Array.getElem?_append_left hlt, h]

theorem remember {node : NodeId} (h : s = σ.expected node) :
    Yields σ (Run.remember node s) ⟨⟩ σ := by
  intro m hm
  refine ⟨_, rfl, hm.graph, hm.args, hm.phis, hm.kept, fun other s' hget => ?_, hm.arena⟩
  by_cases ho : other = node
  · subst ho
    rw [Table.get?_insert_self] at hget
    rw [← Option.some.inj hget, h]
  · rw [Table.get?_insert_of_ne ho] at hget
    exact hm.memo other s' hget

theorem assign (phi : NodeId) (s : Slot) :
    Yields σ (Run.assign phi s) ⟨⟩ { σ with phis := σ.phis.insert phi s } := by
  intro m hm
  refine ⟨_, rfl, hm.graph, hm.args, ?_, hm.kept, hm.memo, hm.arena⟩
  show m.frame.phis.insert phi s = _
  rw [hm.phis]

/-- Once everything is forgotten, anything may be expected. -/
theorem forget (expected : NodeId → Slot) :
    Yields σ Run.forget ⟨⟩ { σ with expected := expected } :=
  fun _ hm => ⟨_, rfl, hm.graph, hm.args, hm.phis, hm.kept, nofun, hm.arena⟩

theorem write (h : handle < σ.arrays.size) (index : Nat) (v : Value) :
    Yields σ (Run.write handle index v) ⟨⟩
      { σ with arrays := σ.arrays.modify handle fun vs => vs.setIfInBounds index v } := by
  intro m hm
  obtain ⟨extra, harena⟩ := hm.arena
  refine ⟨_, rfl, hm.graph, hm.args, hm.phis, hm.kept, hm.memo, extra, ?_⟩
  simp only [harena]
  apply Array.ext_getElem?
  intro i
  -- the handle is one of the known arrays, so what stands behind them is not touched
  by_cases hi : i < σ.arrays.size
  · rw [Array.getElem?_modify, Array.getElem?_append_left hi,
      Array.getElem?_append_left (by simpa using hi), Array.getElem?_modify]
  · have hne : ¬ handle = i := by omega
    rw [Array.getElem?_modify, if_neg hne, Array.getElem?_append_right (by omega),
      Array.getElem?_append_right (by simpa using hi), Array.size_modify]

end Yields

/-! ### Nodes -/

/-- With enough fuel, the node is evaluated to what is expected of it. -/
def Reads (lambdas : List Graph) (need depth : Nat) (σ : Situation) (node : NodeId) : Prop :=
  ∀ fuel, need ≤ fuel → Yields σ (eval lambdas fuel depth node) (σ.expected node) σ

namespace Reads

variable {lambdas : List Graph} {need depth fuel : Nat} {node x y : NodeId} {v a b : Value}

/-- What is remembered of a node is as good as evaluating its operation. -/
theorem of_operation {o : Operation} (hk : σ.graph.kind? node = some (.operation o))
    (ha : Semantics.allocates o = false)
    (h : ∀ fuel, need ≤ fuel →
      Yields σ ((Semantics.withFuel lambdas fuel depth).operation node o) (σ.expected node) σ) :
    Reads lambdas (need + 1) depth σ node := by
  intro fuel hfuel m hm
  obtain ⟨fuel, rfl⟩ : ∃ n, fuel = n + 1 := ⟨fuel - 1, by omega⟩
  simp only [eval, Semantics.node]
  rw [show ∀ k : Frame → Run Slot, (Run.frame >>= k) m = k m.frame m from fun _ => rfl]
  simp only [Frame.known?, hm.kept, Table.get?_nil, Option.or_none]
  cases hmemo : m.frame.memo.get? node with
  | some s =>
    rw [hm.memo node s hmemo]
    exact ⟨m, rfl, hm⟩
  | none =>
    rw [hm.graph]
    have hkind := Graph.kind_eq_ok_iff.2 hk
    refine Yields.bind (.ofGraph hkind) (.bind (h fuel (by omega)) ?_) m hm
    rw [ha]
    exact .bind (.remember rfl) (.pure _)

theorem value (h : Reads lambdas need depth σ node) (hv : σ.expected node = .value v)
    (hfuel : need ≤ fuel) : Yields σ ((Semantics.withFuel lambdas fuel depth).value node) v σ := by
  have hnode := h fuel hfuel
  rw [hv] at hnode
  exact .bind hnode (.pure v)

theorem array (h : Reads lambdas need depth σ node) (hv : σ.expected node = .array handle)
    (hfuel : need ≤ fuel) :
    Yields σ ((Semantics.withFuel lambdas fuel depth).array node) handle σ := by
  have hnode := h fuel hfuel
  rw [hv] at hnode
  exact .bind hnode (.pure handle)

theorem slots {nodes : List NodeId} (h : ∀ node ∈ nodes, Reads lambdas need depth σ node)
    (hfuel : need ≤ fuel) :
    Yields σ ((Semantics.withFuel lambdas fuel depth).slots nodes) (nodes.map σ.expected) σ := by
  induction nodes with
  | nil => exact .pure []
  | cons node nodes ih =>
    obtain ⟨hnode, hnodes⟩ := List.forall_mem_cons.1 h
    exact .bind (hnode fuel hfuel) (.bind (ih hnodes) (.pure _))

theorem parameter {index : UInt64} {type : ParameterType}
    (hk : σ.graph.kind? node = some (.operation (.parameter index type)))
    (hv : σ.args[index.toNat]? = some (σ.expected node)) :
    Reads lambdas (need + 1) depth σ node := by
  refine of_operation hk rfl fun fuel _ => ?_
  apply Yields.frame_bind
  intro f _ hargs _
  rw [hargs]
  exact .ofOption hv

theorem phi {values : List NodeId} (hk : σ.graph.kind? node = some (.operation (.phi merge values)))
    (hv : σ.phis.get? node = some (σ.expected node)) : Reads lambdas (need + 1) depth σ node := by
  refine of_operation hk rfl fun fuel _ => ?_
  apply Yields.frame_bind
  intro f _ _ hphis
  rw [hphis]
  exact .ofOption hv

theorem constant (hk : σ.graph.kind? node = some (.operation (.constant v)))
    (hv : σ.expected node = .value v) : Reads lambdas (need + 1) depth σ node := by
  refine of_operation hk rfl fun fuel _ => ?_
  rw [hv]
  exact .pure _

theorem binary {op : BinaryOp} {kind : ScalarKind}
    (hk : σ.graph.kind? node = some (.operation (.binary op x y)))
    (hkind : σ.graph.valueKind node = .scalar kind) (hx : Reads lambdas need depth σ x)
    (hy : Reads lambdas need depth σ y) (ha : σ.expected x = .value a)
    (hb : σ.expected y = .value b)
    (hop : binary op kind a b = .ok v) (hv : σ.expected node = .value v) :
    Reads lambdas (need + 1) depth σ node := by
  refine of_operation hk rfl fun fuel hfuel => ?_
  apply Yields.frame_bind
  intro f hgraph _ _
  rw [hgraph, hkind, hv]
  refine .bind (.ofOption rfl) (.bind (hx.value ha hfuel) (.bind (hy.value hb hfuel) ?_))
  rw [hop]
  exact .pure _

theorem compare {op : CompareOp} (hk : σ.graph.kind? node = some (.operation (.compare op x y)))
    (hx : Reads lambdas need depth σ x) (hy : Reads lambdas need depth σ y)
    (ha : σ.expected x = .value a) (hb : σ.expected y = .value b)
    (hv : σ.expected node = .value (.scalar (.boolean (satisfies op a b)))) :
    Reads lambdas (need + 1) depth σ node := by
  refine of_operation hk rfl fun fuel hfuel => ?_
  rw [hv]
  exact .bind (hx.value ha hfuel) (.bind (hy.value hb hfuel) (.pure _))

theorem arrayLength (hk : σ.graph.kind? node = some (.operation (.arrayLength x)))
    (hx : Reads lambdas need depth σ x) (hhandle : σ.expected x = .array handle)
    (hvs : σ.arrays[handle]? = some vs)
    (hv : σ.expected node = .value (.scalar (.int (Int32.ofNat vs.size)))) :
    Reads lambdas (need + 1) depth σ node := by
  refine of_operation hk rfl fun fuel hfuel => ?_
  rw [hv]
  exact .bind (hx.array hhandle hfuel) (.bind (.items hvs) (.pure _))

theorem loadIndexed (hk : σ.graph.kind? node = some (.operation (.loadIndexed x y)))
    (hx : Reads lambdas need depth σ x) (hy : Reads lambdas need depth σ y)
    (hhandle : σ.expected x = .array handle) (hindex : σ.expected y = .value a)
    (hvs : σ.arrays[handle]? = some vs) (hp : position? a.asInt64 = some p) (hget : vs[p]? = some v)
    (hv : σ.expected node = .value v) : Reads lambdas (need + 1) depth σ node := by
  refine of_operation hk rfl fun fuel hfuel => ?_
  rw [hv]
  have hfind : (position? a.asInt64).bind (vs[·]?) = some v := by rw [hp, Option.bind_some, hget]
  refine .bind (a := v) ?_ (.pure _)
  exact .bind (hx.array hhandle hfuel) (.bind (hy.value hindex hfuel) (.bind (.items hvs)
    (.ofOption hfind)))

/-- A lambda that only adds arrays of its own gives its result, converted to the declared type. -/
theorem invoke {name : String} {args : List NodeId} {result : ElementType}
    {callee : Graph} {r : Value}
    (hk : σ.graph.kind? node = some (.operation (.invoke (.lambda name) args result)))
    (hargs : ∀ arg ∈ args, Reads lambdas need depth σ arg)
    (hcallee : lambda? lambdas name = some callee)
    (hcall : ∀ fuel, need ≤ fuel → ∀ m, ∃ extra,
      run lambdas fuel (depth + 1) callee (args.map σ.expected) m =
        .ok (.value r, ⟨m.frame, m.arena ++ extra⟩))
    (hv : σ.expected node = .value (r.castTo result)) : Reads lambdas (need + 1) depth σ node := by
  refine of_operation hk rfl fun fuel hfuel => ?_
  rw [hv]
  have hrun : Yields σ (run lambdas fuel (depth + 1) callee (args.map σ.expected))
      (.value r) σ := by
    intro m hm
    obtain ⟨extra, hrun⟩ := hcall fuel hfuel m
    obtain ⟨before, harena⟩ := hm.arena
    refine ⟨_, hrun, hm.graph, hm.args, hm.phis, hm.kept, hm.memo, before ++ extra, ?_⟩
    rw [harena, Array.append_assoc]
  exact .bind (.ofOption hcallee) (.bind (slots hargs hfuel) (.bind hrun (.pure _)))

end Reads

/-! ### Control nodes -/

namespace Yields

variable {lambdas : List Graph} {need depth fuel steps : Nat} {g : Graph} {id next : NodeId}
  {back back' : Bool}

variable {sem : Semantics} {c : Control} {value phi : NodeId}

theorem step {n : Next} (hk : g.kind? id = some (.control c))
    (h : Yields σ (sem.control g id back c) n σ') : Yields σ (sem.step g id back) n σ' :=
  .bind (.ofGraph (Graph.kind_eq_ok_iff.2 hk)) h

theorem walk (hk : g.kind? id = some (.control c))
    (h : Yields σ (sem.control g id back c) (.goto next back') σ')
    (hwalk : Yields σ' (sem.walk g steps next back') s σ'') :
    Yields σ (sem.walk g (steps + 1) id back) s σ'' :=
  .bind (.step hk h) hwalk

theorem walk_done (hk : g.kind? id = some (.control c))
    (h : Yields σ (sem.control g id back c) (.done s) σ') :
    Yields σ (sem.walk g (steps + 1) id back) s σ' :=
  .bind (.step hk h) (.pure s)

theorem branch {c t e : NodeId} {b : Bool} (hc : Reads lambdas need depth σ c) (hfuel : need ≤ fuel)
    (hb : σ.expected c = .value (.scalar (.boolean b))) :
    Yields σ ((Semantics.withFuel lambdas fuel depth).control g id back (.branch c t e))
      (.goto (if b then t else e) back) σ := by
  refine .bind (hc.value hb hfuel) ?_
  have : Value.asBool (.scalar (.boolean b)) = b := by cases b <;> rfl
  rw [this]
  exact .pure _

theorem storeIndexed {array index : NodeId} {i v : Value}
    (harray : Reads lambdas need depth σ array)
    (hindex : Reads lambdas need depth σ index) (hvalue : Reads lambdas need depth σ value)
    (hfuel : need ≤ fuel) (hhandle : σ.expected array = .array handle)
    (hi : σ.expected index = .value i) (hv : σ.expected value = .value v)
    (hvs : σ.arrays[handle]? = some vs) (hp : position? i.asInt64 = some p) (hlt : p < vs.size) :
    Yields σ ((Semantics.withFuel lambdas fuel depth).control g id back
        (.storeIndexed array index value next)) (.goto next back)
      { σ with arrays := σ.arrays.modify handle fun vs => vs.setIfInBounds p v } := by
  refine .bind (a := ⟨⟩) ?_ (.pure _)
  refine .bind (harray.array hhandle hfuel) (.bind (hindex.value hi hfuel) ?_)
  refine .bind (hvalue.value hv hfuel) (.bind (.items hvs) ?_)
  simp only [hp, if_pos hlt]
  exact .write (Array.getElem?_eq_some_iff.1 hvs).1 p v

theorem enterLoop {first : NodeId} {rest : List NodeId} {bound : Option NodeId}
    (hphis : g.phisOf id = [phi])
    (hk : g.kind? phi = some (.operation (.phi merge (first :: rest))))
    (hfirst : Reads lambdas need depth σ first) (hfuel : need ≤ fuel) :
    Yields σ ((Semantics.withFuel lambdas fuel depth).control g id false (.loopHead next bound))
      (.goto next false) { σ with phis := σ.phis.insert phi (σ.expected first) } := by
  refine .bind (a := ⟨⟩) ?_ (.pure _)
  rw [hphis]
  refine .bind (.ofGraph (Graph.kind_eq_ok_iff.2 hk)) ?_
  exact .bind (.ofOption rfl) (.bind (hfirst fuel hfuel) (.bind (.assign phi _) (.pure _)))

/-- Going round a loop with a single phi: it takes its next value and everything is forgotten. -/
theorem backEdge {head : NodeId} (hphis : g.phisOf head = [phi])
    (hat : g.phiValueAt phi id = .ok value) (hvalue : Reads lambdas need depth σ value)
    (hfuel : need ≤ fuel) (expected : NodeId → Slot) :
    Yields σ ((Semantics.withFuel lambdas fuel depth).control g id back (.backEdge head))
      (.goto head true)
      { σ with phis := σ.phis.insert phi (σ.expected value), expected := expected } := by
  have hjoin : Yields σ ((Semantics.withFuel lambdas fuel depth).join g head id) ⟨⟩
      { σ with phis := σ.phis.insert phi (σ.expected value) } := by
    refine .bind (a := [(phi, σ.expected value)]) ?_ (.bind (.assign phi _) (.pure _))
    rw [hphis]
    exact .bind (.ofGraph hat) (.bind (hvalue fuel hfuel) (.bind (.pure []) (.pure _)))
  exact .bind hjoin (.bind (.forget expected) (.pure _))

theorem run {g : Graph} {args : List Slot} {arena : Arena} {start : NodeId}
    (expected : NodeId → Slot) (hdepth : depth ≤ maxCallDepth) (hstart : g.start = .ok start)
    (h : Yields ⟨g, args, [], expected, arena⟩
      ((Semantics.withFuel lambdas fuel depth).walk g fuel start false) s σ')
    (f : Frame) :
    ∃ extra, Host.run lambdas (fuel + 1) depth g args ⟨f, arena⟩ =
      .ok (s, ⟨f, σ'.arrays ++ extra⟩) := by
  obtain ⟨m', hwalk, hm'⟩ := h ⟨.enter g args, arena⟩ ⟨rfl, rfl, rfl, rfl, nofun, #[], by simp⟩
  obtain ⟨extra, harena⟩ := hm'.arena
  refine ⟨extra, ?_⟩
  rw [Host.run, if_neg (by omega), hstart, Run.within]
  rw [show (Run.ofGraph (Except.ok start) >>= fun start =>
    (Semantics.withFuel lambdas fuel depth).walk g fuel start false) ⟨.enter g args, arena⟩ =
      .ok (s, m') from hwalk]
  simp only [harena]

end Yields

end Kernelwright.Host
