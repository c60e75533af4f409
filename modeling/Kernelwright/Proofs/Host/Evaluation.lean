import Kernelwright.Proofs.Host.Denotation

/-!
# Evaluation in graphs of words

Evaluating a node gives what it denotes. The steps of the walk are described here by what they do to
the phis: only the end of a branch assigns any, and it assigns what their values denote.
-/

namespace Kernelwright

namespace Host

variable {g : Graph} {args : List Slot}
variable {m m' : Machine} {sem : Semantics} {c : Control}

/-! ### Memory -/

/-- A frame of a call whose phis have scalars of their kinds, and in which only what nodes denote is
remembered. -/
structure Frame.Remembers (g : Graph) (args : List Slot) (f : Frame) : Prop where
  graph_eq : f.graph = g
  args_eq : f.args = args
  arrays_eq : f.arrays = []
  phisFit : PhisFit g f.phis
  memo : ∀ id slot, f.memo.get? id = some slot → Settles [] 0 (.bare g args f.phis) id slot

theorem Frame.remembers_enter (g : Graph) (args : List Slot) :
    (Frame.enter g args).Remembers g args :=
  ⟨rfl, rfl, rfl, nofun, nofun⟩

/-- A machine after evaluations: its memory is still right, and its phis are those that they
were. -/
structure Machine.Keeps (g : Graph) (args : List Slot) (m m' : Machine) : Prop where
  remembers : m'.frame.Remembers g args
  phis : m'.frame.phis = m.frame.phis

theorem Machine.Keeps.trans {m'' : Machine} (h : m.Keeps g args m') (h' : m'.Keeps g args m'') :
    m.Keeps g args m'' :=
  ⟨h'.remembers, h'.phis.trans h.phis⟩

/-- An evaluation gives what its node denotes. -/
def Evaluates (g : Graph) (args : List Slot) (eval : NodeId → Run Slot) : Prop :=
  ∀ {id m slot m'}, eval id m = .ok (slot, m') → m.frame.Remembers g args →
    ∃ s, slot = .value (.scalar s) ∧ Denotes g args m.frame.phis id s ∧ m.Keeps g args m'

theorem Semantics.value_eq_ok (heval : Evaluates g args sem.eval) {id : NodeId} {v : Value}
    (h : sem.value id m = .ok (v, m')) (hm : m.frame.Remembers g args) :
    ∃ s, v = .scalar s ∧ Denotes g args m.frame.phis id s ∧ m.Keeps g args m' := by
  obtain ⟨slot, m₁, hslot, h⟩ := Step.bind_eq_ok.1 h
  obtain ⟨s, rfl, hs, hkeeps⟩ := heval hslot hm
  cases Step.pure_eq_ok.1 h
  exact ⟨s, rfl, hs, hkeeps⟩

/-- Evaluation gives what nodes denote. -/
theorem eval_evaluates (hfit : Fits g args) (lambdas : List Graph) (fuel depth : Nat) :
    Evaluates g args (eval lambdas fuel depth) := by
  intro id m slot m' h hm
  have hrecalls : m.frame.Recalls [] 0 (fun _ => True) fun _ => m.frame.phis := by
    intro id s _ hknown
    rw [Frame.Yields, hm.graph_eq, hm.args_eq]
    exact hm.memo id s (by simpa [Frame.known?, hm.arrays_eq] using hknown)
  obtain ⟨⟨memo, hframe, -⟩, hm', hsettles⟩ :=
    eval_recalling hfit.pureOn (views_const _) hm.graph_eq
    trivial hrecalls h
  simp only [Frame.Recalls, Frame.Yields, hframe, hm.graph_eq, hm.args_eq] at hm' hsettles
  obtain ⟨fuel', hslot⟩ := hsettles
  obtain ⟨s, rfl, -⟩ := recompute_scalar hfit hm.phisFit hslot
  have hremembers : m'.frame.Remembers g args := by
    rw [hframe]
    exact ⟨hm.graph_eq, hm.args_eq, hm.arrays_eq, hm.phisFit, fun id slot hmemo =>
      hm' id slot trivial (by simp [Frame.known?, hmemo])⟩
  exact ⟨s, rfl, ⟨fuel', hslot⟩, hremembers, by rw [hframe]⟩

/-! ### Assigning phis -/

/-- The phis after some of them are assigned, one after the other. -/
def Table.assign (t : Table) : List (NodeId × Scalar) → Table
  | [] => t
  | (phi, s) :: rest => assign (t.insert phi (.value (.scalar s))) rest

section Assign

variable {values : List (NodeId × Scalar)} {phi : NodeId}

theorem Table.get?_assign_of_not_mem (t : Table) (h : phi ∉ values.map Prod.fst) :
    (t.assign values).get? phi = t.get? phi := by
  induction values generalizing t with
  | nil => rfl
  | cons e values ih =>
    obtain ⟨hne, h⟩ := not_or.1 (fun h' => h (List.mem_cons.2 h'))
    rw [assign, ih _ h, get?_insert_of_ne hne]

theorem Table.get?_assign_of_mem (t : Table) (h : phi ∈ values.map Prod.fst) :
    ∃ s, (phi, s) ∈ values ∧ (t.assign values).get? phi = some (.value (.scalar s)) := by
  induction values generalizing t with
  | nil => cases h
  | cons e values ih =>
    by_cases hrest : phi ∈ values.map Prod.fst
    · obtain ⟨s, hs, hget⟩ := ih (t.insert e.1 (.value (.scalar e.2))) hrest
      exact ⟨s, .tail _ hs, hget⟩
    · obtain rfl : phi = e.1 := (List.mem_cons.1 h).resolve_right hrest
      exact ⟨e.2, .head _, by rw [assign, get?_assign_of_not_mem _ hrest, get?_insert_self]⟩

/-- What is remembered stays right, since it cannot depend on phis without a value. -/
theorem Frame.Remembers.assign {f : Frame} (hfit : Fits g args) (hf : f.Remembers g args)
    (hnew : ∀ e ∈ values, f.phis.get? e.1 = none)
    (hkinds : ∀ e ∈ values, g.valueKind e.1 = .scalar e.2.kind) :
    Remembers g args { f with phis := f.phis.assign values } := by
  refine ⟨hf.graph_eq, hf.args_eq, hf.arrays_eq, fun phi slot hget => ?_, fun id slot hget => ?_⟩
  · by_cases hphi : phi ∈ values.map Prod.fst
    · obtain ⟨s, hs, hassigned⟩ := f.phis.get?_assign_of_mem hphi
      cases hassigned.symm.trans hget
      exact ⟨s, rfl, hkinds _ hs⟩
    · exact hf.phisFit phi slot ((f.phis.get?_assign_of_not_mem hphi).symm.trans hget)
  · refine (hf.memo id slot hget).mono hfit.pureOn trivial rfl rfl rfl fun phi _ old hold => ?_
    have hphi : phi ∉ values.map Prod.fst := by
      intro hmem
      obtain ⟨e, he, rfl⟩ := List.mem_map.1 hmem
      cases (hnew e he).symm.trans hold
    exact (f.phis.get?_assign_of_not_mem hphi).trans hold

theorem Semantics.assignAll_eq_ok {u : PUnit}
    (h : assignAll (values.map fun e => (e.1, .value (.scalar e.2))) m = .ok (u, m')) :
    m' = { m with frame := { m.frame with phis := m.frame.phis.assign values } } := by
  induction values generalizing m with
  | nil => cases Step.pure_eq_ok.1 h; rfl
  | cons e values ih =>
    replace h := Step.after_ok rfl h
    exact ih h

end Assign

/-- The values that phis take at an end of their merge are what their values there denote. -/
theorem Semantics.incoming_eq_ok (heval : Evaluates g args sem.eval) {stop : NodeId}
    {phis : List NodeId}
    {pairs : List (NodeId × Slot)} (h : sem.incoming g stop phis m = .ok (pairs, m'))
    (hm : m.frame.Remembers g args) :
    ∃ values : List (NodeId × Scalar), pairs = values.map (fun e => (e.1, .value (.scalar e.2))) ∧
      values.map Prod.fst = phis ∧
      (∀ e ∈ values, ∃ v, g.phiValueAt e.1 stop = .ok v ∧ Denotes g args m.frame.phis v e.2) ∧
      m.Keeps g args m' := by
  induction phis generalizing m m' pairs with
  | nil =>
    cases Step.pure_eq_ok.1 h
    exact ⟨[], rfl, rfl, nofun, hm, rfl⟩
  | cons phi phis ih =>
    obtain ⟨v, hv, h⟩ := Run.ofGraph_bind_eq_ok.1 h
    obtain ⟨slot, m₁, hslot, h⟩ := Step.bind_eq_ok.1 h
    obtain ⟨s, rfl, hs, hkeeps⟩ := heval hslot hm
    obtain ⟨rest, m₂, hrest, hpairs⟩ := Step.bind_eq_ok.1 h
    obtain ⟨values, rfl, rfl, hvalues, hkeeps'⟩ := ih hrest hkeeps.remembers
    cases Step.pure_eq_ok.1 hpairs
    rw [hkeeps.phis] at hvalues
    exact ⟨(phi, s) :: values, rfl, rfl, List.forall_mem_cons.2 ⟨⟨v, hv, hs⟩, hvalues⟩,
      hkeeps.trans hkeeps'⟩

/-! ### The walk -/

namespace Semantics

variable {sem : Semantics} {id next : NodeId} {m : Machine} {r : Slot × Machine}

/-- The walk from a node ends with a result. -/
def Walks (sem : Semantics) (g : Graph) (id : NodeId) (m : Machine) (r : Slot × Machine) : Prop :=
  ∃ fuel back, sem.walk g fuel id back m = .ok r

theorem Walks.step (h : sem.Walks g id m r) (hk : g.kind? id = some (.control c)) :
    ∃ back n m', sem.control g id back c m = .ok (n, m') ∧
      match n with
      | .done s => r = (s, m')
      | .goto next _ => sem.Walks g next m' r := by
  obtain ⟨fuel, back, h⟩ := h
  cases fuel with
  | zero => cases h
  | succ fuel =>
    obtain ⟨n, m', hn, h⟩ := Step.bind_eq_ok.1 h
    obtain ⟨k, hk', hn⟩ := Run.ofGraph_bind_eq_ok.1 hn
    cases hk.symm.trans (Graph.kind_eq_ok_iff.1 hk')
    refine ⟨back, n, m', hn, ?_⟩
    cases n with
    | done s => exact Step.pure_eq_ok.1 h
    | goto next back' => exact ⟨fuel, back', h⟩

theorem Walks.pass (h : sem.Walks g id m r) (hk : g.kind? id = some (.control c))
    (hc : c = .start next ∨ c = .region next ∨ c = .merge next) : sem.Walks g next m r := by
  obtain ⟨back, n, m', hn, h⟩ := h.step hk
  obtain rfl | rfl | rfl := hc
  all_goals
    cases Step.pure_eq_ok.1 hn
    exact h

variable (heval : Evaluates g args sem.eval)
include heval

theorem Walks.branch (h : sem.Walks g id m r) (hm : m.frame.Remembers g args) {c t f : NodeId}
    (hk : g.kind? id = some (.control (.branch c t f))) :
    ∃ s m', Denotes g args m.frame.phis c s ∧ m.Keeps g args m' ∧
      sem.Walks g (if s.asBool then t else f) m' r := by
  obtain ⟨back, n, m', hn, h⟩ := h.step hk
  obtain ⟨v, m₁, hv, hn⟩ := Step.bind_eq_ok.1 hn
  obtain ⟨s, rfl, hs, hkeeps⟩ := value_eq_ok heval hv hm
  cases Step.pure_eq_ok.1 hn
  exact ⟨s, _, hs, hkeeps, h⟩

theorem Walks.ret (h : sem.Walks g id m r) (hm : m.frame.Remembers g args) {v : NodeId}
    (hk : g.kind? id = some (.control (.ret (some v)))) :
    ∃ s, r.1 = .value (.scalar s) ∧ Denotes g args m.frame.phis v s := by
  obtain ⟨back, n, m', hn, h⟩ := h.step hk
  obtain ⟨slot, m₁, hslot, hn⟩ := Step.bind_eq_ok.1 hn
  obtain ⟨s, rfl, hs, -⟩ := heval hslot hm
  cases Step.pure_eq_ok.1 hn
  subst h
  exact ⟨s, rfl, hs⟩

theorem Walks.join (hfit : Fits g args) (h : sem.Walks g id m r) (hm : m.frame.Remembers g args)
    {k : NodeId} (hk : g.kind? id = some (.control (.join k)))
    (hnew : ∀ phi ∈ g.phisOf k, m.frame.phis.get? phi = none) :
    ∃ values m', values.map Prod.fst = g.phisOf k ∧
      (∀ e ∈ values, ∃ v, g.phiValueAt e.1 id = .ok v ∧ Denotes g args m.frame.phis v e.2) ∧
      m'.frame.Remembers g args ∧ m'.frame.phis = m.frame.phis.assign values ∧
        sem.Walks g k m' r := by
  obtain ⟨back, n, m', hn, h⟩ := h.step hk
  obtain ⟨_, m₁, hjoin, hn⟩ := Step.bind_eq_ok.1 hn
  obtain ⟨pairs, m₂, hpairs, hassign⟩ := Step.bind_eq_ok.1 hjoin
  obtain ⟨values, rfl, hphis, hvalues, hkeeps⟩ := incoming_eq_ok heval hpairs hm
  cases assignAll_eq_ok hassign
  cases Step.pure_eq_ok.1 hn
  refine ⟨values, _, hphis, hvalues, hkeeps.remembers.assign hfit (fun e he => ?_) (fun e he => ?_),
    ?_, h⟩
  · rw [hkeeps.phis]
    exact hnew _ (hphis ▸ List.mem_map_of_mem he)
  · -- the value that is passed on has the kind of the phi
    obtain ⟨v, hv, hs⟩ := hvalues e he
    obtain ⟨merge, vs, hphi, hmem⟩ := Graph.phiValueAt_eq_ok hv
    rw [← hfit.words.valueKind_choice hphi hmem]
    exact hs.valueKind hfit hm.phisFit
  · rw [hkeeps.phis]

end Semantics

end Host

end Kernelwright
