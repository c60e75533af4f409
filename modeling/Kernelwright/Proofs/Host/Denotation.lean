import Kernelwright.Proofs.Host.Recomputation

/-!
# What the nodes of a graph of words denote

The host remembers the values of nodes while it evaluates. What a node denotes is its value without
that memory, from the arguments and the phis alone. In a graph of words this is a scalar of the kind
that was inferred.
-/

namespace Kernelwright.Host

/-- The value of a node of a graph, settled by the arguments and the phis. -/
def Denotes (g : Graph) (args : List Slot) (phis : Table) (id : NodeId) (s : Scalar) : Prop :=
  Settles [] 0 (.bare g args phis) id (.value (.scalar s))

abbrev scalarSlots (ss : List Scalar) : List Slot := ss.map fun s => .value (.scalar s)

/-- A valid graph of words, and scalars as arguments that are of the kinds of their parameters. -/
structure Fits (g : Graph) (args : List Slot) : Prop where
  valid : g.Valid
  words : g.OnWords
  scalar : ∀ slot ∈ args, ∃ s, slot = .value (.scalar s)
  kind : ∀ {id index type s}, g.kind? id = some (.operation (.parameter index type)) →
    args[index.toNat]? = some (.value (.scalar s)) → type = .scalar s.kind

/-- What has been assigned to phis are scalars of their kinds. -/
def PhisFit (g : Graph) (phis : Table) : Prop :=
  ∀ phi slot, phis.get? phi = some slot →
    ∃ s : Scalar, slot = .value (.scalar s) ∧ g.valueKind phi = .scalar s.kind

theorem phisFit_nil (g : Graph) : PhisFit g [] := nofun

variable {g : Graph} {args : List Slot} {phis phis' : Table} {id : NodeId} {s : Scalar}

theorem Fits.pureOn (h : Fits g args) : g.PureOn fun _ => True := by
  intro id o _ hk
  refine ⟨?_, fun _ _ => trivial⟩
  have ho : o.isOnWords = true := h.words.isOnWords hk
  cases o with
  | newInstance | newArray | invoke | mapChain | arrayLength | loadIndexed | loadField => cases ho
  | _ => rfl

theorem recompute_scalar {fuel : Nat} {slot : Slot} {m : Machine} (hfit : Fits g args)
    (hphis : PhisFit g phis) (h : recompute [] fuel 0 id (.bare g args phis) = .ok (slot, m)) :
    ∃ s : Scalar, slot = .value (.scalar s) ∧ g.valueKind id = .scalar s.kind := by
  have hwords := hfit.words
  induction fuel generalizing id slot m with
  | zero => cases h
  | succ fuel ih =>
    obtain ⟨_, o, hsucc, hk, -⟩ := operation_of_recompute h
    cases hsucc
    have hgives := (gives_of_recompute hfit.pureOn rfl trivial hk h).mono fun x _ s hs => ih hs
    have hrule : g.valueKind id = o.valueKind g.valueKind := hwords.valueKind_eq hk
    have ho : o.isOnWords = true := hwords.isOnWords hk
    cases o with
    | parameter index type =>
      obtain ⟨s, rfl⟩ := hfit.scalar _ (List.mem_of_getElem? hgives)
      exact ⟨s, rfl, by rw [hrule, Operation.valueKind, hfit.kind hk hgives]; rfl⟩
    | phi merge values => exact hphis id slot hgives
    | constant v =>
      cases hgives
      cases v with
      | scalar s => exact ⟨s, rfl, hrule⟩
      | tuple vs => cases ho
    | unary op x =>
      obtain ⟨_, ⟨r, ⟨⟩, hr⟩, rfl⟩ := hgives
      obtain ⟨k, hx, -⟩ := hwords.valueKind_word hfit.valid hk
      obtain ⟨_, ha⟩ := hwords.input hfit.valid hk (.head _)
      obtain ⟨ka, hka, hword⟩ := hwords.valueKind_word hfit.valid ha
      cases hr.symm.trans hka
      have hop : op.valueKind r.kind = .scalar k := by rw [← hx, hrule, Operation.valueKind, hr]
      obtain ⟨s, hs, hkind, -⟩ := Program.unary_agrees hword hop
      exact ⟨s, by rw [hs], by rw [hx, hkind]⟩
    | binary op x y =>
      obtain ⟨k, a, b, v, hkind, -, -, hv, rfl⟩ := hgives
      obtain ⟨s, rfl, rfl⟩ := binary_scalar hv
      exact ⟨s, rfl, hkind⟩
    | compare op x y | normalizeCompare x y =>
      obtain ⟨_, _, ⟨a, ⟨⟩, ha⟩, ⟨b, ⟨⟩, hb⟩, rfl⟩ := hgives
      exact ⟨_, rfl, by rw [hrule, Operation.valueKind, ha, hb]; rfl⟩
    | conditional c t e =>
      obtain ⟨a, -, s, rfl, hs⟩ := hgives
      refine ⟨s, rfl, hs ▸ (hwords.valueKind_choice hk ?_).symm⟩
      split <;> simp [NodeKind.choices]
    | convert k x =>
      obtain ⟨_, ⟨a, ⟨⟩, ha⟩, rfl⟩ := hgives
      exact ⟨_, rfl, by rw [hrule, Operation.valueKind, ha, Scalar.kind_cast]⟩
    | relabel op x =>
      obtain ⟨s, rfl, hs⟩ := hgives
      exact ⟨s, rfl, by rw [hrule, Operation.valueKind, hs]⟩
    | _ => cases ho

namespace Denotes

theorem transfer (hfit : Fits g args) (h : Denotes g args phis id s)
    (hphis : ∀ phi, g.Uses phi id → ∀ slot, phis.get? phi = some slot →
      phis'.get? phi = some slot) :
    Denotes g args phis' id s :=
  Settles.mono h hfit.pureOn trivial rfl rfl rfl hphis

theorem gives_leaf {o : Operation} (h : Denotes g args phis id s)
    (hk : g.kind? id = some (.operation o)) (ho : o.isPure = true ∧ o.needs = []) :
    Gives (fun _ _ => False) (Machine.bare g args phis).frame id (.value (.scalar s)) o := by
  obtain ⟨fuel, h⟩ := h
  cases fuel with
  | zero => cases h
  | succ fuel =>
    refine (gives_of_recompute (g := g) (T := (· = id)) ?_ rfl rfl hk h).mono
      (by rw [ho.2]; exact nofun)
    rintro x o' rfl hk'
    cases hk.symm.trans hk'
    exact ⟨ho.1, by rw [ho.2]; exact nofun⟩

variable (hfit : Fits g args) (hphis : PhisFit g phis) (h : Denotes g args phis id s)
include hfit hphis h

theorem valueKind : g.valueKind id = .scalar s.kind := by
  obtain ⟨fuel, h⟩ := h
  obtain ⟨_, ⟨⟩, hkind⟩ := recompute_scalar hfit hphis h
  exact hkind

theorem isWord : s.kind.isWord = true := by
  have hkind := h.valueKind hfit hphis
  obtain ⟨fuel, h⟩ := h
  obtain ⟨_, o, -, ho, -⟩ := operation_of_recompute h
  obtain ⟨k, hk, hword⟩ := hfit.words.valueKind_word hfit.valid ho
  cases hkind.symm.trans hk
  exact hword

theorem gives {o : Operation} (hk : g.kind? id = some (.operation o)) :
    Gives (fun x slot => ∃ r, slot = .value (.scalar r) ∧ Denotes g args phis x r)
      (Machine.bare g args phis).frame id (.value (.scalar s)) o := by
  obtain ⟨fuel, h⟩ := h
  cases fuel with
  | zero => cases h
  | succ fuel =>
    refine (gives_of_recompute hfit.pureOn rfl trivial hk h).mono fun x _ slot hslot => ?_
    obtain ⟨r, rfl, -⟩ := recompute_scalar hfit hphis hslot
    exact ⟨r, rfl, fuel, hslot⟩

end Denotes

end Kernelwright.Host
