import Kernelwright.Proofs.Graph.Course

/-!
# Names that a walk leaves behind

Scopes of names are opened by regions and by the bodies of loops, blocks of text by the arms of
branches and by the bodies of loops. So the names of values that are computed in an arm may outlive
their declarations. `Leaves` says what is left of a walk in the scope where it began. It asks of the
graph that what is laid out after an arm does not find names that are declared in the arm.
-/

namespace Kernelwright

def ValueKind.isArray : ValueKind → Bool
  | array _ => true
  | _ => false

/-- The arrays of which a node reads or writes something, whatever the kind of the node is. -/
def NodeKind.arrays : NodeKind → List NodeId
  | .operation (.arrayLength array) | .operation (.mapChain _ array _ _) => [array]
  | .control (.storeIndexed array _ _ _) => [array]
  | _ => []

namespace Graph

/-- What is used as an array is one. -/
def ArraysTyped (g : Graph) : Prop :=
  ∀ n ∈ g.nodes.toList, ∀ x ∈ n.kind.arrays, (g.valueKind x).isArray = true

instance (g : Graph) : Decidable g.ArraysTyped := inferInstanceAs (Decidable (∀ n ∈ _, ∀ x ∈ _, _))

/-- Whether a value has its name without a declaration where it is asked for: parameters and phis
are declared before, and a constant is its literal. -/
def isPlain (g : Graph) (id : NodeId) : Bool :=
  match g.kind? id with
  | some (.operation (.parameter ..)) | some (.operation (.phi ..))
  | some (.operation (.constant _)) => true
  | _ => false

theorem isPlain_cases {g : Graph} {id : NodeId} {k : NodeKind} (hk : g.kind? id = some k)
    (h : g.isPlain id = true) :
    (∃ index type, k = .operation (.parameter index type)) ∨ (∃ m vs, k = .operation (.phi m vs)) ∨
      ∃ v, k = .operation (.constant v) := by
  rw [isPlain, hk] at h
  split at h
  · next heq => exact .inl ⟨_, _, Option.some.inj heq⟩
  · next heq => exact .inr (.inl ⟨_, _, Option.some.inj heq⟩)
  · next heq => exact .inr (.inr ⟨_, Option.some.inj heq⟩)
  · cases h

/-- The values that the phis of a merge or loop take through an end. -/
def endValues (g : Graph) (merge stop : NodeId) : List NodeId :=
  (g.phisOf merge).filterMap fun phi => (g.phiValueAt phi stop).toOption

def asked (g : Graph) (id : NodeId) : Control → List NodeId
  | .join merge => g.endValues merge id
  | .backEdge head => g.endValues head id
  | c => c.inputs

/-- Which names are left of a walk in the scope where it began. -/
inductive Residue where
  /-- None that needs a declaration. -/
  | nothing
  /-- Names that are declared in the block where the walk began. -/
  | visible
  /-- Maybe names that are declared in a block that has been closed. -/
  | hidden
deriving DecidableEq, Repr

namespace Residue

/-- What is left of one part of a walk and of the next. -/
def join : Residue → Residue → Residue
  | nothing, r | r, nothing => r
  | visible, visible => visible
  | _, _ => hidden

@[simp] theorem join_nothing (r : Residue) : r.join nothing = r := by cases r <;> rfl

/-- What is left of an arm, outside of its block. -/
def outside : Residue → Residue
  | nothing => nothing
  | _ => hidden

end Residue

/-- What is left when some values have been asked for. -/
def residueOf (g : Graph) (values : List NodeId) : Residue :=
  if values.all g.isPlain then .nothing else .visible

theorem residueOf_ne_hidden (g : Graph) (values : List NodeId) : g.residueOf values ≠ .hidden := by
  unfold residueOf
  split <;> exact nofun

theorem residueOf_eq_nothing {g : Graph} {values : List NodeId}
    (h : g.residueOf values = .nothing) :
    values.all g.isPlain = true := by
  unfold residueOf at h
  split at h
  · assumption
  · cases h

/-- A walk from a node and the merges met before it; `seen'` are those met by the end, where the
walk goes on at the merge `exit` if there is one. -/
inductive Leaves (g : Graph) : (seen : List NodeId) → NodeId → (exit : Option NodeId) →
    (seen' : List NodeId) → Residue → Prop
  /-- A region takes its names back. -/
  | region {seen id next exit seen' r} : g.kind? id = some (.control (.region next)) →
      Leaves g seen next exit seen' r → Leaves g seen id exit seen' .nothing
  | pass {seen id c next exit seen' r} : g.kind? id = some (.control c) →
      isRegion (.control c) = false → c.onward? = some next → Leaves g seen next exit seen' r →
      Leaves g seen id exit seen' ((g.residueOf (g.asked id c)).join r)
  | merge {seen id next exit seen' r} : g.kind? id = some (.control (.merge next)) → id ∉ seen →
      Leaves g (id :: seen) next exit seen' r → Leaves g seen id exit seen' r
  | met {seen id next} : g.kind? id = some (.control (.merge next)) → id ∈ seen →
      Leaves g seen id none seen .nothing
  | join {seen id m} : g.kind? id = some (.control (.join m)) →
      Leaves g seen id (some m) seen (g.residueOf (g.asked id (.join m)))
  | ret {seen id v} : g.kind? id = some (.control (.ret v)) →
      Leaves g seen id none seen (g.residueOf (g.asked id (.ret v)))
  /-- The second arm does not find names of the first one. -/
  | branch {seen id c t f seen₁ seen₂ r} : g.kind? id = some (.control (.branch c t f)) →
      Leaves g seen t none seen₁ .nothing → Leaves g seen₁ f none seen₂ r →
      Leaves g seen id none seen₂ ((g.residueOf [c]).join r.outside)
  /-- What comes after the arms does not find names of either. -/
  | branchMerge {seen id c t f a b m exit seen₁ seen₂ seen₃ r} :
      g.kind? id = some (.control (.branch c t f)) → Leaves g seen t a seen₁ .nothing →
      Leaves g seen₁ f b seen₂ .nothing → a.or b = some m → (∀ m', b = some m' → m' = m) →
      Leaves g seen₂ m exit seen₃ r → Leaves g seen id exit seen₃ ((g.residueOf [c]).join r)
  /-- The variables of a loop are declared in front of it, and its body takes its names back. -/
  | loop {seen id next bound exit seen' r} :
      g.kind? id = some (.control (.loopHead next bound)) → Leaves g seen next exit seen' r →
      Leaves g seen id none seen' (if g.phisOf id = [] then .nothing else .visible)
  | backEdge {seen id head} : g.kind? id = some (.control (.backEdge head)) →
      Leaves g seen id none seen (g.residueOf (g.asked id (.backEdge head)))
  | loopExit {seen id head next exit seen' r} :
      g.kind? id = some (.control (.loopExit head next)) → Leaves g seen next exit seen' r →
      Leaves g seen id exit seen' r

/-- The text of the whole graph is laid out so that names do not outlive their declarations. -/
def Sheltered (g : Graph) : Prop :=
  ∃ start exit seen r, g.start = .ok start ∧ g.Leaves [] start exit seen r

end Graph

end Kernelwright
