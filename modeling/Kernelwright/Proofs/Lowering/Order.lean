import Kernelwright.Proofs.Lowering.Calls
import Mathlib.Data.List.Nodup
import Mathlib.Logic.Relation

/-!
# Callees come first

The functions of a bundle are staged: whatever lambda is called in a function has its function in
front of it. This survives however the bundles of callees are put together. If names are told apart,
each has one function, and no function calls itself, directly or through others.
-/

namespace Kernelwright.Lowering

open Code

/-! ### Staged functions -/

/-- `P` holds of each function and the names of those in front of it. -/
def Staged (P : List String → Code.Function → Prop) (fs : List Code.Function) : Prop :=
  ∀ before f after, fs = before ++ f :: after → P (before.map Code.Function.name) f

section

variable {P : List String → Code.Function → Prop} {fs new : List Code.Function} {f : Code.Function}

theorem Staged.nil : Staged P [] := by
  intro before f after h
  simp at h

theorem Staged.snoc (h : Staged P fs) (hf : P (fs.map Code.Function.name) f) :
    Staged P (fs ++ [f]) := by
  intro before f' after heq
  rcases List.eq_nil_or_concat after with rfl | ⟨after, last, rfl⟩
  · obtain ⟨rfl, hlast⟩ := List.append_inj' heq rfl
    cases hlast
    exact hf
  · rw [List.concat_eq_append, ← List.cons_append, ← List.append_assoc] at heq
    obtain ⟨rfl, -⟩ := List.append_inj' heq rfl
    exact h before f' after rfl

/-- Functions stay staged when those of another bundle are added, if more names in front do no
harm. -/
theorem Staged.addFunctions (hP : ∀ {names names' f}, names ⊆ names' → P names f → P names' f)
    (h : Staged P fs) (hnew : Staged P new) : Staged P (addFunctions fs new) := by
  -- the names of what has been added so far are there, whether or not it was added
  have hrest : ∀ rest done fs, new = done ++ rest →
      done.map Code.Function.name ⊆ fs.map Code.Function.name → Staged P fs →
      Staged P (Lowering.addFunctions fs rest) := by
    intro rest
    induction rest with
    | nil => exact fun _ _ _ _ h => h
    | cons f rest ih =>
      intro done fs heq hdone hfs
      refine ih (done ++ [f]) _ (by simp [heq]) ?_ ?_
      · rw [List.map_append]
        apply List.append_subset.2
        split
        · next hany =>
          obtain ⟨f', hf', hname⟩ := List.any_eq_true.1 hany
          refine ⟨hdone, List.cons_subset.2 ⟨?_, List.nil_subset _⟩⟩
          exact List.mem_map.2 ⟨f', hf', eq_of_beq hname⟩
        · rw [List.map_append]
          exact ⟨List.subset_append_of_subset_left _ hdone, List.subset_append_right ..⟩
      · split
        · exact hfs
        · exact hfs.snoc (hP hdone (hnew done f rest heq))
  exact hrest new [] fs rfl (List.nil_subset _) h

theorem nodup_addFunctions (h : (fs.map Code.Function.name).Nodup) :
    ((addFunctions fs new).map Code.Function.name).Nodup := by
  induction new generalizing fs with
  | nil => exact h
  | cons f new ih =>
    apply ih
    split
    · exact h
    · next hnone =>
      rw [List.map_append, List.map_singleton, List.nodup_append]
      refine ⟨h, by simp, ?_⟩
      rintro name hname _ (_ | ⟨_, ⟨⟩⟩) rfl
      obtain ⟨f', hf', heq⟩ := List.mem_map.1 hname
      exact hnone (List.any_eq_true.2 ⟨f', hf', beq_iff_eq.2 heq⟩)

end

/-! ### Bundles -/

section

variable {lambdas : List Graph} {guards : Bool} {g : Graph} {callers : List String}
variable {fs : List Code.Function} {b : Bundle}

/-- The function is that of the lambda that its name finds, and the lambdas that it calls have
functions of some names. -/
def Preceded (lambdas : List Graph) (guards : Bool) (names : List String) (f : Code.Function) :
    Prop :=
  ∃ l, lambdas.find? (·.name == l.name) = some l ∧ LoweredFrom lambdas guards l f ∧
    ∀ id ∈ f.visited, ∀ lambda, l.lambdaAt? id = some lambda → functionName lambda ∈ names

/-- Functions of callees: each name once, none of a lambda that is being lowered, callees first. -/
structure Arranged (lambdas : List Graph) (guards : Bool) (callers : List String)
    (fs : List Code.Function) : Prop where
  nodup : (fs.map Code.Function.name).Nodup
  strangers : ∀ f ∈ fs, ∃ l ∈ lambdas, l.name ∉ callers ∧ f.name = functionName l.name
  staged : Staged (Preceded lambdas guards) fs

theorem preceded_mono {names names' : List String} {f : Code.Function} (hnames : names ⊆ names')
    (h : Preceded lambdas guards names f) : Preceded lambdas guards names' f := by
  obtain ⟨l, hl, hlowered, hlisted⟩ := h
  exact ⟨l, hl, hlowered, fun id hid lambda hlambda => hnames (hlisted id hid lambda hlambda)⟩

/-- A bundle is arranged functions and the function of the graph, which completes them. -/
def IsArranged (lambdas : List Graph) (guards : Bool) (g : Graph) (callers : List String)
    (b : Bundle) :
    Prop :=
  ∃ callees f, b.functions = callees ++ [f] ∧ Completes lambdas guards g callees f ∧
    LoweredFrom lambdas guards g f ∧ Arranged lambdas guards callers callees

theorem IsArranged.staged (hg : lambdas.find? (·.name == g.name) = some g)
    (h : IsArranged lambdas guards g callers b) : Staged (Preceded lambdas guards) b.functions := by
  obtain ⟨callees, f, hfunctions, hf, hlowered, harranged⟩ := h
  rw [hfunctions]
  exact harranged.staged.snoc ⟨g, hg, hlowered, hf.listed⟩

theorem Arranged.absorb {lambda : String} (h : Arranged lambdas guards callers fs)
    (hlambda : lambda ∉ callers) (hg : lambdas.find? (·.name == lambda) = some g)
    (hb : IsArranged lambdas guards g (callers ++ [lambda]) b) :
    Arranged lambdas guards callers (addFunctions fs b.functions) := by
  have hname : g.name = lambda := by simpa using List.find?_some hg
  refine ⟨nodup_addFunctions h.nodup, fun f hf => ?_, ?_⟩
  · rcases mem_addFunctions hf with hf | hf
    · exact h.strangers f hf
    · obtain ⟨callees, last, hfunctions, hlast, -, harranged⟩ := hb
      rw [hfunctions] at hf
      rcases List.mem_append.1 hf with hf | hf
      · obtain ⟨l, hl, hstranger, hf⟩ := harranged.strangers f hf
        exact ⟨l, hl, fun h => hstranger (List.mem_append_left _ h), hf⟩
      · cases List.mem_singleton.1 hf
        exact ⟨g, List.mem_of_find?_eq_some hg, hname ▸ hlambda, hlast.name⟩
  · rw [← hname] at hg
    exact h.staged.addFunctions preceded_mono (hb.staged hg)

theorem Bench.Gathers.arranged {depth : Nat} {s : Signature}
    (h : (functionBench lambdas guards depth callers g s).Gathers fs)
    (hlower : ∀ g callers b, lowerBundle lambdas guards depth g callers = .ok b →
      IsArranged lambdas guards g callers b) : Arranged lambdas guards callers fs := by
  induction h with
  | nil => exact ⟨List.nodup_nil, nofun, .nil⟩
  | absorb _ hcallers hg hb ih => exact ih.absorb hcallers hg (hlower _ _ _ hb)

/-- Every bundle is arranged, however deep its calls are. -/
theorem lowerBundle_arranged {depth : Nat}
    (h : lowerBundle lambdas guards depth g callers = .ok b) :
    IsArranged lambdas guards g callers b := by
  induction depth generalizing g callers b with
  | zero => cases h
  | succ depth ih =>
    obtain ⟨n, s, callees, f, hn, hfunctions, hgathers, hf⟩ := lowerBundle_completes h
    cases hn
    have hlast : b.functions.getLast? = some f := by rw [hfunctions, List.getLast?_concat]
    exact ⟨callees, f, hfunctions, hf, ⟨_, _, b, h, hlast⟩, hgathers.arranged fun _ _ _ => ih⟩

theorem find?_requested (g : Graph) (nested : List Graph) :
    (g :: nested).find? (·.name == g.name) = some g :=
  List.find?_cons_of_pos (beq_self_eq_true g.name)

theorem lowerLambda_arranged {nested : List Graph} (h : lowerLambda g nested guards = .ok b) :
    IsArranged (g :: nested) guards g [g.name] b := by
  obtain ⟨_, -, h⟩ := bind_eq_ok.1 h
  exact lowerBundle_arranged h

end

/-! ### Names that are told apart -/

section

variable {lambdas : List Graph} {guards : Bool} {g : Graph} {b : Bundle}

/-- All lambdas whose functions have the name have one name themselves. -/
def Apart (lambdas : List Graph) (name : String) : Prop :=
  ∀ l ∈ lambdas, ∀ l' ∈ lambdas, functionName l.name = name → functionName l'.name = name →
    l.name = l'.name

theorem IsArranged.count_le_one {name : String} (h : IsArranged lambdas guards g [g.name] b)
    (hg : g ∈ lambdas) (hname : Apart lambdas name) :
    (b.functions.map Code.Function.name).count name ≤ 1 := by
  obtain ⟨callees, f, hfunctions, hf, -, harranged⟩ := h
  rw [hfunctions, List.map_append, List.map_singleton, List.count_append]
  have hcallees := List.nodup_iff_count_le_one.1 harranged.nodup name
  by_cases heq : f.name = name
  · -- a callee of the name would be the lambda itself, which is being lowered
    have hnone : (callees.map Code.Function.name).count name = 0 := by
      rw [List.count_eq_zero]
      intro hmem
      obtain ⟨f', hf', hname'⟩ := List.mem_map.1 hmem
      obtain ⟨l, hl, hstranger, hl'⟩ := harranged.strangers f' hf'
      have hself : l.name = g.name :=
        hname l hl g hg (hl'.symm.trans hname') (hf.name.symm.trans heq)
      exact hstranger (List.mem_singleton.2 hself)
    rw [hnone, Nat.zero_add]
    exact List.count_le_length
  · rw [List.count_singleton, if_neg (by simpa using heq)]
    exact hcallees

theorem apart_of_nodup (h : (lambdas.map fun l => functionName l.name).Nodup) (name : String) :
    Apart lambdas name :=
  fun _ hl _ hl' heq heq' =>
    congrArg Graph.name (List.inj_on_of_nodup_map h hl hl' (heq.trans heq'.symm))

end

/-! ### No recursion -/

/-- A function of the bundle calls another one. -/
def Bundle.Calls (b : Bundle) (f f' : Code.Function) : Prop :=
  f ∈ b.functions ∧ f' ∈ b.functions ∧ ∃ args, (f'.name, args) ∈ f.calls

def Bundle.rank (b : Bundle) (f : Code.Function) : Nat :=
  (b.functions.map Code.Function.name).idxOf f.name

section

variable {b : Bundle} {f f' : Code.Function}

/-- Callees have a lower rank, if each call is to a name further in front. -/
theorem Bundle.Calls.rank_lt (h : b.Calls f f')
    (hnodup : (b.functions.map Code.Function.name).Nodup)
    (hstaged : Staged (fun names f => ∀ c ∈ f.calls, c.1 ∈ names) b.functions) :
    b.rank f' < b.rank f := by
  obtain ⟨hf, -, args, hcall⟩ := h
  obtain ⟨before, after, heq⟩ := List.append_of_mem hf
  have hname : f'.name ∈ before.map Code.Function.name := hstaged before f after heq _ hcall
  have hnew : f.name ∉ before.map Code.Function.name := by
    rw [heq, List.map_append, List.nodup_append] at hnodup
    exact fun hmem => hnodup.2.2 _ hmem _ (.head _) rfl
  unfold Bundle.rank
  rw [heq, List.map_append, List.idxOf_append_of_mem hname, List.idxOf_append_of_notMem hnew]
  exact Nat.lt_of_lt_of_le (List.idxOf_lt_length_of_mem hname) (Nat.le_add_right ..)

theorem Bundle.rank_lt_of_transGen (h : Relation.TransGen b.Calls f f')
    (hnodup : (b.functions.map Code.Function.name).Nodup)
    (hstaged : Staged (fun names f => ∀ c ∈ f.calls, c.1 ∈ names) b.functions) :
    b.rank f' < b.rank f := by
  induction h with
  | single hcall => exact hcall.rank_lt hnodup hstaged
  | tail _ hcall ih => exact Nat.lt_trans (hcall.rank_lt hnodup hstaged) ih

end

theorem Preceded.calls {lambdas : List Graph} {guards : Bool} {names : List String}
    {f : Code.Function} (h : Preceded lambdas guards names f) : ∀ c ∈ f.calls, c.1 ∈ names := by
  intro c hc
  obtain ⟨l, -, hlowered, hlisted⟩ := h
  obtain ⟨callees, hf⟩ := hlowered.completes
  obtain ⟨id, hid, hcall⟩ := hf.calls c hc
  obtain ⟨lambda, hlambda, hname⟩ := hcall.lambdaAt?
  rw [hname]
  exact hlisted id hid lambda hlambda

/-- Functions are emitted callees first. If no two lambdas have functions of one name, then no two
functions have one name, the requested lambda's is the last, and each lambda that is called in the
lowering of a function has its own in front of it. Hence no function calls itself, directly or
through others. -/
theorem emitted_callees_first (g : Graph) (nested : List Graph) (guards : Bool) (b : Bundle)
    (hnames : ((g :: nested).map fun l => functionName l.name).Nodup)
    (h : lowerLambda g nested guards = .ok b) :
    (b.functions.map Code.Function.name).Nodup ∧
    (∃ callees f, b.functions = callees ++ [f] ∧ f.name = functionName g.name ∧
      LoweredFrom (g :: nested) guards g f) ∧
    (∀ before f after, b.functions = before ++ f :: after →
      (∃ l ∈ g :: nested, LoweredFrom (g :: nested) guards l f ∧ ∀ id ∈ f.visited, ∀ lambda,
        l.lambdaAt? id = some lambda → functionName lambda ∈ before.map Code.Function.name) ∧
      ∀ c ∈ f.calls, c.1 ∈ before.map Code.Function.name) ∧
    ∀ f, ¬ Relation.TransGen b.Calls f f := by
  have harranged := lowerLambda_arranged h
  have hstaged := harranged.staged (find?_requested g nested)
  have hcalls : Staged (fun names f => ∀ c ∈ f.calls, c.1 ∈ names) b.functions :=
    fun before f after heq => (hstaged before f after heq).calls
  have hnodup : (b.functions.map Code.Function.name).Nodup :=
    List.nodup_iff_count_le_one.2 fun name =>
      harranged.count_le_one (.head _) (apart_of_nodup hnames name)
  obtain ⟨callees, f, hfunctions, hf, hlowered, -⟩ := harranged
  refine ⟨hnodup, ⟨callees, f, hfunctions, hf.name, hlowered⟩, fun before f after heq => ?_,
    fun f hcycle => ?_⟩
  · obtain ⟨l, hl, hlowered, hlisted⟩ := hstaged before f after heq
    exact ⟨⟨l, List.mem_of_find?_eq_some hl, hlowered, hlisted⟩, hcalls before f after heq⟩
  · exact Nat.lt_irrefl _ (Bundle.rank_lt_of_transGen hcycle hnodup hcalls)

/-- Counts up. -/
def rise : Graph := .ofOperations "rise" [.parameter 0 (.scalar .int), .constant (.scalar (.int 1)),
  .binary .add 1 2]

/-- Counts up as `rise` does. -/
def relay (name : String) : Graph := .ofOperations name [.parameter 0 (.scalar .int),
  .invoke (.lambda "rise") [1] (.scalar .int)]

/-- Reaches `rise` in two ways, through an invocation and through a fused map. -/
def diamond : Graph := .ofOperations "diamond" [.parameter 0 (.scalar .int),
  .invoke (.lambda "left") [1] (.scalar .int), .newArray .int 4,
  .mapChain "right" 3 4 (.scalar .int), .constant (.scalar (.int 0)), .loadIndexed 4 5,
  .binary .add 2 6]

def reached : List Graph := [rise, relay "right", relay "left"]

theorem diamond_callees_first :
    ((diamond :: reached).map fun l => functionName l.name).Nodup ∧
    ∃ b, lowerLambda diamond reached true = .ok b ∧
      b.functions.map Code.Function.name =
        [functionName "rise", functionName "left", functionName "right", functionName "diamond"] ∧
      ∀ f, ¬ Relation.TransGen b.Calls f f := by
  have hdistinct : ((diamond :: reached).map fun l => functionName l.name).Nodup := by
    decide +kernel
  refine ⟨hdistinct, exists_ok_and (by decide +kernel) fun b hb _ => ?_⟩
  obtain ⟨-, -, -, hacyclic⟩ := emitted_callees_first _ _ _ b hdistinct hb
  exact hacyclic

end Kernelwright.Lowering
