import Kernelwright.Proofs.Lowering.Order

/-!
# What the names of lambdas resolve to

A node calls a lambda by its name, and its text calls a function whose name is spelled after it. In
the text, a function stands for the first lambda of its name; on the host, the last one of the name
is run. Where a name has one lambda and is spelled like no other, both are the same.
-/

namespace Kernelwright.Lowering

open Code

section

variable {g : Graph} {nested : List Graph} {guards : Bool} {b : Bundle} {f : Code.Function}

/-- Every function of a bundle is that of the first lambda of a name, and all that it calls is
defined. -/
theorem lowerLambda_preceded (h : lowerLambda g nested guards = .ok b) (hf : f ∈ b.functions) :
    Preceded (g :: nested) guards (b.functions.map Code.Function.name) f := by
  obtain ⟨before, after, heq⟩ := List.append_of_mem hf
  have hstaged := (lowerLambda_arranged h).staged (find?_requested g nested)
  refine preceded_mono ?_ (hstaged before f after heq)
  rw [heq, List.map_append]
  exact List.subset_append_left ..

theorem exists_definition {lambda : String} (h : lowerLambda g nested guards = .ok b)
    (hlisted : functionName lambda ∈ b.functions.map Code.Function.name)
    (hspelled : ∀ l ∈ g :: nested, functionName l.name = functionName lambda → l.name = lambda) :
    ∃ l d, (g :: nested).find? (·.name == lambda) = some l ∧
      b.functions.filter (·.name == functionName lambda) = [d] ∧
      LoweredFrom (g :: nested) guards l d := by
  have hapart : Apart (g :: nested) (functionName lambda) :=
    fun l hl l' hl' hname hname' => (hspelled l hl hname).trans (hspelled l' hl' hname').symm
  have hcount : (b.functions.map Code.Function.name).count (functionName lambda) = 1 :=
    Nat.le_antisymm ((lowerLambda_arranged h).count_le_one (.head _) hapart)
      (List.count_pos_iff.2 hlisted)
  have hlength : (b.functions.filter (·.name == functionName lambda)).length = 1 := by
    rw [← List.countP_eq_length_filter]
    rwa [List.count, List.countP_map] at hcount
  obtain ⟨d, hd⟩ := List.length_eq_one_iff.1 hlength
  obtain ⟨hmem, hname⟩ := List.mem_filter.1 (hd ▸ List.mem_singleton_self d)
  obtain ⟨l, hl, hlowered, -⟩ := lowerLambda_preceded h hmem
  obtain ⟨_, hcompletes⟩ := hlowered.completes
  obtain rfl : l.name = lambda :=
    hspelled l (List.mem_of_find?_eq_some hl) (hcompletes.name.symm.trans (eq_of_beq hname))
  exact ⟨l, d, hl, hd, hlowered⟩

end

/-- If all lambdas of a name are one, it does not matter whether the first or the last is taken. -/
theorem hostLambda?_eq {lambdas : List Graph} {lambda : String} {l : Graph}
    (h : lambdas.find? (·.name == lambda) = some l)
    (hone : ∀ l ∈ lambdas, ∀ l' ∈ lambdas, l.name = lambda → l'.name = lambda → l = l') :
    Host.lambda? lambdas lambda = some l := by
  have hl := List.mem_of_find?_eq_some h
  have hname : l.name = lambda := by simpa using List.find?_some h
  unfold Host.lambda?
  cases hlast : lambdas.reverse.find? (·.name == lambda) with
  | none =>
    rw [List.find?_eq_none] at hlast
    exact (hlast l (List.mem_reverse.2 hl) (by simpa using hname)).elim
  | some l' =>
    have hl' := List.mem_reverse.1 (List.mem_of_find?_eq_some hlast)
    have hname' : l'.name = lambda := by simpa using List.find?_some hlast
    rw [hone l hl l' hl' hname hname']

/-- What the calls of lambdas resolve to. The lambda of a node that is lowered has a function, and
each function of that name is the text of the first lambda of a name that is spelled alike. If no
other name is, and it is the name of one lambda only, then that is the lambda that the host runs. -/
theorem calls_resolve_to_host (g : Graph) (nested : List Graph) (guards : Bool) (b : Bundle)
    (h : lowerLambda g nested guards = .ok b) (f : Code.Function) (hf : f ∈ b.functions) :
    ∃ l ∈ g :: nested, LoweredFrom (g :: nested) guards l f ∧
      (∀ c ∈ f.calls, ∃ id ∈ f.visited, ∃ lambda, l.lambdaAt? id = some lambda ∧
        c.1 = functionName lambda) ∧
      ∀ id ∈ f.visited, ∀ lambda, l.lambdaAt? id = some lambda →
        (∃ d ∈ b.functions, d.name = functionName lambda) ∧
        (∀ d ∈ b.functions, d.name = functionName lambda →
          ∃ l', (g :: nested).find? (·.name == l'.name) = some l' ∧
            functionName l'.name = functionName lambda ∧ LoweredFrom (g :: nested) guards l' d) ∧
        ((∀ l' ∈ g :: nested, functionName l'.name = functionName lambda → l'.name = lambda) →
          (∀ l' ∈ g :: nested, ∀ l'' ∈ g :: nested,
            l'.name = lambda → l''.name = lambda → l' = l'') →
          ∃ l' d, Host.lambda? (g :: nested) lambda = some l' ∧
            b.functions.filter (·.name == functionName lambda) = [d] ∧
            LoweredFrom (g :: nested) guards l' d) := by
  obtain ⟨l, hl, hlowered, hlisted⟩ := lowerLambda_preceded h hf
  obtain ⟨_, hcompletes⟩ := hlowered.completes
  refine ⟨l, List.mem_of_find?_eq_some hl, hlowered, fun c hc => ?_,
    fun id hid lambda hlambda => ?_⟩
  · obtain ⟨id, hid, hcall⟩ := hcompletes.calls c hc
    exact ⟨id, hid, hcall.lambdaAt?⟩
  · have hdefined := hlisted id hid lambda hlambda
    refine ⟨List.mem_map.1 hdefined, fun d hd hname => ?_, fun hspelled hone => ?_⟩
    · obtain ⟨l', hl', hlowered', -⟩ := lowerLambda_preceded h hd
      obtain ⟨_, hcompletes'⟩ := hlowered'.completes
      exact ⟨l', hl', hcompletes'.name.symm.trans hname, hlowered'⟩
    · obtain ⟨l', d, hl', hd, hlowered'⟩ := exists_definition h hdefined hspelled
      exact ⟨l', d, hostLambda?_eq hl' hone, hd, hlowered'⟩

theorem diamond_calls_resolve : ∃ b f d,
    lowerLambda diamond reached true = .ok b ∧ f ∈ b.functions ∧
    f.name = functionName "diamond" ∧ 4 ∈ f.visited ∧
    diamond.lambdaAt? 4 = some "right" ∧
    b.functions.filter (·.name == functionName "right") = [d] ∧
    LoweredFrom (diamond :: reached) true (relay "right") d := by
  have hrun : ∃ b, lowerLambda diamond reached true = .ok b ∧
      ∃ f ∈ b.functions, f.name = functionName "diamond" ∧ 4 ∈ f.visited := by
    decide +kernel
  obtain ⟨b, hb, f, hmem, hname, hid⟩ := hrun
  obtain ⟨l, hl, hlowered, -, hresolve⟩ := calls_resolve_to_host _ _ _ b hb f hmem
  have honly : ∀ l ∈ diamond :: reached,
      functionName l.name = functionName "diamond" → l = diamond := by decide +kernel
  obtain ⟨_, hcompletes⟩ := hlowered.completes
  obtain rfl := honly l hl (hcompletes.name.symm.trans hname)
  obtain ⟨-, -, hhost⟩ := hresolve 4 hid "right" rfl
  obtain ⟨l', d, hl', hd, hlowered'⟩ := hhost (by decide +kernel) (by decide +kernel)
  obtain rfl : relay "right" = l' := Option.some.inj hl'
  exact ⟨b, f, d, hb, hmem, hname, hid, rfl, hd, hlowered'⟩

/-! ### Names that are spelled alike -/

/-- Gives its argument back. -/
def keep : Graph := .ofOperations "a.b" [.parameter 0 (.scalar .int)]

/-- Gives the negative of its argument. -/
def negative : Graph := .ofOperations "a_b" [.parameter 0 (.scalar .int), .unary .neg 1]

/-- Calls both of them. -/
def alike : Graph := .ofOperations "main" [.parameter 0 (.scalar .int),
  .invoke (.lambda "a.b") [1] (.scalar .int), .invoke (.lambda "a_b") [2] (.scalar .int)]

/-- Where `keep` is called, the text runs `negative`, as both have a function of one name. -/
theorem alike_call_misses_host : ∃ b f d, lowerLambda alike [keep, negative] true = .ok b ∧
    b.functions = [d, f] ∧ f.name = functionName "main" ∧ 2 ∈ f.visited ∧
    alike.lambdaAt? 2 = some "a.b" ∧ d.name = functionName "a.b" ∧
    Host.lambda? [alike, keep, negative] "a.b" = some keep ∧
    ¬ LoweredFrom [alike, keep, negative] true keep d := by
  have hrun : ∃ b, lowerLambda alike [keep, negative] true = .ok b ∧ ∃ d f, b.functions = [d, f] ∧
      d.name = functionName "a.b" ∧ 3 ∈ d.visited ∧ f.name = functionName "main" ∧
        2 ∈ f.visited := by
    decide +kernel
  obtain ⟨b, hb, d, f, hfs, hname, hmarked, hname', hid⟩ := hrun
  refine ⟨b, f, d, hb, hfs, hname', hid, rfl, hname, rfl, fun hlowered => ?_⟩
  -- the text marks a node that `keep` does not have
  obtain ⟨_, hcompletes⟩ := hlowered.completes
  obtain ⟨kind, hkind⟩ := hcompletes.known 3 hmarked
  cases hkind

end Kernelwright.Lowering
