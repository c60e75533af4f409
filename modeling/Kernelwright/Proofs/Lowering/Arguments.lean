import Kernelwright.Proofs.Lowering.Resolution

/-!
# Arguments and parameters

A call passes one argument for each operand, and a definition has the parameters that those of its
lambda become, in the same order, with the flag last in both. An array becomes two parameters, but
no call passes its metadata on. So a call has as many arguments as there are parameters exactly if
the lambda takes no array.
-/

namespace Kernelwright

open Code

/-- What a node passes for its operands: a name for each operand of an invocation, which for a
parameter is its own, or an element of the array of a fused map. -/
inductive Graph.Passes (g : Graph) (id : NodeId) : List Argument → Prop
  | invoke {lambda args result} (names : List Name) :
      g.kind? id = some (.operation (.invoke (.lambda lambda) args result)) →
      List.Forall₂ (fun arg x => ∀ index type,
        g.kind? arg = some (.operation (.parameter index type)) → x = .parameter index.toNat) args
          names → Passes g id (names.map .name)
  | fused {lambda array capacity element} (place : Place) :
      g.kind? id = some (.operation (.mapChain lambda array capacity element)) →
        Passes g id [.place place]

def NodeKind.invoked? : NodeKind → Option (String × List NodeId)
  | .operation (.invoke (.lambda name) args _) => some (name, args)
  | _ => none

/-- Each invocation of a lambda passes one operand for each of its parameters. -/
def Graph.Saturates (g : Graph) (lambdas : List Graph) : Prop :=
  ∀ n ∈ g.nodes.toList, ∀ e ∈ n.kind.invoked?, ∀ callee ∈ lambdas, callee.name = e.1 →
    e.2.length = callee.parameters.length

instance (g : Graph) (lambdas : List Graph) : Decidable (g.Saturates lambdas) :=
  inferInstanceAs (Decidable (∀ n ∈ g.nodes.toList, ∀ e ∈ n.kind.invoked?, ∀ callee ∈ lambdas,
    callee.name = e.1 → e.2.length = callee.parameters.length))

namespace Lowering

/-! ### Parameters -/

section

theorem ofFunction_become {g : Graph} {guards : Bool} {s : Signature} {structs : Structs}
    (h : Signature.ofFunction g structs guards = .ok s) :
    ∃ blocks, List.Forall₂ Graph.Parameter.Becomes g.parameters blocks ∧
      s.parameters = blocks.flatten ++ flagParameter guards := by
  obtain ⟨blocks, structs, hblocks, rfl⟩ := ofFunction_eq_ok h
  exact ⟨blocks, hblocks.imp fun _ _ h => h.becomes, rfl⟩

theorem length_become {qs : List Graph.Parameter} {blocks : List (List Code.Parameter)}
    (h : List.Forall₂ Graph.Parameter.Becomes qs blocks) :
    blocks.flatten.length = qs.length + (qs.filter (·.type.isArray)).length := by
  induction h with
  | nil => rfl
  | cons hblock _ ih =>
    rw [List.flatten_cons, List.length_append, ih, List.filter_cons]
    cases hblock with
    | array c harray =>
      rw [if_pos harray]
      simp only [List.length_cons, List.length_nil]
      omega
    | value c hvalue =>
      rw [if_neg (by simp [hvalue])]
      simp only [List.length_cons, List.length_nil]
      omega

end

/-! ### Arguments -/

section

variable {l callee : Graph} {lambdas : List Graph} {guards : Bool} {id : NodeId} {lambda : String}

theorem callsAt_passes {c : String × List Argument} (hvalid : l.Valid)
    (h : l.CallsAt lambdas [] (flagArguments guards) id c) :
    ∃ operands, l.Passes id operands ∧ c.2 = operands ++ flagArguments guards := by
  cases h with
  | invoke names hk hnames =>
    exact ⟨names.map .name, .invoke names hk (hnames.imp fun _ _ h => h hvalid), rfl⟩
  | fused place hk => exact ⟨[.place place], .fused place hk, rfl⟩

/-- If a lambda is called with an operand for each parameter, there is an argument for each. -/
theorem callsAt_length {c : String × List Argument} (hsaturates : l.Saturates lambdas)
    (h : l.CallsAt lambdas [] (flagArguments guards) id c) (hlambda : l.lambdaAt? id = some lambda)
    (hcallee : lambdas.find? (·.name == lambda) = some callee) :
    c.2.length = callee.parameters.length + (flagArguments guards).length := by
  cases h with
  | @invoke called args _ names hk hnames =>
    obtain rfl : called = lambda :=
      Option.some.inj (by simpa [Graph.lambdaAt?, hk, NodeKind.lambda?] using hlambda)
    have hname : callee.name = called := by simpa using List.find?_some hcallee
    have hargs : args.length = callee.parameters.length :=
      hsaturates _ (Graph.mem_of_kind? hk) _ rfl callee (List.mem_of_find?_eq_some hcallee) hname
    simp [← hnames.length_eq, hargs]
  | @fused called _ _ _ inner place hk hinner hone =>
    obtain rfl : called = lambda :=
      Option.some.inj (by simpa [Graph.lambdaAt?, hk, NodeKind.lambda?] using hlambda)
    obtain rfl : inner = callee := Option.some.inj (hinner.symm.trans hcallee)
    simp [hone, Nat.add_comm]

end

/-- For each parameter of the lambda a call passes an operand of the node, in the same order, and
the flag at the end. -/
def Corresponds (l callee : Graph) (guards : Bool) (id : NodeId) (args : List Argument)
    (ps : List Code.Parameter) : Prop :=
  ∃ operands blocks, l.Passes id operands ∧ List.Forall₂ Graph.Parameter.Becomes
    callee.parameters blocks ∧
    operands.length = blocks.length ∧ args = operands ++ flagArguments guards ∧
    ps = blocks.flatten ++ flagParameter guards

/-- Calls match signatures, but for the metadata of arrays. If every invocation passes an operand
for each parameter, then what a call names is defined once, unless another lambda is spelled like
it, and for each array that the lambda takes there is one argument too few. -/
theorem calls_match_but_metadata (g : Graph) (nested : List Graph) (guards : Bool) (b : Bundle)
    (hvalid : ∀ l ∈ g :: nested, l.validate = .ok ())
    (hsaturates : ∀ l ∈ g :: nested, l.Saturates (g :: nested))
    (h : lowerLambda g nested guards = .ok b) (f : Code.Function) (hf : f ∈ b.functions) :
    ∃ l ∈ g :: nested, LoweredFrom (g :: nested) guards l f ∧ ∀ c ∈ f.calls,
      ∃ id ∈ f.visited, ∃ lambda, l.lambdaAt? id = some lambda ∧ c.1 = functionName lambda ∧
        ((∀ l' ∈ g :: nested, functionName l'.name = functionName lambda → l'.name = lambda) →
          ∃ callee d, (g :: nested).find? (·.name == lambda) = some callee ∧
            b.functions.filter (·.name == c.1) = [d] ∧ LoweredFrom (g :: nested) guards callee d ∧
            Corresponds l callee guards id c.2 d.parameters ∧
            d.parameters.length = c.2.length +
              (callee.parameters.filter (·.type.isArray)).length) := by
  obtain ⟨l, hl, hlowered, hlisted⟩ := lowerLambda_preceded h hf
  obtain ⟨_, hcompletes⟩ := hlowered.completes
  have hmem := List.mem_of_find?_eq_some hl
  refine ⟨l, hmem, hlowered, fun c hc => ?_⟩
  obtain ⟨id, hid, hcall⟩ := hcompletes.calls c hc
  obtain ⟨lambda, hlambda, hname⟩ := hcall.lambdaAt?
  refine ⟨id, hid, lambda, hlambda, hname, fun hspelled => ?_⟩
  obtain ⟨callee, d, hcallee, hd, hlowered'⟩ :=
    exists_definition h (hlisted id hid lambda hlambda) hspelled
  obtain ⟨_, hcompletes'⟩ := hlowered'.completes
  obtain ⟨structs, s, hs, hparameters⟩ := hcompletes'.parameters
  obtain ⟨blocks, hblocks, hbecome⟩ := ofFunction_become hs
  obtain ⟨operands, hpasses, hargs⟩ :=
    callsAt_passes (Graph.valid_of_validate (hvalid l hmem)) hcall
  have hlength := callsAt_length (hsaturates l hmem) hcall hlambda hcallee
  have hoperands : operands.length = blocks.length := by
    rw [hargs, List.length_append] at hlength
    rw [← hblocks.length_eq]
    omega
  have hflag : (flagParameter guards).length = (flagArguments guards).length := by
    cases guards <;> rfl
  refine ⟨callee, d, hcallee, hname ▸ hd, hlowered',
    ⟨operands, blocks, hpasses, hblocks, hoperands, hargs, hparameters.trans hbecome⟩, ?_⟩
  rw [hparameters, hbecome, List.length_append, length_become hblocks, hlength, hflag]
  omega

theorem exists_node_of_lambdaAt? {l : Graph} {id : NodeId} {lambda : String}
    (h : l.lambdaAt? id = some lambda) : ∃ n ∈ l.nodes.toList, lambda ∈ n.kind.lambda? := by
  obtain ⟨kind, hkind, hlambda⟩ := Option.bind_eq_some_iff.1 h
  exact ⟨⟨id, kind⟩, Graph.mem_of_kind? hkind, hlambda⟩

theorem diamond_calls_match :
    (∀ l ∈ diamond :: reached, l.validate = .ok ()) ∧
    (∀ l ∈ diamond :: reached, l.Saturates (diamond :: reached)) ∧
    ∃ b, lowerLambda diamond reached true = .ok b ∧
      b.functions.map (fun f => f.calls.map Prod.fst) =
        [[], [functionName "rise"], [functionName "rise"],
          [functionName "left", functionName "right"]] ∧
      ∀ f ∈ b.functions, ∀ c ∈ f.calls, ∃ d, b.functions.filter (·.name == c.1) = [d] ∧
        d.parameters.length = c.2.length := by
  have hvalid : ∀ l ∈ diamond :: reached, l.validate = .ok () := by decide +kernel
  have hsaturates : ∀ l ∈ diamond :: reached, l.Saturates (diamond :: reached) := by
    decide +kernel
  have hspelled : ∀ l ∈ diamond :: reached, ∀ n ∈ l.nodes.toList, ∀ lambda ∈ n.kind.lambda?,
      ∀ l' ∈ diamond :: reached, functionName l'.name = functionName lambda → l'.name = lambda := by
    decide +kernel
  have hscalar : ∀ l ∈ diamond :: reached, l.parameters.filter (·.type.isArray) = [] := by
    decide +kernel
  refine ⟨hvalid, hsaturates, exists_ok_and (by decide +kernel) fun b hb _ f hf c hc => ?_⟩
  obtain ⟨l, hl, -, hmatch⟩ := calls_match_but_metadata _ _ _ b hvalid hsaturates hb f hf
  obtain ⟨id, -, lambda, hlambda, -, hmatch⟩ := hmatch c hc
  obtain ⟨n, hn, hlambda⟩ := exists_node_of_lambdaAt? hlambda
  obtain ⟨callee, d, hcallee, hd, -, -, hlength⟩ := hmatch (hspelled l hl n hn lambda hlambda)
  rw [hscalar callee (List.mem_of_find?_eq_some hcallee)] at hlength
  exact ⟨d, hd, hlength⟩

/-! ### Arrays -/

/-- Gives the first element of an array. -/
def front : Graph := .ofOperations "front" [.parameter 0 (.array (.scalar .int)),
  .constant (.scalar (.int 0)), .loadIndexed 1 2]

/-- Asks for the first element of its own array. -/
def frontOfParameter : Graph := .ofOperations "frontOfParameter" [
  .parameter 0 (.array (.scalar .int)), .invoke (.lambda "front") [1] (.scalar .int)]

/-- The array is passed without its metadata. -/
theorem front_call_lacks_metadata :
    (∀ l ∈ [frontOfParameter, front], l.validate = .ok () ∧ l.Saturates [frontOfParameter, front]) ∧
    frontOfParameter.valueKind 1 = .array (.scalar .int) ∧
    front.parameters = [⟨1, 0, .array (.scalar .int)⟩] ∧
    ∃ b, lowerLambda frontOfParameter [front] true = .ok b ∧ ∃ d f,
      b.functions = [d, f] ∧ b.diagnostics = [] ∧ d.name = functionName "front" ∧
      (d.name, [.name (.parameter 0), .deoptFlag]) ∈ f.calls ∧
      d.parameters = [.pointer (.scalar .int) (.parameter 0), .metadata (.parameter 0),
        .deoptFlag] := by
  refine ⟨?_, ?_, ?_, ?_⟩ <;> decide +kernel

end Lowering

end Kernelwright
