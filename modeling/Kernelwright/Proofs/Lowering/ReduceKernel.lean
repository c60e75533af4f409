import Kernelwright.Proofs.Lowering.Entry
import Kernelwright.Proofs.Lowering.Folding
import Kernelwright.Proofs.Lowering.KernelSignature

/-!
# Kernels of reductions

The kernel of a reduction declares the dimensions of its arrays, opens, and then has the text of
`Reduction.loop`. Run on an array in memory it folds the lambda over the elements from the left. Run
on a sequence it gives the lambda of the first and the last element, as every round takes the first
element of the sequence anew.
-/

namespace Kernelwright.Lowering

open Code

variable {kind : ScalarKind} {k : KernelInput}

/-! ### Signatures -/

theorem parameters_reduce {lambda : String} {input output : ElementType} :
    (Skeleton.reduce lambda input output).parameters =
      [⟨8, Skeleton.inputParameter, .array input⟩,
        ⟨9, Skeleton.outputParameter, .array output⟩] :=
  Graph.parameters_of_pairwise rfl (List.pairwise_pair.2 rfl)

namespace Reduction

variable {d : Device} {rounds : Nat}

/-- What the signature of a reduction of scalars gives to its lowering. -/
structure Signed (kind : ScalarKind) (s : Signature) : Prop where
  symbols : s.symbols = table kind
  inputs : s.inputs = []
  outputs : s.outputs = []
  splitInput : s.splitInput = none
  splitOutput : s.splitOutput = none
  dimensions : ∀ array ∈ [input, output], array ∈ s.dimensions
  scope : ∀ a ∈ s.scope, ∃ j, a = .name (.parameter j) ∨ a = .withMetadata (.parameter j)

theorem signed_of_ofKernel {name : String} {lambda : Graph} {computation : Computation}
    {structs : Structs} {soa guards : Bool} {s : Signature}
    (h : Signature.ofKernel (Skeleton.reduce name (.scalar kind) (.scalar kind)) lambda
      computation structs soa guards = .ok s) : Signed kind s := by
  obtain ⟨s₁, hs₁, hgrows, _, dimensions, _, _, _, rfl⟩ := Signature.ofKernel_eq_ok h
  rw [parameters_reduce] at hs₁
  -- the arrays come first, and what follows them adds nothing for their nodes
  have harrays : Except.ok ⟨[.pointer (.scalar kind) input, .metadata input,
      .pointer (.scalar kind) output, .metadata output], [input, output], table kind,
        structs, [], [], none,
      none, [], 2⟩ = Except.ok s₁ := hs₁
  cases harrays
  refine ⟨rfl, rfl, rfl, rfl, rfl, fun array harray => List.mem_append_left _ harray,
    fun a ha => ?_⟩
  obtain ⟨j, -, hj⟩ := (hgrows.scope a ha).resolve_left nofun
  exact ⟨j, hj⟩

/-! ### Bodies -/

variable {r : Reduction} {lambdas : List Graph} {callers : List String} {g : Graph}
    {supply : Supply}
variable {lower : Graph → List String → Except KernelError Bundle}

theorem calls_functionFor : r.Calls (functionFor lambdas callers lower) := by
  intro p f q h
  rw [functionFor, Step.get_bind] at h
  dsimp only at h
  split at h
  · cases h
    exact ⟨rfl, _, rfl⟩
  · split at h
    · cases h
    · cases hg : lambdas.find? (·.name == r.lambda) with
      | none =>
        rw [hg] at h
        cases h
      | some g =>
        rw [hg] at h
        obtain ⟨b, -, h⟩ := Step.lift_bind_eq_ok.1 h
        cases h
        exact ⟨rfl, p.absorb b, rfl⟩

theorem lowerBody_loop {function : Functions} {dimensions : List Name} {opening : List Stmt}
    {p q : Progress} (hsupply : supply.Of r.kind r.sequence) (hfunction : r.Calls function)
    (hsymbols : p.symbols = table r.kind) (hbuffers : p.buffers = []) (hloops : p.loops = [])
    (h : lowerBody r.site lambdas function dimensions opening p = .ok ((), q)) :
    q.block = (r.loop supply).reverse
      ++ (opening.reverse ++ ((dimensions.map .dimension).reverse ++ p.block)) := by
  obtain ⟨p₁, start, x, hphis, hstart, hwalk⟩ := lowerBody_eq_ok h
  -- the skeleton has no merge, so there is no phi to declare
  have hnone : declareMergePhis r.site.graph = pure () := rfl
  rw [hnone] at hphis
  cases hphis
  cases hstart.symm.trans (show r.site.graph.start = .ok 0 from rfl)
  have hdepth : valueDepth r.site.graph = 19 + 3 := rfl
  rw [hdepth] at hwalk
  exact lowerWalk_loop hsupply hfunction hwalk hsymbols hbuffers hloops

/-! ### Runs -/

theorem execAll_dimensions {s : State} {ss : List Stmt} (dimensions : List Name) :
    execAll d rounds s (dimensions.map .dimension ++ ss)
      = execAll d rounds { s with dimensions := dimensions.reverse ++ s.dimensions } ss := by
  induction dimensions generalizing s with
  | nil => rfl
  | cons array dimensions ih =>
    rw [List.map_cons, List.cons_append, execAll, Stmt.exec, List.reverse_cons, List.append_assoc]
    exact ih

theorem execAll_opening (hcomputation : k.computation = .reduce) (guards : Bool) (d : Device)
    (rounds : Nat) (s : State) :
    ∃ flag, ∀ ss, execAll d rounds s (k.opening guards ++ ss)
      = execAll d rounds { s with flag := flag } ss := by
  have hopening : k.opening guards = if guards then [.clearFlag] else [] := by
    rw [KernelInput.opening, hcomputation]
    rfl
  cases guards with
  | false => exact ⟨s.flag, fun ss => by rw [hopening]; rfl⟩
  | true =>
    refine ⟨0, fun ss => ?_⟩
    rw [hopening, if_pos rfl, List.cons_append, execAll, Stmt.exec]
    rfl

variable {options : Options} {kernel : Code.Function} {b : Bundle} {extra : ExtraArrays}

/-- The reduction that a kernel is generated from, with its signature. -/
def ofKernel (k : KernelInput) (kind : ScalarKind) (options : Options) (s : Signature) :
    Reduction :=
  ⟨k.lambda.name, kind, k.sequence, options.guards, s.scope⟩

variable (hskeleton : k.skeleton = Skeleton.reduce k.lambda.name (.scalar kind) (.scalar kind))
variable (hcomputation : k.computation = .reduce) (hsupply : supply.Of kind k.sequence)
variable (h : k.lower options = .ok (kernel, b, extra))

include hskeleton hcomputation hsupply h

theorem lower_eq_ok :
    ∃ s, Signed kind s ∧ kernel.body = s.dimensions.map .dimension
      ++ (k.opening options.guards ++ (ofKernel k kind options s).loop supply) := by
  obtain ⟨s, p, hs, hbody, rfl, -⟩ := KernelInput.lower_eq_ok h
  have hsigned : Signed kind s := signed_of_ofKernel (hskeleton ▸ hs)
  have hsite : s.site k.skeleton (.kernel k.computation k.sequence) options.guards
      = (ofKernel k kind options s).site := by
    rw [Signature.site, hsigned.inputs, hsigned.outputs, hsigned.splitInput, hsigned.splitOutput,
      hcomputation, hskeleton]
    rfl
  rw [hsite] at hbody
  have hblock := lowerBody_loop hsupply calls_functionFor hsigned.symbols rfl rfl hbody
  exact ⟨s, hsigned, by simp [Progress.body, hblock, Progress.start]⟩

/-- The kernel of a reduction of scalars leaves what it has come to in the first cell of the
output. -/
theorem run_kernel {memory : Name → Option Region} {xs ys : Region} {x : Scalar} {zs : List Scalar}
    (hd : Serves d (zs.length + 1)) (hxs : memory input = some xs) (hys : memory output = some ys)
    (hkinds : xs.kind = kind ∧ ys.kind = kind) (hcells : 0 < xs.cells.length ∧ 0 < ys.cells.length)
    (hzs : zs ≠ []) (hword : zs.length + 1 < 2147483648) (hrounds : zs.length < rounds)
    (helements : ∀ i < zs.length + 1, supply.element? xs.cells i = (x :: zs)[i]?) :
    ∃ (r : Reduction) (s : State) (ys' : Region), r.lambda = k.lambda.name ∧ r.kind = kind ∧
      kernel.run d rounds memory = some s ∧ s.memory output = some ys' ∧
      ys'.cells[0]? = some (r.total supply d x zs) := by
  obtain ⟨s, hs, hbody⟩ := lower_eq_ok hskeleton hcomputation hsupply h
  obtain ⟨flag, hopening⟩ := execAll_opening hcomputation options.guards d rounds
    ⟨[], s.dimensions.reverse, memory, 0⟩
  have hfinds : (ofKernel k kind options s).Finds ⟨[], s.dimensions.reverse, memory, flag⟩ xs ys :=
    ⟨fun array harray => List.mem_reverse.2 (hs.dimensions array harray), hxs, hys, hkinds, hcells⟩
  have hscope : (ofKernel k kind options s).Passes := hs.scope
  obtain ⟨t, ys', hloop, hout, hcell⟩ : ∃ t ys', execAll d rounds _
      ((ofKernel k kind options s).loop supply) = some (.next, t) ∧ _ :=
    exec_loop hsupply hscope hd hzs hword hrounds hfinds (helements 0 (Nat.succ_pos _))
      fun j hj => helements (j + 1) (Nat.succ_lt_succ hj)
  refine ⟨_, t, ys', rfl, rfl, ?_, hout, hcell⟩
  rw [Code.Function.run, hbody, execAll_dimensions, List.append_nil, hopening, hloop]
  rfl

end Reduction

open Reduction (input output Serves)

/-- The kernel of a reduction of scalars always ends. On an array in memory it leaves the fold of
the lambda over the elements in the first cell of the output; on a sequence, the lambda of the first
and the last element. The elements of a sequence of integers are those that the host decodes, unless
their index is shifted by a word or more. -/
theorem reduce_kernel_result {k : KernelInput} {options : Options}
    {kernel : Code.Function} {b : Bundle}
    {extra : ExtraArrays} {kind : ScalarKind} {supply : Supply}
    (hskeleton : k.skeleton = Skeleton.reduce k.lambda.name (.scalar kind) (.scalar kind))
    (hcomputation : k.computation = .reduce) (hsupply : supply.Of kind k.sequence)
    (h : k.lower options = .ok (kernel, b, extra))
    {d : Device} {memory : Name → Option Region} {xs ys : Region} {x : Scalar} {zs : List Scalar}
    {rounds : Nat} (hd : Serves d (zs.length + 1)) (hxs : memory input = some xs)
    (hys : memory output = some ys) (hkinds : xs.kind = kind ∧ ys.kind = kind)
    (hcells : 0 < xs.cells.length ∧ 0 < ys.cells.length) (hzs : zs ≠ [])
    (hword : zs.length + 1 < 2147483648) (hrounds : zs.length < rounds)
    (helements : ∀ i < zs.length + 1, supply.element? xs.cells i = (x :: zs)[i]?) :
    ∃ s ys', kernel.run d rounds memory = some s ∧ s.memory output = some ys' ∧
      (k.sequence = none → ys'.cells[0]? = some (zs.foldl
        (fun a b => (d.call (functionName k.lambda.name) [a, b]).cast kind) x)) ∧
      (k.sequence ≠ none → ys'.cells[0]? = some
        ((d.call (functionName k.lambda.name) [x, zs.getLast hzs]).cast kind)) ∧
      ∀ p s t, supply = .progression p s t → IsIntegral p →
        (∀ k, p.rule = .divide → p.bound.asInt64.toInt = 2 ^ k → k < 32) →
        ∀ i < zs.length + 1, (x :: zs)[i]?.map .scalar = some (p.element i) := by
  obtain ⟨r, s, ys', hlambda, rfl, hrun, hout, hcell⟩ := Reduction.run_kernel hskeleton hcomputation
    hsupply h hd hxs hys hkinds hcells hzs hword hrounds helements
  refine ⟨s, ys', hrun, hout, fun hnone => ?_, fun hsome => ?_, ?_⟩
  · cases hnone ▸ hsupply
    rw [hcell, Reduction.total_memory, ← hlambda]
    rfl
  · obtain ⟨layout, hlayout⟩ := Option.ne_none_iff_exists'.1 hsome
    cases hlayout ▸ hsupply
    rw [hcell, Reduction.total_progression hzs, ← hlambda]
    rfl
  · rintro p s t rfl hp hnarrow i hi
    obtain ⟨hs, ht⟩ := Supply.scalars_of hsupply
    rw [← helements i hi]
    exact Supply.element?_integral hp hs ht hnarrow xs.cells (by omega)

/-! ### Sums -/

/-- Adds two integers. -/
def plus : Graph := .ofOperations "plus" [.parameter 0 (.scalar .int), .parameter 1 (.scalar .int),
  .binary .add 1 2]

def sums (sequence : Option SequenceLayout) : KernelInput where
  skeleton := Skeleton.reduce "plus" (.scalar .int) (.scalar .int)
  lambda := plus
  nested := []
  computation := .reduce
  input := .scalar .int
  output := .scalar .int
  sequence := sequence

/-- The integers from one on. -/
def upward : Progression := ⟨.scalar (.int 1), .scalar (.int 1), .scalar (.int 0), .linear⟩

theorem lower_sums (sequence : Option SequenceLayout) (h : sequence ∈ [none, some ⟨[upward]⟩]) :
    ∃ r, (sums sequence).lower Options.default = .ok r ∧ True := by
  have hparameters : plus.parameters = [⟨1, 0, .scalar .int⟩, ⟨2, 1, .scalar .int⟩] :=
    Graph.parameters_of_pairwise rfl (List.pairwise_pair.2 rfl)
  -- only the lambda itself is ever called
  have hfunction (depth : Nat) : functionFor (sums sequence).lambdas []
      (lowerBundle (sums sequence).lambdas Options.default.guards depth) =
      functionFor (sums sequence).lambdas []
        fun _ => lowerBundle (sums sequence).lambdas Options.default.guards depth plus := by
    funext lambda site
    rw [functionFor, functionFor]
    by_cases hname : plus.name == lambda <;> simp [KernelInput.lambdas, sums, hname]
  have hdepth : callDepth (sums sequence).lambdas = 1 + 1 := rfl
  rw [KernelInput.lower, hfunction, hdepth]
  simp only [sums, Signature.ofKernel, parameters_reduce, Signature.scopeParameters, lowerBundle,
    lowerFunction, Signature.ofFunction, hparameters]
  clear hfunction hdepth
  revert sequence
  decide +kernel

/-- A device that adds three integers. -/
def adder : Device where
  metadata array := if array = input then [3, 0] else [1, 0]
  call _ args :=
    match args with
    | [.int a, .int b] => .int (a + b)
    | _ => .int 0
  globalId := 0

theorem serves_adder : Serves adder 3 := ⟨rfl, 1, rfl⟩

def integers (cells : List Int32) : Region where
  kind := .int
  cells := cells.map .int
  kind_of_mem c hc := by
    obtain ⟨v, -, rfl⟩ := List.mem_map.1 hc
    rfl

/-- Some integers in the input, and room for one in the output. -/
def integerMemory (cells : List Int32) (array : Name) : Option Region :=
  if array = input then some (integers cells) else if array = output then some
    (integers [0]) else none

theorem integerMemory_arrays (a b c : Int32) :
    integerMemory [a, b, c] input = some (integers [a, b, c]) ∧
      integerMemory [a, b, c] output = some (integers [0]) ∧
      0 < (integers [a, b, c]).cells.length ∧ 0 < (integers [0]).cells.length :=
  ⟨rfl, rfl, Nat.succ_pos _, Nat.succ_pos _⟩

/-- The sum of three integers in memory. -/
theorem sums_in_memory : ∃ kernel b extra s ys,
    (sums none).lower Options.default = .ok (kernel, b, extra) ∧
    kernel.run adder 3 (integerMemory [1, 2, 3]) = some s ∧ s.memory output = some ys ∧
    ys.cells[0]? = some (.int 6) := by
  obtain ⟨⟨kernel, b, extra⟩, hlower, -⟩ := lower_sums none (by decide)
  obtain ⟨hin, hout, hcells⟩ := integerMemory_arrays 1 2 3
  have helements : ∀ i < [Scalar.int 2, .int 3].length + 1,
      (Supply.memory .int).element? (integers [1, 2, 3]).cells i
        = (.int 1 :: [.int 2, .int 3])[i]? := fun i _ => rfl
  have hrounds : [Scalar.int 2, .int 3].length < 3 := by decide
  obtain ⟨s, ys, hrun, hys, hfold, -⟩ :=
    reduce_kernel_result rfl rfl .memory hlower serves_adder hin
    hout ⟨rfl, rfl⟩ hcells (by decide) (by decide) hrounds helements
  exact ⟨kernel, b, extra, s, ys, hlower, hrun, hys, hfold rfl⟩

/-- The sum of three integers that are a sequence is that of the first and the last one. -/
theorem sums_of_sequence : (∀ i < 3, upward.element i = .scalar (.int (.ofNat (i + 1)))) ∧
    [Scalar.int 2, .int 3].foldl (fun a b => (adder.call (functionName plus.name) [a, b]).cast .int)
      (.int 1) = .int 6 ∧
    ∃ kernel b extra s ys, (sums (some ⟨[upward]⟩)).lower Options.default = .ok (kernel, b, extra) ∧
      kernel.run adder 3 (integerMemory [0, 0, 0]) = some s ∧ s.memory output = some ys ∧
      ys.cells[0]? = some (.int 4) := by
  have hsupply : (Supply.progression upward (.int 1) (.int 1)).Of .int (some ⟨[upward]⟩) :=
    .progression rfl rfl rfl
  obtain ⟨⟨kernel, b, extra⟩, hlower, -⟩ := lower_sums (some ⟨[upward]⟩) (by decide)
  obtain ⟨hin, hout, hcells⟩ := integerMemory_arrays 0 0 0
  have helements : ∀ i < [Scalar.int 2, .int 3].length + 1,
      (Supply.progression upward (.int 1) (.int 1)).element? (integers [0, 0, 0]).cells i
        = (.int 1 :: [.int 2, .int 3])[i]? := by decide
  have hrounds : [Scalar.int 2, .int 3].length < 3 := by decide
  obtain ⟨⟨lambda, kind, sequence, guards, scope⟩, s, ys, rfl, rfl, hrun, hys, hcell⟩ :=
    Reduction.run_kernel rfl rfl hsupply hlower serves_adder hin hout ⟨rfl, rfl⟩ hcells (by decide)
      (by decide) hrounds helements
  exact ⟨by decide, rfl, kernel, b, extra, s, ys, hlower, hrun, hys, hcell⟩

end Kernelwright.Lowering
