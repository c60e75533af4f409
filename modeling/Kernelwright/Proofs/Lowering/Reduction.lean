import Kernelwright.Proofs.Lowering.Stepwise
import Kernelwright.Proofs.Lowering.Walk

/-!
# The text of reductions

The kernel that the skeleton of a reduction is lowered to, for elements that are scalars. A round
takes the first element of the input and the one at the index, calls the lambda, and stores the
result in the first cells of the output and of the input. `Reduction.loop` is that text, and
lowering writes it, whatever the options are.
-/

namespace Kernelwright

open Code

namespace Lowering

/-- A reduction of scalars, as its kernel depends on it. -/
structure Reduction where
  lambda : String
  kind : ScalarKind
  sequence : Option SequenceLayout
  guards : Bool
  /-- What the lambda is passed from its scope. -/
  scope : List Argument

namespace Reduction

variable (r : Reduction)
variable {id array index : NodeId} {x : Name} {exit : Option NodeId} {outer : List LoopFrame}

def graph : Graph := Skeleton.reduce r.lambda (.scalar r.kind) (.scalar r.kind)

/-- What the lowering of a reduction reads. -/
def site : Site where
  graph := r.graph
  mode := .kernel .reduce r.sequence
  guards := r.guards
  inputs := []
  outputs := []
  splitInput := none
  splitOutput := none
  scope := r.scope

/-! ### The text -/

def input : Name := .parameter 0

def output : Name := .parameter 1

def first (array : Name) : Place := .offsetCell array array (.literal (.int 0))

variable (supply : Supply) (n : Nat)

/-- The call of a round, where `n` is the next number for fresh names. -/
def call : List Stmt :=
  .mark "Invoke" 18 :: .mark "LoadIndexed" 16
    :: supply.declarations input (.literal (.int 0)) n
    ++ .mark "LoadIndexed" 17 :: supply.declarations input .reductionIndex (n + supply.width)
    ++ [.declare (.scalar r.kind) (.fresh .callResult (n + supply.width + supply.width))
      (.call (functionName r.lambda)
        (r.scope ++ [.name (supply.name n), .name (supply.name (n + supply.width))]
          ++ if r.guards then [.deoptFlag] else [])) .none]

def copyBack : List Stmt :=
  [.mark "StoreIndexed" 5, .mark "LoadIndexed" 19,
    .declare (.scalar r.kind) (.fresh .element n) (.place (first output)) .none,
    .assign (first input) (.place (.name (.fresh .element n))), .mark "LoopEnd" 6]

/-- A round that finds an element: the call, the store of its result, and the copy of that. -/
def update : List Stmt :=
  .mark "Begin" 3 :: .mark "StoreIndexed" 4 :: .mark "Constant" 11 :: r.call supply n
    ++ .assign (first output)
      (.place (.name (.fresh .callResult (n + supply.width + supply.width))))
    :: r.copyBack (n + supply.width + supply.width + 1)

def round : List Stmt :=
  [.mark "If" 2, .mark "Compare" 15,
    .declare (.scalar .boolean) (.fresh .condition 0)
      (.compare .lt .reductionIndex (.length input)) .none,
    .branch (.fresh .condition 0) (r.update supply 1)
      [.mark "LoopExit" 7, .mark "Return" 20, .leave]]

/-- The kernel behind its opening. -/
def loop : List Stmt :=
  [.mark "Start" 0, .mark "LoopBegin" 1, .mark "Constant" 12, .mark "ArrayLength" 10,
    .declare (.scalar .int) (.length input) (.length input) .none,
    .loop (.reduction (.literal (.int 1)) (.length input)) (r.round supply)]

/-! ### Kinds -/

variable {r}

theorem valueKind_condition : r.graph.valueKind 15 = .scalar .boolean := by with_unfolding_all rfl

theorem valueKind_of_mem (h : id ∈ [16, 17, 18, 19]) :
    r.graph.valueKind id = .scalar r.kind := by
  simp only [List.mem_cons, List.not_mem_nil, or_false] at h
  obtain rfl | rfl | rfl | rfl := h <;> with_unfolding_all rfl

/-! ### Names -/

/-- The names that the signature of the kernel gives. -/
def table (k : ScalarKind) : SymbolTable Name :=
  (SymbolTable.empty.bind input 8 (.array (.scalar k))).bind output 9 (.array (.scalar k))

def indexed (r : Reduction) (t : SymbolTable Name) : SymbolTable Name :=
  (t.bind (.literal (.int 1)) 12 (r.graph.valueKind 12)).bind .reductionIndex 13
    (r.graph.valueKind 13)

/-- The names at the start of a round. -/
def names (r : Reduction) : SymbolTable Name :=
  ((r.indexed (table r.kind)).bind (.length input) 10 (.scalar .int)).enter

/-- The names behind the test of a round. -/
def tested (r : Reduction) : SymbolTable Name :=
  gain r.names 1 (.fresh .condition 0) 15 (.scalar .boolean)

/-- The names where a round stores its result. -/
def storeNames (r : Reduction) : SymbolTable Name :=
  r.tested.enter.bind (.literal (.int 0)) 11 (r.graph.valueKind 11)

/-- The names behind the call of a round. -/
def resultNames (r : Reduction) (supply : Supply) : SymbolTable Name :=
  let t := gain (gain r.storeNames supply.width (supply.name 1) 16 (.scalar r.kind)) supply.width
    (supply.name (1 + supply.width)) 17 (.scalar r.kind)
  gain t 1 (.fresh .callResult t.counter) 18 (.scalar r.kind)

/-- Lowering stands at some names, loops and text. -/
def stand (p : Progress) (t : SymbolTable Name) (loops : List LoopFrame) (block : List Stmt) :
    Progress :=
  { p with symbols := t, loops := loops, buffers := [], block := block }

/-! ### Values -/

variable {lambdas : List Graph} {function : Functions} {supply : Supply} {p q : Progress}
variable {n depth steps : Nat} {loops : List LoopFrame} {block : List Stmt}

abbrev values (r : Reduction) (lambdas : List Graph) (function : Functions) (depth : Nat) :
    Values :=
  lowerValue r.site lambdas function (depth + 3)

theorem lowerValue_element {arr idx : Name} (h : p.symbols.nameOf? id = none)
    (hload : r.site.graph.kind? id = some (.operation (.loadIndexed array index)))
    (hid : id ∈ [16, 17, 18, 19])
    (hsupply : supply.Of r.kind (if isInput r.graph array then r.sequence else none))
    (harr : p.symbols.nameOf? array = some arr) (hidx : p.symbols.nameOf? index = some idx)
    (hlegal : arr ≠ .illegal ∧ idx ≠ .illegal) (hbuffers : p.buffers = []) :
    lowerValue r.site lambdas function (depth + 2) id p = .ok (supply.name p.symbols.counter,
      { p with
        symbols := gain p.symbols supply.width (supply.name p.symbols.counter) id (.scalar r.kind)
        block :=
          (supply.declarations arr idx p.symbols.counter).reverse ++ .mark "LoadIndexed"
            id :: p.block }) :=
  (lowerValue_operation h hload).trans
    (lowerLoad_eq hsupply (lowerValue_named harr) (lowerValue_named hidx)
    (valueKind_of_mem hid) hlegal rfl rfl hbuffers)

theorem name_ne_illegal (supply : Supply) (n : Nat) : supply.name n ≠ .illegal := by
  cases supply <;> exact nofun

/-! ### Rounds -/

/-- The lowering of control flow in a reduction. -/
abbrev walk (r : Reduction) (lambdas : List Graph) (function : Functions) (depth steps : Nat) :
    Walk :=
  lowerWalk r.site (r.values lambdas function depth) steps

theorem lowerWalk_copyBack
    (h : r.walk lambdas function depth steps 5
      (stand p (r.resultNames supply) (⟨true, true⟩ :: outer) block) = .ok (exit, q)) :
    exit = none ∧ q.block = (r.copyBack (1 + supply.width + supply.width + 1)).reverse ++ block ∧
      q.loops = ⟨true, true⟩ :: outer := by
  have hstore : r.site.graph.kind? 5 = some (.control (.storeIndexed 8 11 19 6)) := rfl
  have hback : r.site.graph.kind? 6 = some (.control (.backEdge 1)) := rfl
  have hload : r.site.graph.kind? 19 = some (.operation (.loadIndexed 9 11)) := rfl
  obtain ⟨_, h⟩ := lowerWalk_eq_ok hstore h
  obtain ⟨_, _, hvalues, h⟩ := Step.bind_eq_ok.1 h
  replace hvalues := Step.after_ok (lowerValue_named rfl) hvalues
  replace hvalues := Step.after_ok (lowerValue_named rfl) hvalues
  replace hvalues := Step.after_ok
    (lowerValue_element rfl hload (by decide) .memory rfl rfl (by constructor <;> rintro ⟨⟩) rfl)
      hvalues
  cases hvalues
  obtain ⟨_, h⟩ := lowerWalk_eq_ok hback h
  cases h
  exact ⟨rfl, rfl, rfl⟩

theorem lowerWalk_exit (h : r.walk lambdas function depth steps 7 p = .ok (exit, q))
    (hloops : p.loops = ⟨true, true⟩ :: outer) (hblock : p.block = []) :
    exit = none ∧ q.block = [.leave, .mark "Return" 20, .mark "LoopExit" 7] := by
  have hexit : r.site.graph.kind? 7 = some (.control (.loopExit 1 20)) := rfl
  have hreturn : r.site.graph.kind? 20 = some (.control (.ret none)) := rfl
  obtain ⟨symbols, structs, diagnostics, functions, loops, merges, buffers, elements, block⟩ := p
  cases hloops
  cases hblock
  obtain ⟨_, h⟩ := lowerWalk_eq_ok hexit h
  obtain ⟨_, p₁, hret, h⟩ := Step.bind_eq_ok.1 h
  obtain ⟨_, hret⟩ := lowerWalk_eq_ok hreturn hret
  cases hret
  cases h
  exact ⟨rfl, rfl⟩

/-- What is called for the lambda has its name, and nothing is written here where it is lowered. -/
def Calls (r : Reduction) (function : Functions) : Prop :=
  ∀ p f q, function r.lambda 18 p = .ok (f, q) → f = functionName r.lambda ∧
    ∃ p' : Progress, q =
      { p' with symbols := p.symbols, loops := p.loops, buffers := p.buffers, block := p.block }

variable (hsupply : supply.Of r.kind r.sequence) (hfunction : r.Calls function)
include hsupply hfunction

theorem lowerValue_call
    (h : r.values lambdas function depth 18 (stand p r.storeNames loops block) = .ok (x, q)) :
    x = .fresh .callResult (1 + supply.width + supply.width) ∧
      ∃ p', q = stand p' (r.resultNames supply) loops ((r.call supply 1).reverse ++ block) := by
  have hkind : r.site.graph.kind? 18
      = some (.operation (.invoke (.lambda r.lambda) [16, 17] (.scalar r.kind))) := rfl
  have hload : r.site.graph.kind? 16 = some (.operation (.loadIndexed 8 11)) := rfl
  have hload' : r.site.graph.kind? 17 = some (.operation (.loadIndexed 8 13)) := rfl
  rw [values, lowerValue_operation rfl hkind] at h
  obtain ⟨f, p₁, hf, -⟩ := Step.bind_eq_ok.1 (show (function r.lambda 18 >>= _) _ = _ from h)
  obtain ⟨rfl, p', rfl⟩ := hfunction _ _ _ hf
  let p₁ := stand p' r.storeNames loops (.mark "Invoke" 18 :: block)
  have hoperands : operands (lowerValue r.site lambdas function (depth + 2)) [16, 17] p₁ = _ :=
    operands_two
      (lowerValue_element rfl hload (by decide) hsupply rfl rfl (by constructor <;> rintro ⟨⟩) rfl)
      (lowerValue_element rfl hload' (by decide) hsupply rfl rfl (by constructor <;> rintro ⟨⟩) rfl)
      (name_ne_illegal supply _) (name_ne_illegal supply _)
  change lowerCall r.site _ function 18 r.lambda [16, 17] (r.graph.valueKind 18) _ = _ at h
  rw [valueKind_of_mem (by decide), lowerCall_eq hf hoperands rfl] at h
  cases h
  refine ⟨rfl, p', congrArg (stand p' (r.resultNames supply) loops) ?_⟩
  simp only [call, List.reverse_append, List.reverse_cons, List.append_assoc, List.cons_append]
  rfl

theorem lowerWalk_update
    (h : r.walk lambdas function depth steps 3 (stand p r.tested (⟨true, true⟩ :: outer) block)
      = .ok (exit, q)) :
    exit = none ∧ q.block = (r.update supply 1).reverse ++ block ∧
      q.loops = ⟨true, true⟩ :: outer := by
  have hbegin : r.site.graph.kind? 3 = some (.control (.region 4)) := rfl
  have hstore : r.site.graph.kind? 4 = some (.control (.storeIndexed 9 11 18 5)) := rfl
  obtain ⟨_, h⟩ := lowerWalk_eq_ok hbegin h
  obtain ⟨q, hbody, rfl⟩ := inScope_eq_ok h
  obtain ⟨_, hbody⟩ := lowerWalk_eq_ok hstore hbody
  obtain ⟨_, p₃, hvalues, hback⟩ := Step.bind_eq_ok.1 hbody
  replace hvalues := Step.after_ok (lowerValue_named rfl) hvalues
  replace hvalues := Step.after_ok rfl hvalues
  obtain ⟨x, p₂, hcall, hvalues⟩ := Step.bind_eq_ok.1 hvalues
  obtain ⟨rfl, p', rfl⟩ := lowerValue_call (p := p) hsupply hfunction hcall
  cases hvalues
  obtain ⟨rfl, hblock, hloops⟩ := lowerWalk_copyBack (p := p') hback
  refine ⟨rfl, hblock.trans ?_, hloops⟩
  simp only [update, List.reverse_append, List.reverse_cons, List.append_assoc, List.cons_append]
  rfl

theorem lowerWalk_round
    (h : r.walk lambdas function depth steps 2 (stand p r.names (⟨true, true⟩ :: outer) block)
      = .ok (exit, q)) :
    q.block = (r.round supply).reverse ++ block := by
  have hif : r.site.graph.kind? 2 = some (.control (.branch 15 3 7)) := rfl
  obtain ⟨_, h⟩ := lowerWalk_eq_ok hif h
  obtain ⟨a, p₂, x₁, q₁, x₂, q₂, htest, htrue, hfalse, hrest⟩ := lowerBranch_cases h
  change declare 15 .condition (r.graph.valueKind 15)
    (.compare .lt .reductionIndex (.length input)) _ = _
    at htest
  rw [valueKind_condition] at htest
  cases htest
  obtain ⟨rfl, hblock₁, hloops₁⟩ := lowerWalk_update (p := p) hsupply hfunction htrue
  obtain ⟨rfl, hblock₂⟩ := lowerWalk_exit hfalse hloops₁ rfl
  obtain ⟨-, -, -, rfl⟩ | ⟨m, hm, -⟩ := hrest
  · show Stmt.branch _ q₁.block.reverse q₂.block.reverse :: _ = _
    rw [hblock₁, hblock₂, List.append_nil, List.reverse_reverse]
    rfl
  · cases hm

/-! ### The loop -/

theorem lowerWalk_loop (h : r.walk lambdas function depth steps 0 p = .ok (exit, q))
    (hsymbols : p.symbols = table r.kind) (hbuffers : p.buffers = []) (hloops : p.loops = []) :
    q.block = (r.loop supply).reverse ++ p.block := by
  have hstart : r.site.graph.kind? 0 = some (.control (.start 1)) := rfl
  have hloop : r.site.graph.kind? 1 = some (.control (.loopHead 2 (some 10))) := rfl
  obtain ⟨symbols, structs, diagnostics, functions, loops, merges, buffers, elements, block⟩ := p
  cases hsymbols
  cases hbuffers
  cases hloops
  obtain ⟨_, h⟩ := lowerWalk_eq_ok hstart h
  obtain ⟨_, h⟩ := lowerWalk_eq_ok hloop h
  -- the index and the bound of the loop get their names in front of it
  iterate 4 replace h := Step.after_ok rfl h
  obtain ⟨⟨_, body⟩, p₃, hbody, h⟩ := Step.bind_eq_ok.1 h
  cases h
  obtain ⟨q₁, hscope, rfl, rfl⟩ := inBlock_eq_ok hbody
  obtain ⟨q₂, hround, rfl⟩ := inScope_eq_ok hscope
  have hblock := lowerWalk_round hsupply hfunction hround
  show Stmt.loop _ q₂.block.reverse :: _ = _
  rw [hblock, List.append_nil, List.reverse_reverse]
  rfl

end Reduction

end Lowering

end Kernelwright
