import Kernelwright.Code.Printer
import Kernelwright.Lowering.Control
import Kernelwright.Lowering.Signature
import Kernelwright.Options

/-!
# Bundles

A bundle is what the lowering of a lambda gives: its function after those of the lambdas that it
calls, the structs that they need, and the findings. A lambda is lowered once for each caller, and
never inside of itself.
-/

namespace Kernelwright.Lowering

open Code

/-- The result of lowering a lambda. -/
structure Bundle where
  /-- The functions, callees first. -/
  functions : List Function
  structs : Structs
  diagnostics : List Diagnostic
deriving Repr

/-! ### Bodies -/

/-- Declare the phis of merges, which are assigned in several arms. -/
def declareMergePhis (g : Graph) : Lower Unit :=
  g.mergePhis.forM fun phi => do
    let kind := g.valueKind phi
    match ← typeOf? kind with
    | some .void | none => discard (suppress phi "phi of undetermined kind")
    | some type =>
      let name ← fresh .phi
      emit (.reserve type name)
      bind name phi kind

/-- How many nodes a path of operands can have before it repeats one. -/
def valueDepth (g : Graph) : Nat := g.nodes.size + 1

/-- How many nodes a walk can have one inside the other before it repeats one without having lowered
a merge in between. -/
def walkLength (g : Graph) : Nat :=
  let merges := (g.nodes.filter fun n => Graph.mergeSort n.kind).size
  (g.nodes.size + 1) * (merges + 2)

/-- Lower the body of a graph, after some statements that open it. -/
def lowerBody (site : Site) (lambdas : List Graph) (function : Functions) (dimensions : List Name)
    (opening : List Stmt) : Lower Unit := do
  dimensions.forM fun array => emit (.dimension array)
  declareMergePhis site.graph
  opening.forM emit
  let start ← site.graph.start
  let value := lowerValue site lambdas function (valueDepth site.graph)
  discard (lowerWalk site value (walkLength site.graph) start)

def Progress.body (p : Progress) : List Stmt := p.block.reverse

/-! ### Functions -/

def addFunctions (fs : List Function) : List Function → List Function
  | [] => fs
  | f :: rest => addFunctions (if fs.any (·.name == f.name) then fs else fs ++ [f]) rest

/-- Take over what the bundle of a callee holds. -/
def Progress.absorb (p : Progress) (b : Bundle) : Progress :=
  { p with
    structs := p.structs.merge b.structs
    diagnostics := p.diagnostics ++ b.diagnostics
    functions := addFunctions p.functions b.functions }

/-- The function of a lambda, lowered by `lower` if the caller has none of its name. A lambda that
is being lowered already cannot be called. -/
def functionFor (lambdas : List Graph) (callers : List String)
    (lower : Graph → List String → Except KernelError Bundle) (lambda : String) (site : NodeId) :
    Lower String := do
  let name := functionName lambda
  if (← get).functions.any (·.name == name) then return name
  if lambda ∈ callers then throw (.misplaced site "Invoke")
  match lambdas.find? (·.name == lambda) with
  | none => throw (.missingLambda lambda)
  | some g =>
    let b ← lower g (callers ++ [lambda])
    modify (·.absorb b)
    return name

def lowerFunction (lambdas : List Graph) (guards : Bool) (g : Graph) (function : Functions) :
    Except KernelError Bundle := do
  match CType.ofKind? g.returnKind with
  | none => .error (.missingType ("return type of lambda `" ++ g.name ++ "`"))
  | some result =>
    let structs := ((Signature.empty .empty).needs result).structs
    let s ← Signature.ofFunction g structs guards
    let site := s.site g .function guards
    let (_, p) ← (lowerBody site lambdas function s.dimensions []).run (.start s.symbols s.structs)
    let f : Function := ⟨.function result (functionName g.name), s.parameters, p.body⟩
    return ⟨p.functions ++ [f], p.structs, p.diagnostics⟩

/-- Lower a graph that is called from some lambdas, through at most `depth` calls. -/
def lowerBundle (lambdas : List Graph) (guards : Bool) :
    (depth : Nat) → Graph → (callers : List String) → Except KernelError Bundle
  | 0, _, _ => .error .endless
  | depth + 1, g, callers =>
    lowerFunction lambdas guards g
      (functionFor lambdas callers (lowerBundle lambdas guards depth))

/-- How deep calls can nest, as no lambda is lowered inside of itself. -/
def callDepth (lambdas : List Graph) : Nat := lambdas.length + 1

/-- Lower a lambda and the lambdas that it calls, among `nested`. -/
def lowerLambda (lambda : Graph) (nested : List Graph) (guards : Bool) :
    Except KernelError Bundle := do
  lambda.validate
  let lambdas := lambda :: nested
  lowerBundle lambdas guards (callDepth lambdas) lambda [lambda.name]

/-- The names and texts of the functions of a lambda. -/
def lowerTexts (lambda : Graph) (nested : List Graph) (options : Options) :
    Except KernelError (List (String × String)) := do
  let b ← lowerLambda lambda nested options.guards
  return b.functions.map fun f => (f.name, f.text options.comments)

end Kernelwright.Lowering
