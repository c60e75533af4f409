import Kernelwright.Proofs.Code.Symbols
import Kernelwright.Proofs.Lowering.Sequences

/-!
# Lowering step by step

What the steps of lowering give where nothing stands in their way: a value that has a name is not
lowered again, an element of an array or of a progression is declared, a call passes its operands.
-/

namespace Kernelwright.Lowering

open Code

variable {site : Site} {lambdas : List Graph} {function : Functions} {value : Values}
variable {p p₁ p₂ : Progress} {id array index a b : NodeId} {x y arr idx : Name} {k : ScalarKind}
variable {depth : Nat} {op : Operation}

/-! ### Values -/

theorem lowerValue_named (h : p.symbols.nameOf? id = some x) :
    lowerValue site lambdas function (depth + 1) id p = .ok (x, p) := by
  have hname : nameOf? id p = .ok (some x, p) := congrArg (fun n => Except.ok (n, p)) h
  show (nameOf? id >>= _) p = _
  rw [Step.bind_of_ok hname]
  rfl

theorem lowerValue_operation (h : p.symbols.nameOf? id = none)
    (hkind : site.graph.kind? id = some (.operation op)) :
    lowerValue site lambdas function (depth + 1) id p
      = lowerOperation site lambdas (lowerValue site lambdas function depth) function id op
        { p with block := .mark (NodeKind.operation op).name id :: p.block } := by
  have hname : nameOf? id p = .ok (none, p) := congrArg (fun n => Except.ok (n, p)) h
  have hkind : site.graph.kind id = .ok (.operation op) := by rw [Graph.kind, hkind]
  show (nameOf? id >>= _) p = _
  rw [Step.bind_of_ok hname, hkind]
  rfl

theorem operands_two (ha : value a p = .ok (x, p₁)) (hb : value b p₁ = .ok (y, p₂))
    (hx : x ≠ .illegal) (hy : y ≠ .illegal) : operands value [a, b] p = .ok (some [x, y], p₂) := by
  rw [operands, Step.bind_of_ok ha, if_neg hx, operands]
  show ((value b >>= _) >>= _) p₁ = _
  rw [bind_assoc, Step.bind_of_ok hb, if_neg hy]
  rfl

/-! ### Elements of the input -/

/-- Where a kernel takes the elements of its input from. -/
inductive Supply where
  /-- An array in global memory. -/
  | memory (kind : ScalarKind)
  /-- A progression with a scalar for its start and its stride. -/
  | progression (p : Progression) (start stride : Scalar)

namespace Supply

/-- The name of an element, with the next number for fresh names. -/
def name (n : Nat) : Supply → Name
  | memory _ => .fresh .element n
  | progression .. => .fresh .field n

def declarations (array index : Name) (n : Nat) : Supply → List Stmt
  | memory k =>
    [.declare (.scalar k) (.fresh .element n) (.place (.offsetCell array array index)) .none]
  | progression p s t =>
    Lowering.declarations p s (t.cast s.kind) index (.fresh .thread (n + 1)) (.fresh .field n)

/-- How many names an element takes. -/
def width : Supply → Nat
  | memory _ => 1
  | progression p .. => if (indexRule? p).isSome then 2 else 1

/-- The elements of an input of some kind, without or with a layout. -/
inductive Of (k : ScalarKind) : Option SequenceLayout → Supply → Prop where
  | memory : Of k none (.memory k)
  | progression {layout : SequenceLayout} {p : Progression} {s t : Scalar}
      (hp : layout.fields[0]? = some p) (hs : p.start = .scalar s) (ht : p.stride = .scalar t) :
      Of k (some layout) (.progression p s t)

end Supply

/-- The table where a node has a name, and some numbers for fresh names have been taken. -/
def gain (t : SymbolTable Name) (taken : Nat) (x : Name) (id : NodeId) (κ : ValueKind) :
    SymbolTable Name :=
  { t with counter := t.counter + taken }.bind x id κ

theorem lowerLoad_eq {supply : Supply}
    (hsupply : supply.Of k (if isInput site.graph array then site.mode.sequence? else none))
    (harr : value array p = .ok (arr, p)) (hidx : value index p = .ok (idx, p))
    (hkind : site.graph.valueKind id = .scalar k) (hlegal : arr ≠ .illegal ∧ idx ≠ .illegal)
    (hinput : site.splitInput = none) (houtput : site.splitOutput = none)
    (hbuffers : p.buffers = []) :
    lowerLoad site value id array index p = .ok (supply.name p.symbols.counter, { p with
      symbols := gain p.symbols supply.width (supply.name p.symbols.counter) id (.scalar k)
      block := (supply.declarations arr idx p.symbols.counter).reverse ++ p.block }) := by
  obtain ⟨symbols, structs, diagnostics, functions, loops, merges, buffers, elements, block⟩ := p
  cases hbuffers
  rw [lowerLoad, Step.bind_of_ok harr, Step.bind_of_ok hidx, hkind,
    if_neg (by simpa [ValueKind.isIllegal] using hlegal), hinput, houtput]
  cases hin : isInput site.graph array with
  | false =>
    rw [hin] at hsupply
    cases hsupply
    cases site.mode.sequence? <;> rfl
  | true =>
    rw [hin, if_pos rfl] at hsupply
    cases hseq : site.mode.sequence? with
    | none =>
      rw [hseq] at hsupply
      cases hsupply
      rfl
    | some layout =>
      rw [hseq] at hsupply
      cases hsupply with
      | progression hq hs ht =>
        show (lowerProgression layout id 0 idx >>= _) _ = _
        rw [Step.bind_of_ok (lowerProgression_eq hq hs ht id idx _)]
        rfl

/-! ### Calls -/

theorem lowerCall_eq {f lambda : String} {args : List NodeId} {names : List Name}
    (hf : function lambda id p = .ok (f, p₁))
    (hoperands : operands value args p₁ = .ok (some names, p₂))
    (hmode : site.mode.isKernel = true) :
    lowerCall site value function id lambda args (.scalar k) p
      = declare id .callResult (.scalar k) (.call f (site.scope ++ names.map .name
        ++ if site.guards then [.deoptFlag] else [])) p₂ := by
  rw [lowerCall, Step.bind_of_ok hf, Step.bind_of_ok hoperands, hmode]
  rfl

end Kernelwright.Lowering
