import Kernelwright.Graph.Basic

/-!
# Kinds of values

The kind of a node's value follows from the kinds of its operands. `Operation.valueKind` is the rule
for one operation; `Graph.valueKind` applies it down the operands. A node that depends on its own
kind has none: it is illegal, and so is everything that is not part of the graph. A phi has the kind
of its first value.
-/

namespace Kernelwright

/-! ### Rules -/

/-- The kind of a binary operation on scalars. Booleans take part in bitwise operations among
themselves only, floating-point numbers in no bitwise operation and no shift; a shift has the kind
of its left operand. -/
def BinaryOp.valueKind (op : BinaryOp) (a b : ScalarKind) : ValueKind :=
  if op.isBitwise ∧ a = .boolean ∧ b = .boolean then .scalar .boolean
  else if a = .boolean ∨ b = .boolean then .illegal
  else if op.isShift then
    if a.isIntegral ∧ b.isIntegral then .scalar (a.promote a) else .illegal
  else if op.isBitwise ∧ ¬(a.isIntegral ∧ b.isIntegral) then .illegal
  else .scalar (a.promote b)

def UnaryOp.valueKind (op : UnaryOp) (a : ScalarKind) : ValueKind :=
  match op with
  | .not =>
    if a = .boolean then .scalar .boolean
    else if a.isIntegral then .scalar (a.promote a)
    else .illegal
  | .neg => if a = .boolean then .illegal else .scalar (a.promote a)

def ValueKind.choice : ValueKind → ValueKind → ValueKind
  | .scalar a, .scalar b => if a = b then .scalar a else .scalar (a.promote b)
  | t, f => if t = f then t else .illegal

/-- The kind of a mathematical function: single precision unless an argument is wider or an
integer. -/
def mathKind (soFar : ScalarKind) : List ValueKind → ValueKind
  | [] => .scalar soFar
  | .scalar .boolean :: _ => .illegal
  | .scalar .float :: ks => mathKind soFar ks
  | .scalar _ :: ks => mathKind .double ks
  | _ :: _ => .illegal

/-- The kind of an operation, from the kinds of its operands. -/
def Operation.valueKind (infer : NodeId → ValueKind) : Operation → ValueKind
  | .parameter _ type => type.valueKind
  | .constant value => match value.kind? with
    | some k => .scalar k
    | none => .illegal
  | .unary op x => match infer x with
    | .scalar a => op.valueKind a
    | _ => .illegal
  | .binary op x y => match infer x, infer y with
    | .scalar a, .scalar b => op.valueKind a b
    | _, _ => .illegal
  | .compare _ x y => match infer x, infer y with
    | .scalar _, .scalar _ => .scalar .boolean
    | _, _ => .illegal
  | .normalizeCompare x y => match infer x, infer y with
    | .scalar _, .scalar _ => .scalar .int
    | _, _ => .illegal
  | .conditional _ t f => .choice (infer t) (infer f)
  | .convert target value => match infer value with
    | .scalar _ => .scalar target
    | _ => .illegal
  | .relabel _ value => infer value
  | .math _ args => mathKind .float (args.map infer)
  | .arrayLength array => match infer array with
    | .array _ => .scalar .int
    | _ => .illegal
  | .loadIndexed array _ => match infer array with
    | .array t => .ofType t
    | _ => .illegal
  | .loadField object field => match infer object with
    | .struct t => (t.fields[field.toNat]?).elim .illegal .ofType
    | _ => .illegal
  | .newInstance type _ => .ofType type
  | .newArray element _ => .array (.scalar element)
  | .invoke _ _ result => .ofType result
  | .mapChain _ _ _ element => .array element
  | .phi _ values => match values with
    | first :: _ => infer first
    | [] => .illegal

/-- The kind of a node, from the kinds of its operands. -/
def NodeKind.valueKind (infer : NodeId → ValueKind) : NodeKind → ValueKind
  | .control _ => .void
  | .operation o => o.valueKind infer
  | .unsupported .. => .illegal

/-! ### Inference -/

namespace Graph

/-- The nodes that can be referred to. -/
def ids (g : Graph) : List NodeId := (List.range (min g.nodes.size UInt32.size)).map .ofPosition

/-- The kind of a node, where only the nodes of `fresh` may be asked. Each node is asked at most
once on the way down, which is why the inference ends. -/
def valueKindIn (g : Graph) (fresh : List NodeId) (id : NodeId) : ValueKind :=
  if _h : id ∈ fresh then
    match g.kind? id with
    | some kind => kind.valueKind (valueKindIn g (fresh.erase id))
    | none => .illegal
  else .illegal
termination_by fresh.length
decreasing_by
  rw [List.length_erase_of_mem _h]
  have := List.length_pos_of_mem _h
  omega

def valueKind (g : Graph) (id : NodeId) : ValueKind := g.valueKindIn g.ids id

def returned? (n : Node) : Option NodeId :=
  match n.kind with
  | .control (.ret value) => value
  | _ => none

/-- The kind of the value that the graph returns, told by its first return that has one. -/
def returnKind (g : Graph) : ValueKind :=
  match g.nodes.toList.findSome? returned? with
  | some v => g.valueKind v
  | none => .void

end Graph

end Kernelwright
