import Kernelwright.Lowering.Context

/-!
# Lowering values

Every value that a control node uses is given a name first. A constant is its literal and a
relabelling shares the name of its operand; most operations declare a variable. A value that cannot
be named is suppressed, and so is everything computed from it.

The functions here are given the lowering of operands, `value`, and of lambdas, `function`; the
recursion is tied elsewhere.
-/

namespace Kernelwright.Lowering

open Code

abbrev Values := NodeId → Lower Name

/-- The lowering of a lambda, called at a node; gives the name of its function. -/
abbrev Functions := String → NodeId → Lower String

/-- The names of operands; `none` as soon as one is illegal. -/
def operands (value : Values) : List NodeId → Lower (Option (List Name))
  | [] => return some []
  | id :: ids => do
    let name ← value id
    if name = .illegal then return none
    match ← operands value ids with
    | some names => return some (name :: names)
    | none => return none

def suppressOperand (id : NodeId) : Lower Name := suppress id "operand of undetermined kind"

/-! ### Arithmetic -/

def unaryExpr (op : UnaryOp) (result : Option ScalarKind) (x : Name) : Expr :=
  match op with
  | .neg => .neg x
  | .not => if result = some .boolean then .not x else .complement x

/-- The expression of a binary operation; `left` is the kind of its first operand. -/
def binaryExpr (op : BinaryOp) (result : ScalarKind) (left : Option ScalarKind) (x y : Name) :
    Expr :=
  match op with
  | .rem => if result.isFloating then .remainder x y else .binary .rem x y
  | .ushr => .unsignedShift result (left = some .long) x y
  | op => .binary op x y

/-- An argument of a mathematical function, cast to the kind of the result if it has another. -/
def mathArgument (g : Graph) (result : ScalarKind) (id : NodeId) (x : Name) :
    Option ScalarKind × Name :=
  (if (g.valueKind id).scalar? = some result then none else some result, x)

def lowerMath (g : Graph) (value : Values) (id : NodeId) (op : MathOp) (args : List NodeId) :
    Lower Name := do
  if args.length ≠ op.arity then return ← suppress id "math intrinsic with wrong operand count"
  match ← operands value args with
  | none => suppressOperand id
  | some names =>
    match (g.valueKind id).scalar? with
    | none => suppress id "math intrinsic on non-scalar operands"
    | some result =>
      declare id .result (g.valueKind id)
        (.math op ((args.zip names).map fun (arg, x) => mathArgument g result arg x))

/-! ### Arrays -/

/-- The place of an element: in private memory the cell itself, else at the base offset. -/
def elementPlace (array index : Name) : Lower Place := do
  match ← bufferLength? array with
  | some _ => return .cell array index
  | none => return .offsetCell array array index

/-- Lower the length of an array. It is read once for all nodes that see the variable. -/
def lowerLength (value : Values) (id array : NodeId) : Lower Name := do
  let arr ← value array
  if arr = .illegal then
    return ← suppress id "length of an array of undetermined kind"
  match ← bufferLength? arr with
  | some length =>
    bind length id (.scalar .int)
    return length
  | none =>
    let name := Name.length arr
    if ((← get).symbols.meaning? name).isNone then
      emit (.declare (.scalar .int) name (.length arr) .none)
    bind name id (.scalar .int)
    return name

/-- How the index of a progression is made; `none` where the element's index is used as it is. -/
def indexRule? (p : Progression) : Option IndexRule :=
  let bound := p.bound.asInt64.toInt
  if bound ≤ 0 then none
  else
    let power := Nat.log2 bound.toNat
    let isPower := bound.toNat = Nat.pow 2 power
    match p.rule with
    | .linear => none
    | .divide => some (if isPower then .shift power else .divide bound)
    | .modulo => some (if isPower then .mask (bound - 1) else .modulo bound)

/-- Compute an element of a field of a sequence in place. -/
def lowerProgression (layout : SequenceLayout) (id : NodeId) (field : Nat) (index : Name) :
    Lower Name := do
  match layout.fields[field]? with
  | none => throw (.missingType ("sequence layout has no field " ++ toString field))
  | some p =>
    match p.start.kind? with
    | none => throw (.missingType ("sequence field " ++ toString field ++ " start is not scalar"))
    | some kind =>
      match Literal.ofValue? p.start, Literal.ofValue? (p.stride.cast kind) with
      | some start, some stride =>
        let name ← fresh .field
        match indexRule? p with
        | some rule =>
          let m ← fresh .thread
          emit (.declare (.scalar .int) m (.progressionIndex rule index) .none)
          emit (.declare (.scalar kind) name (.progression start stride m) .none)
        | none =>
          emit (.declare (.scalar kind) name (.linearProgression start stride index) .none)
        return name
      | _, _ => suppress id "sequence slots without literal form"

/-- Set the fields of a struct, from a position on. -/
def emitFields (object : Name) (position : Nat) : List Name → Lower Unit
  | [] => return ()
  | v :: vs => do
    emit (.assign (.field object position) (.place (.name v)))
    emitFields object (position + 1) vs

/-- Put a struct together from the values of its fields. -/
def lowerStruct (id : NodeId) (role : Role) (kind : ValueKind) (values : List Name) :
    Lower Name := do
  match ← typeOf? kind with
  | none => suppress id "tuple without struct type"
  | some type =>
    let name ← fresh role
    emit (.reserve type name)
    emitFields name 1 values
    bind name id kind
    return name

def readField (kind : ScalarKind) (place : Place) : Lower Name := do
  let name ← fresh .field
  emit (.declare (.scalar kind) name (.place place) .none)
  return name

/-- An element that is read field by field. A kind without a struct is its first field. -/
def lowerElement (id : NodeId) (kind : ValueKind) (values : List Name) : Lower Name := do
  match kind with
  | .struct _ => lowerStruct id .element kind values
  | _ =>
    match values with
    | v :: _ =>
      bind v id kind
      return v
    | [] => suppress id "empty tuple"

def isInput (g : Graph) (array : NodeId) : Bool :=
  match g.kind? array with
  | some (.operation (.parameter index _)) => index = Skeleton.inputParameter
  | _ => false

/-- Read an element of the input that is passed field by field. -/
def loadSplitInput (site : Site) (metadata : Name) (id : NodeId) (kind : ValueKind) (index : Name) :
    Lower Name := do
  let values ← site.inputs.mapM fun p =>
    match site.mode.sequence? with
    | some layout => lowerProgression layout id p.field index
    | none => readField p.kind (.offsetCell p.name metadata index)
  modify fun p => { p with elements := (id, index) :: p.elements }
  lowerElement id kind values

def lowerLoad (site : Site) (value : Values) (id array index : NodeId) : Lower Name := do
  let arr ← value array
  let idx ← value index
  let kind := site.graph.valueKind id
  if arr = .illegal ∨ idx = .illegal ∨ kind.isIllegal then
    return ← suppress id "load from an array of undetermined kind"
  match site.splitInput with
  | some (input, metadata) =>
    if input = array then return ← loadSplitInput site metadata id kind idx
  | none => pure ()
  if site.splitOutput = some array then
    let values ← site.outputs.mapM fun p => readField p.kind (.cell p.name idx)
    return ← lowerElement id kind values
  match site.mode.sequence?, isInput site.graph array, kind with
  | some layout, true, .scalar element =>
    let v ← lowerProgression layout id 0 idx
    bind v id (.scalar element)
    return v
  | _, _, _ => declare id .element kind (.place (← elementPlace arr idx))

/-! ### Tuples and calls -/

def lowerInstance (value : Values) (id : NodeId) (type : ElementType) (fields : List NodeId) :
    Lower Name := do
  match ← operands value fields with
  | none => suppress id "tuple field of undetermined kind"
  | some values =>
    match ValueKind.ofType type with
    | .struct t => lowerStruct id .result (.struct t) values
    | kind =>
      match values with
      | v :: _ => declare id .result kind (.place (.name v))
      | [] => suppress id "allocation of an empty tuple"

/-- The position, counted from one, of a component of a tuple of some arity. -/
def accessorPosition? (arity component : Nat) : Option Nat :=
  if ElementType.arityOk arity ∧ component < arity then some (component + 1) else none

/-- Lower the access to a component. Of an element that was read field by field, the field is read
again from memory. -/
def lowerComponent (site : Site) (value : Values) (id : NodeId) (arity component : Nat)
    (args : List NodeId) (kind : ValueKind) : Lower Name := do
  match accessorPosition? arity component with
  | none => suppress id "tuple accessor out of range"
  | some position =>
    match args with
    | [] => throw (site.graph.misplaced id)
    | object :: _ =>
      let obj ← value object
      if obj = .illegal then
        return ← suppress id "field of a tuple of undetermined kind"
      match (← get).elements.lookup object, site.splitInput,
          site.inputs.reverse.find? (·.field == position - 1) with
      | some index, some (_, metadata), some p =>
        declare id .field kind (.place (.offsetCell p.name metadata index))
      | _, _, _ =>
        match (← get).symbols.kindOf? object with
        | some (.struct _) => declare id .field kind (.place (.field obj position))
        | some (.scalar _) =>
          if position = 1 then
            share id object
            return obj
          else suppress id "field access on a non-tuple value"
        | _ => suppress id "field access on a non-tuple value"

def lowerCall (site : Site) (value : Values) (function : Functions) (id : NodeId) (lambda : String)
    (args : List NodeId) (kind : ValueKind) : Lower Name := do
  let f ← function lambda id
  match ← operands value args with
  | none => suppress id "lambda argument of undetermined kind"
  | some names =>
    let scope := if site.mode.isKernel then site.scope else []
    let flag := if site.guards then [Argument.deoptFlag] else []
    declare id .callResult kind (.call f (scope ++ names.map .name ++ flag))

def lowerInvoke (site : Site) (value : Values) (function : Functions) (id : NodeId)
    (target : CallTarget) (args : List NodeId) (kind : ValueKind) : Lower Name := do
  match target with
  | .tupleField arity component =>
    lowerComponent site value id arity.toNat component.toNat args kind
  | .lambda name => lowerCall site value function id name args kind
  | .builtin name =>
    match ← operands value args with
    | none => suppress id "call argument of undetermined kind"
    | some names => declare id .result kind (.builtin name names)

/-- Lower a fused map: a loop that calls the function of a lambda for each element, into a buffer of
fixed capacity. -/
def lowerMapChain (site : Site) (lambdas : List Graph) (value : Values) (function : Functions)
    (id : NodeId) (lambda : String) (array : NodeId) (capacity : Nat) (element : ElementType) :
    Lower Name := do
  match lambdas.find? (·.name == lambda) with
  | none => throw (.missingLambda lambda)
  | some inner => if inner.parameters.length ≠ 1 then throw (site.graph.misplaced id)
  let f ← function lambda id
  let arr ← value array
  match ← typeOf? (.ofType element) with
  | none => suppress id "fused map without element type"
  | some type =>
    if arr = .illegal then
      return ← suppress id "fused map over an array of undetermined kind"
    let buffer ← fresh .result
    let length := Name.bufferLength buffer
    let source := match ← bufferLength? arr with
      | some n => Expr.place (.name n)
      | none => .firstLength arr
    let i ← fresh .loop
    let place ← elementPlace arr i
    let flag := if site.guards then [Argument.deoptFlag] else []
    emit (.reserveArray type buffer capacity)
    emit (.declare (.scalar .int) length (.minimum source capacity) .none)
    emit (.loop (.counted i length)
      [.assign (.cell buffer i) (.call f (.place place :: flag))])
    addBuffer buffer length
    bind buffer id (.array element)
    return buffer

/-! ### Operations -/

/-- Lower an operation. Parameters and phis are named by the signature and by their merge or loop,
so one that has no name stands in the wrong place. -/
def lowerOperation (site : Site) (lambdas : List Graph) (value : Values) (function : Functions)
    (id : NodeId) (op : Operation) : Lower Name := do
  let g := site.graph
  let kind := g.valueKind id
  match op with
  | .parameter .. | .phi .. => throw (g.misplaced id)
  | .constant v =>
    match Literal.ofValue? v with
    | some l =>
      bind (.literal l) id kind
      return .literal l
    | none => suppress id "constant has no OpenCL literal"
  | .unary o x =>
    match ← operands value [x] with
    | some [a] => declare id .result kind (unaryExpr o kind.scalar? a)
    | _ => suppressOperand id
  | .binary o x y =>
    match ← operands value [x, y] with
    | some [a, b] =>
      match kind.scalar? with
      | none => suppress id "binary operation on non-scalar operands"
      | some result =>
        declare id .result kind (binaryExpr o result (g.valueKind x).scalar? a b)
    | _ => suppressOperand id
  | .compare o x y =>
    match ← operands value [x, y] with
    | some [a, b] => declare id .condition kind (.compare o a b)
    | _ => suppressOperand id
  | .normalizeCompare x y =>
    match ← operands value [x, y] with
    | some [a, b] => declare id .condition kind (.sign a b)
    | _ => suppressOperand id
  | .conditional c t f =>
    match ← operands value [c, t, f] with
    | some [c, t, f] => declare id .result kind (.select c t f)
    | _ => suppressOperand id
  | .convert target x =>
    match ← operands value [x] with
    | some [a] => declare id .cast kind (.cast target a)
    | _ => suppressOperand id
  | .relabel _ x =>
    let name ← value x
    if name = .illegal then suppressOperand id
    else
      share id x
      return name
  | .math o args => lowerMath g value id o args
  | .arrayLength array => lowerLength value id array
  | .loadIndexed array index => lowerLoad site value id array index
  | .loadField object field =>
    let obj ← value object
    if obj = .illegal ∨ kind.isIllegal then suppressOperand id
    else declare id .field kind (.place (.field obj (field.toNat + 1)))
  | .newInstance type fields => lowerInstance value id type fields
  | .newArray element length =>
    let name ← fresh .result
    emit (.reserveArray (.scalar element) name length.toNat)
    addBuffer name (.literal (.int length.toNat))
    bind name id kind
    return name
  | .invoke target args _ => lowerInvoke site value function id target args kind
  | .mapChain lambda array capacity element =>
    lowerMapChain site lambdas value function id lambda array capacity.toNat element

/-- Lower a node that a value is asked of, unless it has a name already. -/
def lowerNode (site : Site) (lambdas : List Graph) (value : Values) (function : Functions)
    (id : NodeId) : Lower Name := do
  match ← nameOf? id with
  | some name => return name
  | none =>
    let kind ← site.graph.kind id
    emit (.mark kind.name id)
    match kind with
    | .operation op => lowerOperation site lambdas value function id op
    | .unsupported name inputs _ =>
      inputs.forM fun input => discard (value input)
      fail id name
    | .control _ => throw (site.graph.misplaced id)

/-- Lower the value of a node, through at most `depth` operands of operands. -/
def lowerValue (site : Site) (lambdas : List Graph) (function : Functions) : Nat → Values
  | 0 => fun _ => throw .endless
  | depth + 1 => lowerNode site lambdas (lowerValue site lambdas function depth) function

end Kernelwright.Lowering
