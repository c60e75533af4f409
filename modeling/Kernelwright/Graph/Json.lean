import Kernelwright.Element.Json
import Kernelwright.Graph.Skeleton

/-!
# Graphs in JSON

Nodes are tagged with the name of their kind; the payload holds the fields of the kind.
-/

namespace Kernelwright

/-! ### Writing -/

def NodeId.toJson (id : NodeId) : Json := .nat id.position

def NodeId.listToJson (ids : List NodeId) : Json := .array (ids.map NodeId.toJson)

def Computation.toJson (c : Computation) : Json := .text c.tag

def ParameterType.toJson : ParameterType → Json
  | .scalar k => .tagged "Scalar" k.toJson
  | .tuple t => .tagged "Tuple" t.toJson
  | .array t => .tagged "Array" t.toJson

def CallTarget.toJson : CallTarget → Json
  | .tupleField arity component => .tagged "TupleField" (.members
      [("arity", .nat arity.toNat), ("component", .nat component.toNat)])
  | .lambda name => .tagged "Lambda" (.text name)
  | .builtin name => .tagged "Builtin" (.text name)

def Control.fields : Control → List (String × Json)
  | .start next => [("next", next.toJson)]
  | .region next => [("next", next.toJson)]
  | .join m => [("merge", m.toJson)]
  | .merge next => [("next", next.toJson)]
  | .branch c t f => [("condition", c.toJson), ("on_true", t.toJson), ("on_false", f.toJson)]
  | .loopHead next bound => [("next", next.toJson), ("bound", .ofOption NodeId.toJson bound)]
  | .backEdge head => [("loop_begin", head.toJson)]
  | .loopExit head next => [("loop_begin", head.toJson), ("next", next.toJson)]
  | .storeIndexed array index value next =>
    [("array", array.toJson), ("index", index.toJson), ("value", value.toJson),
      ("next", next.toJson)]
  | .storeField object field value next =>
    [("object", object.toJson), ("field", .nat field.toNat), ("value", value.toJson),
      ("next", next.toJson)]
  | .guard c negated next =>
    [("condition", c.toJson), ("negated", .bool negated), ("next", next.toJson)]
  | .ret value => [("value", .ofOption NodeId.toJson value)]
  | .deoptimize => []

def Operation.payload : Operation → Json
  | .parameter index type => .members [("index", .nat index.toNat), ("ty", type.toJson)]
  | .constant value => value.toJson
  | .unary op x => .members [("op", .text op.tag), ("x", x.toJson)]
  | .binary op x y => .members [("op", .text op.tag), ("x", x.toJson), ("y", y.toJson)]
  | .compare op x y => .members [("op", .text op.tag), ("x", x.toJson), ("y", y.toJson)]
  | .normalizeCompare x y => .members [("x", x.toJson), ("y", y.toJson)]
  | .conditional c t f =>
    .members [("condition", c.toJson), ("on_true", t.toJson), ("on_false", f.toJson)]
  | .convert target value => .members [("to", target.toJson), ("value", value.toJson)]
  | .relabel op value => .members [("op", .text op.tag), ("value", value.toJson)]
  | .math op args => .members [("op", .text op.tag), ("args", NodeId.listToJson args)]
  | .arrayLength array => .members [("array", array.toJson)]
  | .loadIndexed array index => .members [("array", array.toJson), ("index", index.toJson)]
  | .loadField object field => .members [("object", object.toJson), ("field", .nat field.toNat)]
  | .newInstance type fields =>
    .members [("ty", type.toJson), ("fields", NodeId.listToJson fields)]
  | .newArray element length =>
    .members [("element", element.toJson), ("length", .nat length.toNat)]
  | .invoke target args result => .members
      [("target", target.toJson), ("args", NodeId.listToJson args), ("ret", result.toJson)]
  | .mapChain lambda array capacity element => .members
      [("lambda", .text lambda), ("array", array.toJson), ("capacity", .nat capacity.toNat),
        ("element", element.toJson)]
  | .phi merge values =>
    .members [("merge", merge.toJson), ("values", NodeId.listToJson values)]

def NodeKind.toJson : NodeKind → Json
  | .control .deoptimize => .text Control.deoptimize.name
  | .control c => .tagged c.name (.members c.fields)
  | .operation o => .tagged o.name o.payload
  | .unsupported name inputs next => .tagged "Unsupported" (.members
      [("name", .text name), ("inputs", NodeId.listToJson inputs),
        ("next", .ofOption NodeId.toJson next)])

def Node.toJson (n : Node) : Json := .members [("id", n.id.toJson), ("kind", n.kind.toJson)]

def Graph.toJson (g : Graph) : Json :=
  .members [("name", .text g.name), ("nodes", .array (g.nodes.toList.map Node.toJson))]

/-! ### Reading -/

def NodeId.ofJson : Decode NodeId := fun form room json =>
  (Decode.uint32 form room json).map NodeId.mk

def Computation.ofJson : Decode Computation := .enumeration ofTag?

def ParameterType.ofJson : Decode ParameterType := .tagged fun form room tag payload => do
  let json ← payload
  match tag with
  | "Scalar" => (ScalarKind.ofJson form room json).map .scalar
  | "Tuple" => (ElementType.ofJson form room json).map .tuple
  | "Array" => (ElementType.ofJson form room json).map .array
  | _ => none

def CallTarget.ofJson : Decode CallTarget := .tagged fun form room tag payload => do
  let json ← payload
  match tag with
  | "TupleField" => Decode.tagFields ["arity", "component"] (fun room fs => do
      return .tupleField (← fs.required "arity" .uint64 room)
        (← fs.required "component" .uint64 room)) form room json
  | "Lambda" => (Decode.string form room json).map .lambda
  | "Builtin" => (Decode.string form room json).map .builtin
  | _ => none

/-- Read the fields of a control node, by the name of its kind. -/
def Control.ofPayload? (name : String) : Decode Control := fun form room json =>
  let node (fs : Decode.Fields) (field : String) (room : Nat) :=
    fs.required field NodeId.ofJson room
  let read (names : List String) (f : Nat → Decode.Fields → Option Control) :=
    Decode.tagFields names f form room json
  match name with
  | "Start" => read ["next"] fun room fs => return .start (← node fs "next" room)
  | "Begin" => read ["next"] fun room fs => return .region (← node fs "next" room)
  | "End" => read ["merge"] fun room fs => return .join (← node fs "merge" room)
  | "Merge" => read ["next"] fun room fs => return .merge (← node fs "next" room)
  | "If" => read ["condition", "on_true", "on_false"] fun room fs => return (.branch
      (← node fs "condition" room) (← node fs "on_true" room) (← node fs "on_false" room))
  | "LoopBegin" => read ["next", "bound"] fun room fs => return (.loopHead
      (← node fs "next" room) (← fs.optional "bound" NodeId.ofJson room))
  | "LoopEnd" => read ["loop_begin"] fun room fs => return .backEdge (← node fs "loop_begin" room)
  | "LoopExit" => read ["loop_begin", "next"] fun room fs => return (.loopExit
      (← node fs "loop_begin" room) (← node fs "next" room))
  | "StoreIndexed" => read ["array", "index", "value", "next"] fun room fs => return (.storeIndexed
      (← node fs "array" room) (← node fs "index" room) (← node fs "value" room)
      (← node fs "next" room))
  | "StoreField" => read ["object", "field", "value", "next"] fun room fs => return (.storeField
      (← node fs "object" room) (← fs.required "field" .uint64 room) (← node fs "value" room)
      (← node fs "next" room))
  | "FixedGuard" => read ["condition", "negated", "next"] fun room fs => return (.guard
      (← node fs "condition" room) (← fs.required "negated" .bool room) (← node fs "next" room))
  | "Return" => read ["value"] fun room fs => return (.ret
      (← fs.optional "value" NodeId.ofJson room))
  | _ => none

/-- Read the payload of an operation, by the name of its kind. -/
def Operation.ofPayload? (name : String) : Decode Operation := fun form room json =>
  let node (fs : Decode.Fields) (field : String) (room : Nat) :=
    fs.required field NodeId.ofJson room
  let nodes (fs : Decode.Fields) (field : String) (room : Nat) :=
    fs.required field (.list NodeId.ofJson) room
  let read (names : List String) (f : Nat → Decode.Fields → Option Operation) :=
    Decode.tagFields names f form room json
  match name with
  | "Parameter" => read ["index", "ty"] fun room fs => return (.parameter
      (← fs.required "index" .uint64 room) (← fs.required "ty" ParameterType.ofJson room))
  | "Constant" => (Value.ofJson form room json).map .constant
  | "Unary" => read ["op", "x"] fun room fs => return (.unary
      (← fs.required "op" (.enumeration UnaryOp.ofTag?) room) (← node fs "x" room))
  | "Binary" => read ["op", "x", "y"] fun room fs => return (.binary
      (← fs.required "op" (.enumeration BinaryOp.ofTag?) room) (← node fs "x" room)
      (← node fs "y" room))
  | "Compare" => read ["op", "x", "y"] fun room fs => return (.compare
      (← fs.required "op" (.enumeration CompareOp.ofTag?) room) (← node fs "x" room)
      (← node fs "y" room))
  | "NormalizeCompare" => read ["x", "y"] fun room fs => return (.normalizeCompare
      (← node fs "x" room) (← node fs "y" room))
  | "Conditional" => read ["condition", "on_true", "on_false"] fun room fs => return (.conditional
      (← node fs "condition" room) (← node fs "on_true" room) (← node fs "on_false" room))
  | "Convert" => read ["to", "value"] fun room fs => return (.convert
      (← fs.required "to" ScalarKind.ofJson room) (← node fs "value" room))
  | "Passthrough" => read ["op", "value"] fun room fs => return (.relabel
      (← fs.required "op" (.enumeration Relabel.ofTag?) room) (← node fs "value" room))
  | "Math" => read ["op", "args"] fun room fs => return (.math
      (← fs.required "op" (.enumeration MathOp.ofTag?) room) (← nodes fs "args" room))
  | "ArrayLength" => read ["array"] fun room fs => return .arrayLength (← node fs "array" room)
  | "LoadIndexed" => read ["array", "index"] fun room fs => return (.loadIndexed
      (← node fs "array" room) (← node fs "index" room))
  | "LoadField" => read ["object", "field"] fun room fs => return (.loadField
      (← node fs "object" room) (← fs.required "field" .uint64 room))
  | "NewInstance" => read ["ty", "fields"] fun room fs => return (.newInstance
      (← fs.required "ty" ElementType.ofJson room) (← nodes fs "fields" room))
  | "NewArray" => read ["element", "length"] fun room fs => return (.newArray
      (← fs.required "element" ScalarKind.ofJson room) (← fs.required "length" .uint64 room))
  | "Invoke" => read ["target", "args", "ret"] fun room fs => return (.invoke
      (← fs.required "target" CallTarget.ofJson room) (← nodes fs "args" room)
      (← fs.required "ret" ElementType.ofJson room))
  | "MapChain" => read ["lambda", "array", "capacity", "element"] fun room fs => return (.mapChain
      (← fs.required "lambda" .string room) (← node fs "array" room)
      (← fs.required "capacity" .uint64 room) (← fs.required "element" ElementType.ofJson room))
  | "Phi" => read ["merge", "values"] fun room fs => return (.phi
      (← node fs "merge" room) (← nodes fs "values" room))
  | _ => none

def NodeKind.ofJson : Decode NodeKind := .tagged fun form room tag payload =>
  match tag with
  | "Deoptimize" => Decode.unit (.control .deoptimize) payload
  | "Unsupported" => payload.bind <| Decode.tagFields ["name", "inputs", "next"] (fun room fs => do
      return .unsupported (← fs.required "name" .string room)
        (← fs.required "inputs" (.list NodeId.ofJson) room)
        (← fs.optional "next" NodeId.ofJson room)) form room
  | _ => payload.bind fun json =>
    match Control.ofPayload? tag form room json with
    | some c => some (.control c)
    | none => (Operation.ofPayload? tag form room json).map .operation

def Node.ofJson : Decode Node := .record ["id", "kind"] fun room fs => do
  return ⟨← fs.required "id" NodeId.ofJson room, ← fs.required "kind" NodeKind.ofJson room⟩

def Graph.ofJson : Decode Graph := .record ["name", "nodes"] fun room fs => do
  let nodes ← fs.required "nodes" (.list Node.ofJson) room
  return ⟨← fs.required "name" .string room, nodes.toArray⟩

end Kernelwright
