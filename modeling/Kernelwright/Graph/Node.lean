import Kernelwright.Element.Value
import Kernelwright.Graph.Operator
import Kernelwright.Graph.ValueKind

/-!
# Graph nodes

A kernel graph has two sorts of nodes. Control nodes form the walk from the start to the returns and
name their successors; operations float and are reached through the operands of the control nodes
that use them. A third sort, which nothing is known about but its name, may stand for either.
-/

namespace Kernelwright

/-- The identity of a node: its position in the node table. -/
structure NodeId where
  index : UInt32
deriving DecidableEq, Repr, Inhabited

instance (n : Nat) : OfNat NodeId n := ⟨⟨.ofNat n⟩⟩

namespace NodeId

def position (id : NodeId) : Nat := id.index.toNat

def ofPosition (n : Nat) : NodeId := ⟨UInt32.ofNat n⟩

def text (id : NodeId) : String := "n" ++ toString id.position

end NodeId

/-- The type of a parameter. -/
inductive ParameterType where
  | scalar (kind : ScalarKind)
  /-- A tuple passed by value. -/
  | tuple (type : ElementType)
  /-- An array in global memory. -/
  | array (element : ElementType)
deriving DecidableEq, Repr, Inhabited

namespace ParameterType

def valueKind : ParameterType → ValueKind
  | scalar k => .scalar k
  | tuple t => .ofType t
  | array t => .array t

def isArray : ParameterType → Bool
  | array _ => true
  | _ => false

end ParameterType

/-- What an invocation calls. -/
inductive CallTarget where
  /-- The accessor of a component, counted from zero, of a tuple of the given arity. -/
  | tupleField (arity component : UInt64)
  /-- A lambda of the same request, by the name of its graph. -/
  | lambda (name : String)
  /-- A function that kernel text has built in. -/
  | builtin (name : String)
deriving DecidableEq, Repr, Inhabited

/-- Control nodes. -/
inductive Control where
  | start (next : NodeId)
  | region (next : NodeId)
  /-- The end of a branch, joining at a merge. -/
  | join (merge : NodeId)
  | merge (next : NodeId)
  | branch (condition onTrue onFalse : NodeId)
  /-- The head of a loop; `bound` is the trip count where it is known. -/
  | loopHead (next : NodeId) (bound : Option NodeId)
  /-- The back edge of a loop. -/
  | backEdge (head : NodeId)
  | loopExit (head next : NodeId)
  | storeIndexed (array index value next : NodeId)
  | storeField (object : NodeId) (field : UInt64) (value next : NodeId)
  | guard (condition : NodeId) (negated : Bool) (next : NodeId)
  | ret (value : Option NodeId)
  | deoptimize
deriving DecidableEq, Repr, Inhabited

/-- Operations: the nodes that have a value. -/
inductive Operation where
  | parameter (index : UInt64) (type : ParameterType)
  | constant (value : Value)
  | unary (op : UnaryOp) (x : NodeId)
  | binary (op : BinaryOp) (x y : NodeId)
  | compare (op : CompareOp) (x y : NodeId)
  /-- Minus one, zero or one as `x` is less than, equal to or greater than `y`. -/
  | normalizeCompare (x y : NodeId)
  | conditional (condition onTrue onFalse : NodeId)
  | convert (target : ScalarKind) (value : NodeId)
  | relabel (op : Relabel) (value : NodeId)
  | math (op : MathOp) (args : List NodeId)
  | arrayLength (array : NodeId)
  | loadIndexed (array index : NodeId)
  | loadField (object : NodeId) (field : UInt64)
  | newInstance (type : ElementType) (fields : List NodeId)
  | newArray (element : ScalarKind) (length : UInt64)
  | invoke (target : CallTarget) (args : List NodeId) (result : ElementType)
  /-- A lambda applied to each element of an array, into a buffer of fixed capacity. -/
  | mapChain (lambda : String) (array : NodeId) (capacity : UInt64) (element : ElementType)
  /-- A value chosen by the end through which its merge or loop head was reached. -/
  | phi (merge : NodeId) (values : List NodeId)
deriving DecidableEq, Repr, Inhabited

/-- The sorts of nodes. -/
inductive NodeKind where
  | control (c : Control)
  | operation (o : Operation)
  /-- A node that nothing can be done with; on the control walk it continues at `next`. -/
  | unsupported (name : String) (inputs : List NodeId) (next : Option NodeId)
deriving DecidableEq, Repr, Inhabited

/-! ### Names -/

def Control.name : Control → String
  | .start _ => "Start"
  | .region _ => "Begin"
  | .join _ => "End"
  | .merge _ => "Merge"
  | .branch .. => "If"
  | .loopHead .. => "LoopBegin"
  | .backEdge _ => "LoopEnd"
  | .loopExit .. => "LoopExit"
  | .storeIndexed .. => "StoreIndexed"
  | .storeField .. => "StoreField"
  | .guard .. => "FixedGuard"
  | .ret _ => "Return"
  | .deoptimize => "Deoptimize"

def Operation.name : Operation → String
  | .parameter .. => "Parameter"
  | .constant _ => "Constant"
  | .unary .. => "Unary"
  | .binary .. => "Binary"
  | .compare .. => "Compare"
  | .normalizeCompare .. => "NormalizeCompare"
  | .conditional .. => "Conditional"
  | .convert .. => "Convert"
  | .relabel .. => "Passthrough"
  | .math .. => "Math"
  | .arrayLength _ => "ArrayLength"
  | .loadIndexed .. => "LoadIndexed"
  | .loadField .. => "LoadField"
  | .newInstance .. => "NewInstance"
  | .newArray .. => "NewArray"
  | .invoke .. => "Invoke"
  | .mapChain .. => "MapChain"
  | .phi .. => "Phi"

def NodeKind.name : NodeKind → String
  | .control c => c.name
  | .operation o => o.name
  | .unsupported .. => "Unsupported"

/-! ### Edges -/

/-- The operands of a control node, in order of evaluation. -/
def Control.inputs : Control → List NodeId
  | .branch c _ _ => [c]
  | .loopHead _ bound => bound.toList
  | .storeIndexed array index value _ => [array, index, value]
  | .storeField object _ value _ => [object, value]
  | .guard c _ _ => [c]
  | .ret value => value.toList
  | _ => []

/-- The operands of an operation, in order of evaluation. -/
def Operation.inputs : Operation → List NodeId
  | .parameter .. | .constant _ | .newArray .. => []
  | .unary _ x => [x]
  | .binary _ x y | .compare _ x y | .normalizeCompare x y => [x, y]
  | .conditional c t f => [c, t, f]
  | .convert _ v | .relabel _ v => [v]
  | .math _ args | .invoke _ args _ => args
  | .arrayLength array | .mapChain _ array _ _ => [array]
  | .loadIndexed array index => [array, index]
  | .loadField object _ => [object]
  | .newInstance _ fields => fields
  | .phi _ values => values

def Control.successors : Control → List NodeId
  | .start next | .region next | .merge next => [next]
  | .loopHead next _ | .loopExit _ next => [next]
  | .storeIndexed _ _ _ next | .storeField _ _ _ next | .guard _ _ next => [next]
  | .join m => [m]
  | .branch _ t f => [t, f]
  | .backEdge _ | .ret _ | .deoptimize => []

namespace NodeKind

def isControl : NodeKind → Bool
  | control _ => true
  | _ => false

def isValue : NodeKind → Bool
  | control _ => false
  | _ => true

/-- Whether the node may stand on the control walk. -/
def isStep : NodeKind → Bool
  | operation _ => false
  | _ => true

/-- The operands of a node, in order of evaluation. -/
def inputs : NodeKind → List NodeId
  | control c => c.inputs
  | operation o => o.inputs
  | unsupported _ ins _ => ins

def successors : NodeKind → List NodeId
  | control c => c.successors
  | operation _ => []
  | unsupported _ _ next => next.toList

end NodeKind

/-- A node with its identity. -/
structure Node where
  id : NodeId
  kind : NodeKind
deriving DecidableEq, Repr, Inhabited

end Kernelwright
