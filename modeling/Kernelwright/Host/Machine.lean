import Kernelwright.Graph.Basic
import Kernelwright.Host.Error

/-!
# The machine of the host

A call of a lambda has a frame: its arguments, the values of its phis, what its nodes were evaluated
to since the last back edge, and the arrays that it allocated. All frames of an evaluation share one
arena of arrays, which they name by handles, so a store in a callee is seen by its caller.
-/

namespace Kernelwright.Host

/-- What a node is evaluated to. -/
inductive Slot where
  | value (v : Value)
  /-- An array of the arena. -/
  | array (handle : Nat)
  | void
deriving DecidableEq, Repr, Inhabited

/-! ### Tables of nodes -/

abbrev Table := List (NodeId × Slot)

namespace Table

def get? (t : Table) (id : NodeId) : Option Slot := (t.find? fun e => e.1 = id).map (·.2)

/-- Give a node a slot, in place of the one it had. -/
def insert (t : Table) (id : NodeId) (s : Slot) : Table := (id, s) :: t.filter fun e => e.1 ≠ id

@[simp] theorem get?_nil (id : NodeId) : get? [] id = none := rfl

@[simp] theorem get?_insert_self (t : Table) (id : NodeId) (s : Slot) :
    (t.insert id s).get? id = some s := by
  simp [get?, insert]

theorem get?_insert_of_ne {t : Table} {id other : NodeId} {s : Slot} (h : other ≠ id) :
    (t.insert id s).get? other = t.get? other := by
  have hne : ¬ id = other := fun e => h e.symm
  induction t with
  | nil => simp [get?, insert, hne]
  | cons e t ih =>
    simp only [get?, insert, List.find?_cons, List.filter_cons, hne, decide_false] at ih ⊢
    by_cases he : e.1 = id
    · have ho : ¬ e.1 = other := fun h' => hne (he.symm.trans h')
      simpa [he, ho, hne] using ih
    · by_cases ho : e.1 = other
      · simp [ho, h]
      · simpa [he, ho] using ih

end Table

/-! ### Frames -/

/-- A call of a lambda. -/
structure Frame where
  graph : Graph
  args : List Slot
  /-- The values of the phis. -/
  phis : Table
  /-- The values of nodes, forgotten at every back edge. -/
  memo : Table
  /-- The arrays that nodes have allocated, which are kept. -/
  arrays : Table
deriving Repr, Inhabited

def Frame.enter (g : Graph) (args : List Slot) : Frame := ⟨g, args, [], [], []⟩

def Frame.known? (f : Frame) (id : NodeId) : Option Slot :=
  (f.memo.get? id).or (f.arrays.get? id)

abbrev Arena := Array (Array Value)

/-- The frame at work and the arena. -/
structure Machine where
  frame : Frame
  arena : Arena
deriving Repr, Inhabited

abbrev Run := StateT Machine (Except HostError)

namespace Run

def fail (e : HostError) : Run α := fun _ => .error e

def ofGraph (r : Except KernelError α) : Run α := fun m =>
  match r with
  | .ok a => .ok (a, m)
  | .error e => .error (.graph e)

/-- A value that has to be there. -/
def ofOption (r : Option α) (e : HostError) : Run α := fun m =>
  match r with
  | some a => .ok (a, m)
  | none => .error e

def frame : Run Frame := fun m => .ok (m.frame, m)

def modifyFrame (f : Frame → Frame) : Run PUnit := fun m =>
  .ok (⟨⟩, { m with frame := f m.frame })

/-- Do something in a frame of its own. -/
def within (f : Frame) (act : Run α) : Run α := fun m =>
  match act ⟨f, m.arena⟩ with
  | .ok (a, m') => .ok (a, ⟨m.frame, m'.arena⟩)
  | .error e => .error e

/-- Remember the value of a node until the next back edge. -/
def remember (id : NodeId) (s : Slot) : Run PUnit :=
  modifyFrame fun f => { f with memo := f.memo.insert id s }

/-- Remember the array of a node for good. -/
def keep (id : NodeId) (s : Slot) : Run PUnit :=
  modifyFrame fun f => { f with arrays := f.arrays.insert id s }

def assign (phi : NodeId) (s : Slot) : Run PUnit :=
  modifyFrame fun f => { f with phis := f.phis.insert phi s }

def forget : Run PUnit := modifyFrame fun f => { f with memo := [] }

/-! ### Arrays -/

def allocate (items : Array Value) : Run Slot := fun m =>
  .ok (.array m.arena.size, { m with arena := m.arena.push items })

def items (handle : Nat) : Run (Array Value) := fun m =>
  match m.arena[handle]? with
  | some vs => .ok (vs, m)
  | none => .error (.dangling handle)

/-- Overwrite an element of an array. -/
def write (handle index : Nat) (v : Value) : Run PUnit := fun m =>
  .ok (⟨⟩, { m with arena := m.arena.modify handle fun vs => vs.setIfInBounds index v })

end Run

/-- The position that an index of an array names; none for a negative index. -/
def position? (index : Int64) : Option Nat :=
  if index < 0 then none else some index.toInt.toNat

end Kernelwright.Host
