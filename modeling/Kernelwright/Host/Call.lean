import Kernelwright.Host.Walk

/-!
# Calling lambdas on the host

Evaluation and calls are tied together here. An operand may call a lambda, which walks a graph of
its own. Loops may run for ever and operands may form cycles, so an evaluation is given fuel: it
bounds both how deep operands and calls nest and how many steps a walk takes. More fuel never
changes an answer, and running out of it is an error of its own.
-/

namespace Kernelwright.Host

/-- How deep calls may nest. -/
def maxCallDepth : Nat := 64

mutual

/-- The value of a node in the frame at work. -/
def eval (lambdas : List Graph) : Nat → Nat → NodeId → Run Slot
  | 0, _, _ => .fail .outOfFuel
  | fuel + 1, depth, id =>
    Semantics.node ⟨lambdas, eval lambdas fuel depth, run lambdas fuel (depth + 1)⟩ id

/-- Call a lambda in a frame of its own. -/
def run (lambdas : List Graph) : Nat → Nat → Graph → List Slot → Run Slot
  | 0, _, _, _ => .fail .outOfFuel
  | fuel + 1, depth, g, args =>
    if depth > maxCallDepth then .fail (.callDepth g.name)
    else .within (.enter g args) do
      let start ← Run.ofGraph g.start
      Semantics.walk ⟨lambdas, eval lambdas fuel depth, run lambdas fuel (depth + 1)⟩ g fuel start
        false

end

def place : List HostValue → Arena → List Slot × Arena
  | [], arena => ([], arena)
  | .value v :: args, arena =>
    let (slots, arena) := place args arena
    (.value v :: slots, arena)
  | .array vs :: args, arena =>
    let (slots, arena') := place args (arena.push vs.toArray)
    (.array arena.size :: slots, arena')
  | .void :: args, arena =>
    let (slots, arena) := place args arena
    (.void :: slots, arena)

def fetch (arena : Arena) : Slot → HostValue
  | .value v => .value v
  | .array handle => .array (arena[handle]?.getD #[]).toList
  | .void => .void

/-- Fuel for any evaluation that is meant to end. -/
def defaultFuel : Nat := Nat.pow 2 48

def call (lambdas : List Graph) (fuel : Nat) (name : String) (args : List HostValue) :
    Except HostError HostValue :=
  match lambda? lambdas name with
  | none => .error (.noLambda name)
  | some g =>
    let (slots, arena) := place args #[]
    match run lambdas fuel 0 g slots ⟨.enter g slots, arena⟩ with
    | .ok (s, m) => .ok (fetch m.arena s)
    | .error e => .error e

end Kernelwright.Host
