import Mathlib.Logic.Relation
import Kernelwright.Proofs.Host.Safety

/-!
# Handles stay good

All calls under way share one arena, and each holds handles of arrays in its frame. A callee may
allocate arrays and write to those of its caller, but none gets lost or changes its length. So every
handle in every frame names an array at all times.

Graphs are arbitrary here. Any node may be evaluated next, any control node passed and any lambda
called, as if the graph said so.
-/

namespace Kernelwright.Host

open Relation

variable {α : Type} {lambdas : List Graph} {m m' : Machine}

/-! ### What may happen -/

/-- What may happen next in the frame at work: a node is evaluated, perhaps for a phi, or one of the
control nodes is passed. -/
inductive Moves (lambdas : List Graph) (passes : Control → Prop) : Machine → Machine → Prop
  | eval {m m' s} (fuel depth : Nat) (id : NodeId) : eval lambdas fuel depth id m = .ok (s, m') →
      Moves lambdas passes m m'
  | assign {m m₁ m' s u} (fuel depth : Nat) (id phi : NodeId) :
      Host.eval lambdas fuel depth id m = .ok (s, m₁) → Run.assign phi s m₁ = .ok (u, m') →
      Moves lambdas passes m m'
  | step {m m' next} (fuel depth : Nat) (id : NodeId) (back : Bool) :
      (∀ c, m.frame.graph.kind? id = some (.control c) → passes c) →
      (Semantics.withFuel lambdas fuel depth).step m.frame.graph id back m = .ok (next, m') →
      Moves lambdas passes m m'

/-- What a call may be made on: operands, or an element of an array. -/
inductive Passes (lambdas : List Graph) (m : Machine) : List Slot → Machine → Prop
  | operands {args m'} (fuel depth : Nat) (ids : List NodeId) :
      (Semantics.withFuel lambdas fuel depth).slots ids m = .ok (args, m') →
      Passes lambdas m args m'
  | element (v : Value) : Passes lambdas m [.value v] m

/-- An evaluation under way: the frames of the callers, the innermost first, and the machine. -/
structure Stage where
  callers : List Frame
  machine : Machine

namespace Stage

def start (g : Graph) (args : List HostValue) : Stage :=
  ⟨[], .enter g (place args #[]).1, (place args #[]).2⟩

def frames (stage : Stage) : List Frame := stage.machine.frame :: stage.callers

inductive Next (lambdas : List Graph) : Stage → Stage → Prop
  | move {callers m m'} :
    Moves lambdas (fun _ => True) m m' → Next lambdas ⟨callers, m⟩ ⟨callers, m'⟩
  | enter {callers m m' args} (callee : Graph) : Passes lambdas m args m' →
      Next lambdas ⟨callers, m⟩ ⟨m'.frame :: callers, .enter callee args, m'.arena⟩
  | leave {callers m m₁ m' args s} (fuel depth : Nat) (callee : Graph) : Passes lambdas m args m₁ →
      run lambdas fuel depth callee args m₁ = .ok (s, m') → Next lambdas ⟨callers, m⟩ ⟨callers, m'⟩

end Stage

/-- The frame has the handle among its arguments, its phis, its remembered values or its arrays. -/
def Frame.Holds (f : Frame) (handle : Nat) : Prop :=
  .array handle ∈ f.args ∨ ∃ t ∈ [f.phis, f.memo, f.arrays], ∃ id, t.get? id = some (.array handle)

/-! ### Frames among arrays -/

/-- All slots of the frame that are arrays are ones in the arena. -/
abbrev Frame.Good (a : Arena) (f : Frame) : Prop := f.Like (fun i j => j = i ∧ i < a.size) f

theorem Frame.Good.mono {a b : Arena} {f : Frame} (h : f.Good a) (hab : Extends a b) : f.Good b :=
  Frame.Like.mono h fun _ _ hij => ⟨hij.1, hab.lt hij.2⟩

theorem Frame.Good.lt_of_holds {a : Arena} {f : Frame} {handle : Nat} (h : f.Good a)
    (hf : f.Holds handle) :
    handle < a.size := by
  have hfound {o : Option Slot} (h : Slot.Found (fun i j => j = i ∧ i < a.size) o o)
      (ho : o = some (.array handle)) : handle < a.size := by
    subst ho
    cases h with
    | some hs =>
      cases hs with
      | array hij => exact hij.2
  simp only [Holds, List.mem_cons, List.not_mem_nil, or_false, exists_eq_or_imp,
    exists_eq_left] at hf
  rcases hf with hargs | ⟨id, hid⟩ | ⟨id, hid⟩ | ⟨id, hid⟩
  · obtain ⟨i, hi⟩ := List.mem_iff_getElem?.1 hargs
    exact hfound (h.args i) hi
  · exact hfound (h.phis id) hid
  · exact hfound (h.memo id) hid
  · exact hfound (h.arrays id) hid

/-- Anything may stop an evaluation but an array that is not there. -/
def indexing : Pairing :=
  kept (fun e => ∀ handle, e ≠ .dangling handle) fun {e} he handle hdangling => by
    cases hdangling ▸ he

theorem lax_indexing (g : Graph) : (indexing.within g).Lax := fun _ _ => HostError.noConfusion

theorem related_indexing (lambdas : List Graph) (fuel depth : Nat) (g : Graph) :
    (∀ id w, (indexing.within g).Relates w (eval lambdas fuel depth id) (eval lambdas fuel depth id)
      (indexing.within g).Slots) ∧
    ∀ callee w args args', List.Forall₂ ((indexing.within g).Slots w) args args' →
      (indexing.within g).Relates w (run lambdas fuel depth callee args)
      (run lambdas fuel depth callee args') (indexing.within g).Slots := by
  have hrelated := Pairing.related (H := indexing) (G := fun _ => True) lambdas 0
    (fun g _ => (lax_indexing g).admits (fun _ _ _ => HostError.noConfusion) g)
      (fun _ _ _ => trivial)
    (Nat.le_refl fuel) (fun _ => HostError.noConfusion) (fun h => absurd h (Nat.lt_irrefl 0)) depth
  exact ⟨fun id => hrelated.1 g trivial id (.inr (lax_indexing g)),
    fun callee => hrelated.2 g callee trivial⟩

theorem step_indexing (lambdas : List Graph) (fuel depth : Nat) (g : Graph)
    (id : NodeId) (back : Bool) (w : Arena) :
    (indexing.within g).Relates w ((Semantics.withFuel lambdas fuel depth).step g id back)
      ((Semantics.withFuel lambdas fuel depth).step g id back)
      (Comparison.Agrees.Nexts _ g id) := by
  have hagrees : (indexing.within g).Agrees g (.withFuel lambdas fuel depth)
      (.withFuel lambdas fuel depth) :=
    ⟨⟨(lax_indexing g).admits (fun _ _ _ => HostError.noConfusion) g, rfl,
      fun _ => (related_indexing lambdas fuel (depth + 1) g).2 _ _ _ _⟩,
      fun _ => (related_indexing lambdas fuel depth g).1 _⟩
  exact hagrees.step (indexing.lawful g) (.inr (lax_indexing g)) back

section Keeps

variable {act : Run α} {Q : indexing.World → α → α → Prop}
  (h : (indexing.within m.frame.graph).Relates m.arena act act Q) (hm : m.frame.Good m.arena)
include h hm

theorem good_of_relates {a : α} (ha : act m = .ok (a, m')) :
    m'.frame.Good m'.arena ∧ Extends m.arena m'.arena ∧ Q m'.arena a a := by
  rcases h m m ⟨rfl, hm, rfl, rfl⟩ with ⟨b, b', m₁, m₂, w, hb, hb', hw, hm', hQ⟩ | ⟨e, he,
    -⟩ | ⟨e, -, he⟩
  · cases ha.symm.trans hb
    cases ha.symm.trans hb'
    obtain ⟨-, hframe, rfl, -⟩ := hm'
    exact ⟨hframe, hw, hQ⟩
  · cases ha.symm.trans he
  · exact he.elim

theorem ne_dangling_of_relates (handle : Nat) : act m ≠ .error (.dangling handle) := by
  intro ha
  rcases h m m ⟨rfl, hm, rfl, rfl⟩ with ⟨b, b', m₁, m₂, w, hb, -⟩ | ⟨e, he, hne⟩ | ⟨e, -, he⟩
  · cases ha.symm.trans hb
  · cases ha.symm.trans he
    exact hne handle rfl
  · exact he.elim

end Keeps

/-! ### Along an evaluation -/

theorem Moves.good {passes : Control → Prop} (h : Moves lambdas passes m m')
    (hm : m.frame.Good m.arena) :
    m'.frame.Good m'.arena ∧ Extends m.arena m'.arena := by
  cases h with
  | eval fuel depth id h =>
    have hgood := good_of_relates ((related_indexing lambdas fuel depth _).1 id _) hm h
    exact ⟨hgood.1, hgood.2.1⟩
  | assign fuel depth id phi h hassign =>
    obtain ⟨hm₁, hext, hs⟩ := good_of_relates ((related_indexing lambdas fuel depth _).1 id _) hm h
    obtain ⟨hm', hext', -⟩ := good_of_relates ((indexing.lawful _).assign phi hs) hm₁ hassign
    exact ⟨hm', hext.trans hext'⟩
  | step fuel depth id back _ h =>
    have hgood := good_of_relates (step_indexing lambdas fuel depth _ id back _) hm h
    exact ⟨hgood.1, hgood.2.1⟩

theorem Passes.good {args : List Slot} (h : Passes lambdas m args m') (hm : m.frame.Good m.arena) :
    m'.frame.Good m'.arena ∧ Extends m.arena m'.arena ∧
      List.Forall₂ (Slot.Like fun i j => j = i ∧ i < m'.arena.size) args args := by
  cases h with
  | operands fuel depth ids h =>
    refine good_of_relates (Comparison.slots_forall₂ fun x _ w => ?_) hm h
    exact (related_indexing lambdas fuel depth _).1 x w
  | element v => exact ⟨hm, .refl _, .cons (.value v) .nil⟩

/-- Whatever happens next, all frames stay good and so do the arrays. -/
theorem Stage.Next.good {stage next : Stage} (h : Next lambdas stage next)
    (hstage : ∀ f ∈ stage.frames, f.Good stage.machine.arena) :
    (∀ f ∈ next.frames, f.Good next.machine.arena) ∧
    Extends stage.machine.arena next.machine.arena := by
  have hcallers {a b : Arena} {fs : List Frame} (hfs : ∀ f ∈ fs, f.Good a) (hab : Extends a b) :
      ∀ f ∈ fs, f.Good b := fun f hf => (hfs f hf).mono hab
  simp only [frames, List.forall_mem_cons] at hstage ⊢
  cases h with
  | move h =>
    obtain ⟨hm', hext⟩ := h.good hstage.1
    exact ⟨⟨hm', hcallers hstage.2 hext⟩, hext⟩
  | enter callee h =>
    obtain ⟨hm', hext, hargs⟩ := h.good hstage.1
    exact ⟨⟨.enter callee hargs, List.forall_mem_cons.2 ⟨hm', hcallers hstage.2 hext⟩⟩, hext⟩
  | leave fuel depth callee h hrun =>
    obtain ⟨hm₁, hext, hargs⟩ := h.good hstage.1
    obtain ⟨hm', hext', -⟩ :=
      good_of_relates ((related_indexing lambdas fuel depth _).2 callee _ _ _ hargs) hm₁ hrun
    exact ⟨⟨hm', hcallers hstage.2 (hext.trans hext')⟩, hext.trans hext'⟩

theorem Stage.good_of_reach {stage later : Stage} (h : ReflTransGen (Next lambdas) stage later)
    (hstage : ∀ f ∈ stage.frames, f.Good stage.machine.arena) :
    (∀ f ∈ later.frames, f.Good later.machine.arena) ∧
    Extends stage.machine.arena later.machine.arena := by
  induction h with
  | refl => exact ⟨hstage, .refl _⟩
  | tail _ hnext ih =>
    obtain ⟨hgood, hext⟩ := hnext.good ih.1
    exact ⟨hgood, ih.2.trans hext⟩

/-- At every stage of every call each handle in each frame names an array. From then on no array
gets lost or changes its length, and nothing fails for the lack of an array. -/
theorem handles_never_dangle (lambdas : List Graph) (g : Graph) (args : List HostValue)
    (stage : Stage) (h : ReflTransGen (Stage.Next lambdas) (.start g args) stage) :
    (∀ f ∈ stage.frames, ∀ handle, f.Holds handle → handle < stage.machine.arena.size) ∧
    (∀ later, ReflTransGen (Stage.Next lambdas) stage later →
      Extends stage.machine.arena later.machine.arena) ∧
    ∀ fuel depth handle,
      (∀ id, eval lambdas fuel depth id stage.machine ≠ .error (.dangling handle)) ∧
      ∀ id back, (Semantics.withFuel lambdas fuel depth).step stage.machine.frame.graph id back
        stage.machine ≠ .error (.dangling handle) := by
  have hstart : ∀ f ∈ (Stage.start g args).frames, f.Good (Stage.start g args).machine.arena :=
    List.forall_mem_singleton.2 (.enter g (List.forall₂_same.2 (place_known args #[]).2))
  obtain ⟨hgood, -⟩ := Stage.good_of_reach h hstart
  have hmachine := hgood _ (.head _)
  refine ⟨fun f hf handle => (hgood f hf).lt_of_holds,
    fun later hlater => (Stage.good_of_reach hlater hgood).2,
    fun fuel depth handle => ⟨fun id => ?_, fun id back => ?_⟩⟩
  · exact ne_dangling_of_relates ((related_indexing lambdas fuel depth _).1 id _) hmachine handle
  · exact ne_dangling_of_relates (step_indexing lambdas fuel depth _ id back _) hmachine handle

/-- Gives an element back. -/
def item : Graph := .ofKinds "item" [
  .start 1,
  .ret (some 2),
  .parameter 0 .int]

/-- Copies an array, element by element. -/
def mirror : Graph := .ofKinds "mirror" [
  .start 1,
  .ret (some 2),
  .operation (.mapChain "item" 3 8 (.scalar .int)),
  .operation (.parameter 0 (.array (.scalar .int)))]

/-- With the copy made, a call of `item` from the frame that holds both arrays. -/
theorem mirror_handles_never_dangle :
    ∃ stage, ReflTransGen (Stage.Next [mirror, item]) (.start mirror [.array [.scalar (.int 7)]])
      stage ∧ (∃ f ∈ stage.frames, f.Holds 1) ∧ stage.frames.length = 2 ∧
      ∀ f ∈ stage.frames, ∀ handle, f.Holds handle → handle < stage.machine.arena.size := by
  let seven : Value := .scalar (.int 7)
  let m : Machine :=
    ⟨⟨mirror, [.array 0], [], [(3, .array 0)], [(2, .array 1)]⟩, #[#[seven], #[seven]]⟩
  have hcopy : eval [mirror, item] 6 0 2 (Stage.start mirror [.array [seven]]).machine = .ok
      (.array 1, m) := by
    rfl
  have hreach : ReflTransGen (Stage.Next [mirror, item]) (.start mirror [.array [seven]])
      ⟨[m.frame], .enter item [.value seven], m.arena⟩ :=
    .tail (.single (.move (.eval 6 0 2 hcopy))) (.enter item (.element seven))
  refine ⟨_, hreach, ⟨m.frame, .tail _ (.head _), .inr ⟨_, .tail _ (.tail _ (.head _)), 2, rfl⟩⟩,
    rfl, ?_⟩
  exact (handles_never_dangle _ _ _ _ hreach).1

end Kernelwright.Host
