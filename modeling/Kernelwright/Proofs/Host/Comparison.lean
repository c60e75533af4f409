import Mathlib.Data.List.Forall2
import Kernelwright.Host.Call
import Kernelwright.Proofs.Graph.Complete
import Kernelwright.Proofs.Graph.Flow

/-!
# Evaluations side by side

Two evaluations that follow the same definition can be compared part by part. A `Comparison` says
which machines and handles correspond, and for which causes either evaluation may stop; its worlds
are what is known by then. `Relates` is closed under sequencing, so each part of the interpreter is
compared with itself by following its definition. Where little may stop it, an evaluation that is
compared with itself is one that ends well.
-/

namespace Kernelwright

/-- Whether the cause is one that the evaluation itself knows: no fault of a graph, an array or a
type, no lack of room, of fuel or of an array. -/
def HostError.isEvaluation : HostError → Bool
  | graph _ | array _ | type _ => false
  | noRoom .. | dangling _ | outOfFuel => false
  | _ => true

/-- Whether an operation neither reads nor makes an array, takes no tuple apart or together and
calls nothing. -/
def Operation.isPure : Operation → Bool
  | .parameter .. | .constant _ | .unary .. | .binary .. | .compare .. => true
  | .normalizeCompare .. | .conditional .. | .convert .. | .relabel .. | .math .. | .phi .. => true
  | _ => false

namespace Host

variable {α α' β β' : Type} {s s' : Slot} {R S : Nat → Nat → Prop}

/-- The interpreter with some fuel at some depth of calls. -/
abbrev Semantics.withFuel (lambdas : List Graph) (fuel depth : Nat) : Semantics :=
  ⟨lambdas, Host.eval lambdas fuel depth, Host.run lambdas fuel (depth + 1)⟩

/-! ### What corresponds -/

/-- The slots stand for the same, where handles do so under `R`. -/
inductive Slot.Like (R : Nat → Nat → Prop) : Slot → Slot → Prop
  | value (v : Value) : Like R (.value v) (.value v)
  | array {i j : Nat} : R i j → Like R (.array i) (.array j)
  | void : Like R .void .void

theorem Slot.Like.mono (h : s.Like R s') (hRS : ∀ i j, R i j → S i j) : s.Like S s' := by
  cases h with
  | value v => exact .value v
  | array h => exact .array (hRS _ _ h)
  | void => exact .void

theorem Slot.like_eq : s.Like (fun i j => j = i) s' ↔ s' = s := by
  constructor
  · rintro (v | rfl | -) <;> rfl
  · rintro rfl
    cases s' with
    | value v => exact .value v
    | array handle => exact .array rfl
    | void => exact .void

/-- The frames are those of calls of one graph, with arguments that stand for the same. -/
structure Frame.Serves (R : Nat → Nat → Prop) (f f' : Frame) : Prop where
  graph : f'.graph = f.graph
  args : ∀ (i : Nat) s, f.args[i]? = some s → ∃ s', f'.args[i]? = some s' ∧ s.Like R s'

/-- The terms on which two evaluations are compared. -/
structure Terms where
  World : Type
  /-- All that is known is known later. -/
  Later : World → World → Prop
  Handles : World → Nat → Nat → Prop
  /-- What the first evaluation may stop for. -/
  Stops : HostError → Prop
  /-- What the second evaluation may stop for although the first goes on. -/
  Stops' : HostError → Prop
  refl (w : World) : Later w w
  trans {u v w : World} : Later u v → Later v w → Later u w
  handles {v w : World} {i j : Nat} : Later v w → Handles v i j → Handles w i j
  stops {e : HostError} : e.isEvaluation = true → Stops e

/-- Terms, and the machines that correspond on them. -/
structure Comparison extends Terms where
  Machines : World → Machine → Machine → Prop
  serves {w : World} {m n : Machine} : Machines w m n → m.frame.Serves (Handles w) n.frame

namespace Comparison

variable {C : Comparison} {w : C.World}

abbrev Slots (C : Comparison) (w : C.World) : Slot → Slot → Prop := Slot.Like (C.Handles w)

theorem slots {w' : C.World} (hw : C.Later w w') (h : C.Slots w s s') : C.Slots w' s s' :=
  h.mono fun _ _ => C.handles hw

/-- The evaluations do the same from machines that correspond: they end in such machines with
results for which `Q` holds, or one of them stops for what it may stop for. -/
def Relates (C : Comparison) (w : C.World) (act : Run α) (act' : Run α')
    (Q : C.World → α → α' → Prop) : Prop :=
  ∀ m n, C.Machines w m n →
    (∃ a a' m' n' w', act m = .ok (a, m') ∧ act' n = .ok (a', n') ∧ C.Later w w' ∧
      C.Machines w' m' n' ∧ Q w' a a') ∨
    (∃ e, act m = .error e ∧ C.Stops e) ∨ ∃ e, act' n = .error e ∧ C.Stops' e

/-- The results are equal. -/
def equal (_ : C.World) (a a' : α) : Prop := a' = a

/-- No more is said of the results than that there are some. -/
def anything (_ : C.World) (_ : α) (_ : α') : Prop := True

namespace Relates

variable {a : α} {a' : α'} {e e' : HostError} {act : Run α} {act' : Run α'}
  {P : C.World → α → α' → Prop} {Q : C.World → β → β' → Prop} {k : α → Run β} {k' : α' → Run β'}

theorem pure (h : P w a a') : C.Relates w (Pure.pure a) (Pure.pure a') P :=
  fun m n hm => .inl ⟨a, a', m, n, w, rfl, rfl, C.refl w, hm, h⟩

theorem fail (he : C.Stops e) : C.Relates w (Run.fail e) act' P :=
  fun _ _ _ => .inr (.inl ⟨e, rfl, he⟩)

/-- What comes second may rely on what the first part said of its results, and on its world. -/
theorem bind (h : C.Relates w act act' P)
    (hk : ∀ w' a a', C.Later w w' → P w' a a' → C.Relates w' (k a) (k' a') Q) :
    C.Relates w (act >>= k) (act' >>= k') Q := by
  intro m n hm
  rcases h m n hm with ⟨a, a', m₁, n₁, w₁, ha, ha', hw₁, hm₁, hP⟩ | ⟨e, ha, he⟩ | ⟨e, ha', he⟩
  · rw [Step.bind_of_ok ha, Step.bind_of_ok ha']
    rcases hk w₁ a a' hw₁ hP m₁ n₁ hm₁ with ⟨b, b', m₂, n₂, w₂, hb, hb', hw₂, hm₂, hQ⟩ | hstop
    · exact .inl ⟨b, b', m₂, n₂, w₂, hb, hb', C.trans hw₁ hw₂, hm₂, hQ⟩
    · exact .inr hstop
  · exact .inr (.inl ⟨e, Step.bind_of_error ha, he⟩)
  · exact .inr (.inr ⟨e, Step.bind_of_error ha', he⟩)

/-- What is known of the results can be weakened. -/
theorem imp {P' : C.World → α → α' → Prop} (h : C.Relates w act act' P)
    (hP : ∀ w' a a', C.Later w w' → P w' a a' → P' w' a a') : C.Relates w act act' P' := by
  intro m n hm
  refine (h m n hm).imp_left ?_
  rintro ⟨a, a', m', n', w', ha, ha', hw, hm', hPa⟩
  exact ⟨a, a', m', n', w', ha, ha', hw, hm', hP w' a a' hw hPa⟩

theorem bind_equal {k' : α → Run β'} {act' : Run α} (h : C.Relates w act act' equal)
    (hk : ∀ w' a, C.Later w w' → C.Relates w' (k a) (k' a) Q) :
    C.Relates w (act >>= k) (act' >>= k') Q := by
  refine h.bind fun w' a a' hw ha => ?_
  cases ha
  exact hk w' a hw

theorem ofOption {o : Option α} {o' : Option α'} (he : C.Stops e)
    (h : ∀ a, o = some a → ∃ a', o' = some a' ∧ P w a a') :
    C.Relates w (Run.ofOption o e) (Run.ofOption o' e') P := by
  cases o with
  | none => exact fail he
  | some a =>
    obtain ⟨a', rfl, ha⟩ := h a rfl
    exact pure ha

theorem option (o : Option α) (he : C.Stops e) :
    C.Relates w (Run.ofOption o e) (Run.ofOption o e') equal :=
  ofOption he fun a ha => ⟨a, ha, rfl⟩

theorem frame_bind {k : Frame → Run β} {k' : Frame → Run β'}
    (h : ∀ m n, C.Machines w m n → C.Relates w (k m.frame) (k' n.frame) Q) :
    C.Relates w (Run.frame >>= k) (Run.frame >>= k') Q :=
  fun m n hm => h m n hm m n hm

end Relates

/-! ### Operands -/

section Operands

variable {sem sem' : Semantics} {x : NodeId} {xs : List NodeId}

/-- The nodes are evaluated to slots that correspond. -/
def Evaluates (C : Comparison) (sem sem' : Semantics) (x : NodeId) : Prop :=
  ∀ w, C.Relates w (sem.eval x) (sem'.eval x) C.Slots

theorem Evaluates.value (h : C.Evaluates sem sem' x) :
    C.Relates w (sem.value x) (sem'.value x) equal := by
  refine (h w).bind fun w' s s' _ hs => ?_
  cases hs with
  | value v => exact .pure rfl
  | array | void => exact .fail (C.stops rfl)

theorem Evaluates.array (h : C.Evaluates sem sem' x) :
    C.Relates w (sem.array x) (sem'.array x) C.Handles := by
  refine (h w).bind fun w' s s' _ hs => ?_
  cases hs with
  | array h => exact .pure h
  | value | void => exact .fail (C.stops rfl)

/-- By induction on the operands, their values are equal. -/
theorem values (h : ∀ x ∈ xs, C.Evaluates sem sem' x) :
    C.Relates w (sem.values xs) (sem'.values xs) equal := by
  induction xs generalizing w with
  | nil => exact .pure rfl
  | cons x xs ih =>
    rw [List.forall_mem_cons] at h
    refine h.1.value.bind_equal fun _ v _ => ?_
    exact (ih h.2).bind_equal fun _ vs _ => .pure rfl

/-- By induction on the operands, what they are evaluated to corresponds. -/
theorem slots_forall₂ (h : ∀ x ∈ xs, C.Evaluates sem sem' x) :
    C.Relates w (sem.slots xs) (sem'.slots xs) fun w' => List.Forall₂ (C.Slots w') := by
  induction xs generalizing w with
  | nil => exact .pure .nil
  | cons x xs ih =>
    rw [List.forall_mem_cons] at h
    refine (h.1 w).bind fun _ s s' _ hs => ?_
    exact (ih h.2).bind fun _ ss ss' hw hss => .pure (.cons (slots hw hs) hss)

/-- A phi has been assigned alike. -/
def Assigned (C : Comparison) (id : NodeId) : Prop :=
  ∀ w m n, C.Machines w m n → ∀ s, m.frame.phis.get? id = some s →
    ∃ s', n.frame.phis.get? id = some s' ∧ C.Slots w s s'

/-- Operations on scalars give equal values on equal operands. -/
theorem pure_operation {id : NodeId} {o : Operation} (ho : o.isPure = true)
    (hphi : o.isPhi = true → C.Assigned id) (h : ∀ x ∈ o.needs, C.Evaluates sem sem' x) :
    C.Relates w (sem.operation id o) (sem'.operation id o) C.Slots := by
  have done {w : C.World} {v : Value} :
      C.Relates w (Pure.pure (Slot.value v)) (Pure.pure (Slot.value v)) C.Slots := .pure (.value v)
  cases o with
  | parameter index type =>
    refine .frame_bind fun m n hm => ?_
    exact .ofOption (C.stops rfl) ((C.serves hm).args _)
  | phi merge values =>
    refine .frame_bind fun m n hm => ?_
    exact .ofOption (C.stops rfl) (hphi rfl w m n hm)
  | constant v => exact done
  | unary op x | convert op x => exact (h x (.head _)).value.bind_equal fun _ _ _ => done
  | binary op x y =>
    refine .frame_bind fun m n hm => ?_
    rw [(C.serves hm).graph]
    refine (Relates.option _ (C.stops rfl)).bind_equal fun _ kind _ => ?_
    refine (h x (.head _)).value.bind_equal fun _ a _ => ?_
    refine (h y (.tail _ (.head _))).value.bind_equal fun _ b _ => ?_
    cases binary op kind a b with
    | error e => exact .fail (C.stops rfl)
    | ok v => exact done
  | compare op x y | normalizeCompare x y =>
    refine (h x (.head _)).value.bind_equal fun _ a _ => ?_
    exact (h y (.tail _ (.head _))).value.bind_equal fun _ b _ => done
  | conditional c t e =>
    refine (h c (.head _)).value.bind_equal fun w v _ => ?_
    split
    · exact h t (.tail _ (.head _)) w
    · exact h e (.tail _ (.tail _ (.head _))) w
  | relabel op x => exact h x (.head _) w
  | math op args =>
    refine .frame_bind fun m n hm => ?_
    rw [(C.serves hm).graph]
    exact (values h).bind_equal fun _ _ _ => done
  | _ => cases ho

end Operands

/-! ### Graphs and arrays -/

/-- Every fault of a graph may stop the first evaluation. -/
def Lax (C : Comparison) : Prop := ∀ e, C.Stops (.graph e)

/-- Evaluations in the graph may be compared: nothing is missing there unless that may stop the
first of them, and so may an array that is too long. -/
structure Admits (C : Comparison) (g : Graph) : Prop where
  complete : g.Complete ∨ C.Lax
  room : ∀ {id element length}, g.kind? id = some (.operation (.newArray element length)) →
    Memory.fits length.toNat Memory.valueBytes = false → C.Stops (.noRoom length id)

theorem Lax.admits (h : C.Lax) (hroom : ∀ length id, C.Stops (.noRoom length id)) (g : Graph) :
    C.Admits g :=
  ⟨.inr h, fun _ _ => hroom _ _⟩

def element (handle i : Nat) : Run Value := do
  .ofOption (← Run.items handle)[i]? (.dangling handle)

/-- Arrays can be read and written on both sides. No array gets lost or shorter. -/
structure Sharing (C : Comparison) : Prop where
  items : ∀ {w i j}, C.Handles w i j → C.Relates w (Run.items i) (Run.items j) fun w' vs vs' =>
    vs' = vs ∧ ∀ w'' k, C.Later w' w'' → k < vs.size →
      C.Relates w'' (element i k) (element j k) equal
  write : ∀ {w i j} k v, C.Handles w i j →
    C.Relates w (Run.write i k v) (Run.write j k v) anything

/-- A phi can be assigned on both sides. -/
def Assigns (C : Comparison) (id : NodeId) : Prop :=
  ∀ {w s s'}, C.Slots w s s' → C.Relates w (Run.assign id s) (Run.assign id s') anything

/-- The two sides assign phis and allocate alike. -/
structure Flowing (C : Comparison) : Prop extends C.Sharing where
  phis : ∀ id, C.Assigned id
  assign : ∀ id, C.Assigns id
  allocate : ∀ {w} vs, C.Relates w (Run.allocate vs) (Run.allocate vs) C.Slots

/-- And they remember alike. -/
structure Lawful (C : Comparison) : Prop extends C.Flowing where
  known : ∀ {w m n} id, C.Machines w m n →
    Option.Rel (C.Slots w) (m.frame.known? id) (n.frame.known? id)
  remember : ∀ {w s s'} id, C.Slots w s s' →
    C.Relates w (Run.remember id s) (Run.remember id s') anything
  keep : ∀ {w s s'} id, C.Slots w s s' → C.Relates w (Run.keep id s) (Run.keep id s') anything
  forget : ∀ {w}, C.Relates w Run.forget Run.forget anything

variable {g : Graph} {id x : NodeId} {kind : NodeKind} {β β' : Type} {Q : C.World → β → β' → Prop}

/-- A node that can be evaluated, if that matters. -/
def Operand (C : Comparison) (g : Graph) (id : NodeId) : Prop := g.IsOperand id ∨ C.Lax

/-- A node that the walk can pass, if that matters. -/
def Station (C : Comparison) (g : Graph) (id : NodeId) : Prop := g.IsStation id ∨ C.Lax

theorem Admits.operand (hg : C.Admits g) (hk : g.kind? id = some kind) (hx : x ∈ kind.inputs) :
    C.Operand g x :=
  hg.complete.imp_left fun hg => hg.operand hk hx

theorem Admits.station (hg : C.Admits g) (hk : g.kind? id = some kind) (hx : x ∈ kind.successors) :
    C.Station g x :=
  hg.complete.imp_left fun hg => hg.valid.station hk hx

theorem Relates.ofGraph_bind {l : Except KernelError α} {P : α → Prop} {k : α → Run β}
    {k' : α → Run β'} (hl : (∃ a, l = .ok a ∧ P a) ∨ C.Lax)
    (h : ∀ a, l = .ok a → P a ∨ C.Lax → C.Relates w (k a) (k' a) Q) :
    C.Relates w (Run.ofGraph l >>= k) (Run.ofGraph l >>= k') Q := by
  cases l with
  | ok a =>
    refine h a rfl (hl.imp_left ?_)
    rintro ⟨b, hb, hP⟩
    cases hb
    exact hP
  | error e =>
    refine fun m n _ => .inr (.inl ⟨.graph e, rfl, hl.resolve_left ?_ _⟩)
    rintro ⟨b, hb, -⟩
    cases hb

theorem Relates.option_bind {o : Option α} {P : α → Prop} {e : KernelError} {k : α → Run β}
    {k' : α → Run β'} (ho : (∃ a, o = some a ∧ P a) ∨ C.Lax)
    (h : ∀ a, o = some a → P a ∨ C.Lax → C.Relates w (k a) (k' a) Q) :
    C.Relates w (Run.ofOption o (.graph e) >>= k) (Run.ofOption o (.graph e) >>= k') Q := by
  cases o with
  | some a => exact .ofGraph_bind (l := .ok a) (P := P) (by simpa using ho) (by simpa using h)
  | none => exact .ofGraph_bind (l := .error e) (P := P) (by simpa using ho) nofun

theorem Relates.kind_bind {P : NodeKind → Prop} {k : NodeKind → Run β} {k' : NodeKind → Run β'}
    (hid : (∃ kind, g.kind? id = some kind ∧ P kind) ∨ C.Lax)
    (h : ∀ kind, g.kind? id = some kind → P kind ∨ C.Lax → C.Relates w (k kind) (k' kind) Q) :
    C.Relates w (Run.ofGraph (g.kind id) >>= k) (Run.ofGraph (g.kind id) >>= k') Q := by
  refine .ofGraph_bind (P := P) (by simpa only [Graph.kind_eq_ok_iff] using hid) fun kind hk => ?_
  exact h kind (Graph.kind_eq_ok_iff.1 hk)

/-! ### The interpreter -/

/-- In the graph lambdas are called alike. -/
structure Calls (C : Comparison) (g : Graph) (sem sem' : Semantics) : Prop where
  admits : C.Admits g
  lambdas : sem'.lambdas = sem.lambdas
  call : ∀ {w name callee args args'}, lambda? sem.lambdas name = some callee →
    List.Forall₂ (C.Slots w) args args' →
      C.Relates w (sem.call callee args) (sem'.call callee args') C.Slots

namespace Calls

variable {sem sem' : Semantics} (h : C.Calls g sem sem') {args : List NodeId} {result : ElementType}
variable {name : String}
include h

theorem findLambda_bind {k : Graph → Run β} {k' : Graph → Run β'}
    (hk : ∀ callee, lambda? sem.lambdas name = some callee → C.Relates w (k callee) (k' callee) Q) :
    C.Relates w (findLambda sem.lambdas name >>= k) (findLambda sem'.lambdas name >>= k') Q := by
  rw [h.lambdas]
  cases hcallee : lambda? sem.lambdas name with
  | none =>
    refine fun m n _ => .inr (.inl ⟨.noLambda name, ?_, C.stops rfl⟩)
    rw [findLambda, hcallee]
    rfl
  | some callee =>
    rw [findLambda, hcallee]
    exact hk callee hcallee

/-- A call, a constructor or a component of a tuple. -/
theorem invoke {target : CallTarget} (hargs : ∀ x ∈ args, C.Evaluates sem sem' x)
    (hk : g.kind? id = some (.operation (.invoke target args result))) :
    C.Relates w (sem.invoke id args result target) (sem'.invoke id args result target) C.Slots := by
  cases target with
  | tupleField arity component =>
    refine .frame_bind fun m n hm => ?_
    rw [(C.serves hm).graph]
    have hobject := h.admits.complete.imp_left fun hg => hg.head_accessor hk
    refine .option_bind hobject fun object hobject _ => ?_
    refine (hargs object (List.mem_of_head? hobject)).value.bind_equal fun _ v _ => ?_
    exact (Relates.option _ (C.stops rfl)).bind_equal fun _ c _ => .pure (.value c)
  | lambda name =>
    refine h.findLambda_bind fun callee hcallee => ?_
    refine (slots_forall₂ hargs).bind fun _ ss ss' _ hss => ?_
    refine (h.call hcallee hss).bind fun _ s s' _ hs => ?_
    cases hs with
    | value v => exact .pure (.value _)
    | array hs => exact .pure (.array hs)
    | void => exact .pure .void
  | builtin name =>
    refine (values hargs).bind_equal fun _ vs _ => ?_
    exact (Relates.option _ (C.stops rfl)).bind_equal fun _ v _ => .pure (.value _)

/-- By induction on the length, a fused map makes the same calls and stores what they give. -/
theorem mapFrom {callee : Graph} (hcallee : lambda? sem.lambdas name = some callee)
    (type : ElementType)
    {handle handle' i count : Nat} (helement : ∀ w' k, C.Later w w' → k < i + count →
      C.Relates w' (element handle k) (element handle' k) equal) :
    C.Relates w (sem.mapFrom callee name type handle i count)
      (sem'.mapFrom callee name type handle' i count) equal := by
  induction count generalizing w i with
  | zero => exact .pure rfl
  | succ count ih =>
    unfold Semantics.mapFrom
    rw [← bind_assoc (Run.items handle), ← bind_assoc (Run.items handle')]
    refine (helement w i (C.refl w) (by omega)).bind_equal fun w₁ v h₁ => ?_
    refine (h.call hcallee (.cons (.value v) .nil)).bind fun w₂ s s' h₂ hs => ?_
    cases hs with
    | value r =>
      refine (ih fun w' k hw hlt => ?_).bind_equal fun _ rs _ => .pure rfl
      exact helement w' k (C.trans h₁ (C.trans h₂ hw)) (by omega)
    | array _ => exact .fail (C.stops rfl)
    | void => exact .fail (C.stops rfl)

/-- The step of evaluation for each operation. -/
theorem operation (hC : C.Flowing) {o : Operation} (hk : g.kind? id = some (.operation o))
    (hin : ∀ x ∈ o.needs, C.Evaluates sem sem' x) :
    C.Relates w (sem.operation id o) (sem'.operation id o) C.Slots := by
  have done {w : C.World} {v : Value} :
      C.Relates w (Pure.pure (Slot.value v)) (Pure.pure (Slot.value v)) C.Slots := .pure (.value v)
  cases o with
  | arrayLength array =>
    refine (hin array (.head _)).array.bind fun _ i j _ hij => ?_
    refine (hC.items hij).bind fun _ vs vs' _ hvs => ?_
    rw [hvs.1]
    exact done
  | loadIndexed array index =>
    refine Relates.bind_equal ?_ fun _ v _ => done
    refine (hin array (.head _)).array.bind fun _ i j _ hij => ?_
    refine (hin index (.tail _ (.head _))).value.bind_equal fun _ v hw => ?_
    refine (hC.items (C.handles hw hij)).bind fun _ vs vs' _ hvs => ?_
    rw [hvs.1]
    exact .option _ (C.stops rfl)
  | loadField object field =>
    refine (hin object (.head _)).value.bind_equal fun _ v _ => ?_
    exact (Relates.option _ (C.stops rfl)).bind_equal fun _ c _ => done
  | newInstance type fields =>
    refine (values hin).bind_equal fun _ vs _ => ?_
    split <;> exact done
  | newArray element length =>
    simp only [Semantics.operation]
    split
    · exact hC.allocate _
    · rename_i hroom
      exact .fail (h.admits.room hk (Bool.eq_false_iff.2 hroom))
  | invoke target args result => exact h.invoke hin hk
  | mapChain name array capacity type =>
    refine h.findLambda_bind fun callee hcallee => ?_
    refine (hin array (.head _)).array.bind fun _ i j _ hij => ?_
    refine (hC.items hij).bind fun _ vs vs' _ hvs => ?_
    rw [hvs.1]
    refine (h.mapFrom hcallee type fun w' k hw hlt => hvs.2 w' k hw ?_).bind_equal fun _ rs _ => ?_
    · omega
    · exact hC.allocate _
  | _ => exact pure_operation rfl (fun _ => hC.phis id) hin

/-- A node is looked up, or else evaluated and kept. -/
theorem node (hC : C.Lawful) (hgraph : ∀ {w m n}, C.Machines w m n → m.frame.graph = g)
    (hid : C.Operand g id)
    (hin : ∀ o, g.kind? id = some (.operation o) → ∀ x ∈ o.needs, C.Evaluates sem sem' x) :
    C.Relates w (sem.node id) (sem'.node id) C.Slots := by
  refine .frame_bind fun m n hm => ?_
  have hknown := hC.known id hm
  rw [(C.serves hm).graph, hgraph hm]
  generalize m.frame.known? id = o, n.frame.known? id = o' at hknown ⊢
  cases hknown with
  | some hs => exact .pure hs
  | none =>
    refine .kind_bind hid fun kind hk hvalue => ?_
    cases kind with
    | control c => exact .fail (hvalue.resolve_left Bool.false_ne_true _)
    | unsupported name inputs next => exact .fail (C.stops rfl)
    | operation o =>
      refine (h.operation hC.toFlowing hk (hin o hk)).bind fun _ s s' _ hs => ?_
      split
      · exact (hC.keep id hs).bind fun _ _ _ hw _ => .pure (slots hw hs)
      · exact (hC.remember id hs).bind fun _ _ _ hw _ => .pure (slots hw hs)

end Calls

/-! ### The walk -/

/-- And nodes are evaluated alike. -/
structure Agrees (C : Comparison) (g : Graph) (sem sem' : Semantics) :
    Prop extends C.Calls g sem sem' where
  eval : ∀ {id}, C.Operand g id → C.Evaluates sem sem' id

namespace Agrees

variable {sem sem' : Semantics} (h : C.Agrees g sem sem')
variable {merge stop value : NodeId} {phis : List NodeId} {c : Control}
include h

theorem inputs (hk : g.kind? id = some kind) : ∀ x ∈ kind.inputs, C.Evaluates sem sem' x :=
  fun _ hx => h.eval (h.admits.operand hk hx)

/-- By induction on the phis, the values that come in correspond. -/
theorem incoming (hstop : stop ∈ g.endsOf merge) (hphis : ∀ phi ∈ phis, phi ∈ g.phisOf merge) :
    C.Relates w (sem.incoming g stop phis) (sem'.incoming g stop phis) fun w' =>
      List.Forall₂ fun e e' => e.1 ∈ g.phisOf merge ∧ e'.1 = e.1 ∧ C.Slots w' e.2 e'.2 := by
  induction phis generalizing w with
  | nil => exact .pure .nil
  | cons phi phis ih =>
    rw [List.forall_mem_cons] at hphis
    have hvalue := h.admits.complete.imp_left fun hg => hg.phiValueAt hphis.1 hstop
    refine .ofGraph_bind hvalue fun value _ hvalue => ?_
    refine (h.eval hvalue _).bind fun _ s s' _ hs => ?_
    refine (ih hphis.2).bind fun _ es es' hw hes => .pure (.cons ⟨hphis.1, rfl, slots hw hs⟩ hes)

omit h in
/-- By induction on the phis, the values are assigned. -/
theorem assignAll {es es' : List (NodeId × Slot)}
    (hes : List.Forall₂ (fun e e' => C.Assigns e.1 ∧ e'.1 = e.1 ∧ C.Slots w e.2 e'.2) es es') :
    C.Relates w (Semantics.assignAll es) (Semantics.assignAll es') anything := by
  induction es generalizing es' w with
  | nil =>
    cases hes
    exact .pure trivial
  | cons e es ih =>
    obtain ⟨⟨_, s'⟩, es', ⟨hassign, rfl, hs⟩, hrest, rfl⟩ := List.forall₂_cons_left_iff.1 hes
    refine (hassign hs).bind fun _ _ _ hw _ => ih ?_
    exact hrest.imp fun _ _ he => ⟨he.1, he.2.1, slots hw he.2.2⟩

theorem join (hassign : ∀ phi ∈ g.phisOf merge, C.Assigns phi) (hstop : stop ∈ g.endsOf merge) :
    C.Relates w (sem.join g merge stop) (sem'.join g merge stop) anything :=
  (h.incoming hstop fun _ hphi => hphi).bind fun _ _ _ _ hes =>
    assignAll (hes.imp fun _ _ he => ⟨hassign _ he.1, he.2⟩)

/-- By induction on the phis of a loop, each takes its first value. -/
theorem enterLoop {head : NodeId} (hassign : ∀ phi ∈ g.phisOf head, C.Assigns phi)
    (hhead : g.isLoopHead head = true) (hphis : ∀ phi ∈ phis, phi ∈ g.phisOf head) :
    C.Relates w (sem.enterLoop g phis) (sem'.enterLoop g phis) anything := by
  induction phis generalizing w with
  | nil => exact .pure trivial
  | cons phi phis ih =>
    rw [List.forall_mem_cons] at hphis
    have hphi : (∃ kind, g.kind? phi = some kind ∧ ∃ values, kind = .operation (.phi head values) ∧
        ∃ first, values.head? = some first ∧ g.IsOperand first) ∨ C.Lax := by
      refine h.admits.complete.imp_left fun hg => ?_
      obtain ⟨values, hk⟩ := hg.valid.mem_phisOf.1 hphis.1
      exact ⟨_, hk, values, rfl, hg.head_phi hk hhead⟩
    refine .kind_bind hphi fun kind _ hkind => ?_
    split
    · refine .option_bind (P := g.IsOperand) (hkind.imp_left ?_) fun first _ hfirst => ?_
      · rintro ⟨values, heq, hfirst⟩
        cases heq
        exact hfirst
      · refine (h.eval hfirst _).bind fun _ s s' _ hs => ?_
        exact (hassign phi hphis.1 hs).bind fun _ _ _ _ _ => ih hphis.2
    · rename_i hother
      refine .fail (hkind.resolve_left ?_ _)
      rintro ⟨values, rfl, -⟩
      exact hother head values rfl

omit h in
theorem storeIndexed (hC : C.Sharing) {array index : NodeId}
    (h : ∀ x ∈ [array, index, value], C.Evaluates sem sem' x) :
    C.Relates w (sem.storeIndexed id array index value) (sem'.storeIndexed id array index value)
      anything := by
  refine (h array (.head _)).array.bind fun _ i j _ hij => ?_
  refine (h index (.tail _ (.head _))).value.bind_equal fun _ p hw => ?_
  refine (h value (.tail _ (.tail _ (.head _)))).value.bind_equal fun _ v hw' => ?_
  have hij := C.handles (C.trans hw hw') hij
  refine (hC.items hij).bind fun _ vs vs' hw hvs => ?_
  rw [hvs.1]
  cases position? p.asInt64 with
  | none => exact .fail (C.stops rfl)
  | some p =>
    simp only
    split
    · exact hC.write p v (C.handles hw hij)
    · exact .fail (C.stops rfl)

omit h in
theorem storeField (hC : C.Lawful) {object : NodeId} (field : UInt64)
    (h : ∀ x ∈ [object, value], C.Evaluates sem sem' x) :
    C.Relates w (sem.storeField id object field value) (sem'.storeField id object field value)
      anything := by
  refine (h value (.tail _ (.head _))).value.bind_equal fun _ v _ => ?_
  refine (h object (.head _)).value.bind_equal fun _ tuple _ => ?_
  cases tuple with
  | scalar s => exact .fail (C.stops rfl)
  | tuple vs =>
    simp only
    split
    · exact hC.remember object (.value _)
    · exact .fail (C.stops rfl)

/-- Where a step leads: to the same node, which the walk can pass, or to results that correspond. -/
inductive Nexts (C : Comparison) (g : Graph) (id : NodeId) (w : C.World) : Next → Next → Prop
  | goto {next : NodeId} (back : Bool) : g.LeadsTo id next → C.Station g next →
      Nexts C g id w (.goto next back) (.goto next back)
  | done {s s' : Slot} : C.Slots w s s' → Nexts C g id w (.done s) (.done s')

/-- A control node does the same if that holds of what it does with phis, with the memory and with
tuples. -/
theorem control_of (hC : C.Sharing) (hk : g.kind? id = some (.control c)) (back : Bool)
    (hjoin : ∀ {w m}, c = .join m ∨ c = .backEdge m →
      C.Relates w (sem.join g m id) (sem'.join g m id) anything)
    (hloop : ∀ {w next bound}, c = .loopHead next bound →
      C.Relates w (sem.enterLoop g (g.phisOf id)) (sem'.enterLoop g (g.phisOf id)) anything)
    (hforget : ∀ {w head}, c = .backEdge head → C.Relates w Run.forget Run.forget anything)
    (hstore : ∀ {w object field value next}, c = .storeField object field value next →
      C.Relates w (sem.storeField id object field value) (sem'.storeField id object field value)
        anything) : C.Relates w (sem.control g id back c) (sem'.control g id back c)
          (Nexts C g id) := by
  have hin := h.inputs hk
  have goto {next : NodeId} {back : Bool} {w : C.World} (hnext : next ∈ c.successors) :
      C.Relates w (Pure.pure (Next.goto next back)) (Pure.pure (Next.goto next back))
        (Nexts C g id) :=
    .pure (.goto back ⟨c, hk, .inl hnext⟩ (h.admits.station hk hnext))
  cases c with
  | start next => exact goto (.head _)
  | region next => exact goto (.head _)
  | merge next => exact goto (.head _)
  | loopExit head next => exact goto (.head _)
  | branch c t e =>
    refine (hin c (.head _)).value.bind_equal fun _ v _ => goto ?_
    split
    · exact .head _
    · exact .tail _ (.head _)
  | join m => exact (hjoin (.inl rfl)).bind fun _ _ _ _ _ => goto (.head _)
  | loopHead next bound =>
    cases back with
    | true => exact goto (.head _)
    | false => exact (hloop rfl).bind fun _ _ _ _ _ => goto (.head _)
  | backEdge head =>
    refine (hjoin (.inr rfl)).bind fun _ _ _ _ _ => (hforget rfl).bind fun _ _ _ _ _ => ?_
    refine .pure (.goto true ⟨_, hk, .inr rfl⟩ (h.admits.complete.imp_left fun hg => ?_))
    obtain ⟨next, bound, hhead⟩ := hg.valid.loopHead_of_backEdge hk
    exact ⟨_, hhead, rfl⟩
  | storeIndexed array index value next =>
    exact (storeIndexed hC hin).bind fun _ _ _ _ _ => goto (.head _)
  | storeField object field value next => exact (hstore rfl).bind fun _ _ _ _ _ => goto (.head _)
  | guard c negated next =>
    refine (hin c (.head _)).value.bind_equal fun _ v _ => ?_
    split
    · exact fun m n _ => .inr (.inl ⟨_, rfl, C.stops rfl⟩)
    · exact goto (.head _)
  | ret value =>
    cases value with
    | none => exact .pure (.done .void)
    | some v => exact (hin v (.head _) w).bind fun _ s s' _ hs => .pure (.done hs)
  | deoptimize => exact .fail (C.stops rfl)

/-- The node is among the ends of its merge, so every phi there has a value for it. -/
theorem join_of_control (hk : g.kind? id = some (.control c)) {m : NodeId}
    (hassign : ∀ phi ∈ g.phisOf m, C.Assigns phi) (hc : c = .join m ∨ c = .backEdge m) :
    C.Relates w (sem.join g m id) (sem'.join g m id) anything := by
  refine h.join hassign (List.mem_map.2 ⟨_, List.mem_filter.2 ⟨Graph.mem_of_kind? hk, ?_⟩, rfl⟩)
  obtain rfl | rfl := hc <;> exact decide_eq_true rfl

theorem enterLoop_of_control {next : NodeId} {bound : Option NodeId}
    (hk : g.kind? id = some (.control (.loopHead next bound)))
    (hassign : ∀ phi ∈ g.phisOf id, C.Assigns phi) :
    C.Relates w (sem.enterLoop g (g.phisOf id)) (sem'.enterLoop g (g.phisOf id)) anything :=
  h.enterLoop hassign (by rw [Graph.isLoopHead, hk]) fun _ hphi => hphi

variable (hC : C.Lawful)
include hC

/-- The step of a walk for each control node. -/
theorem control (hk : g.kind? id = some (.control c)) (back : Bool) :
    C.Relates w (sem.control g id back c) (sem'.control g id back c) (Nexts C g id) := by
  refine h.control_of hC.toSharing hk back (h.join_of_control hk fun phi _ => hC.assign phi) ?_
    (fun _ => hC.forget) ?_
  · rintro w next bound rfl
    exact h.enterLoop_of_control hk fun phi _ => hC.assign phi
  · rintro w object field value next rfl
    exact storeField hC field (h.inputs hk)

/-- One step leads both walks to one node, or ends both with results that correspond. -/
theorem step (hid : C.Station g id) (back : Bool) :
    C.Relates w (sem.step g id back) (sem'.step g id back) (Nexts C g id) := by
  refine .kind_bind hid fun kind hk hstep => ?_
  cases kind with
  | control c => exact h.control hC hk back
  | unsupported name inputs next => exact .fail (C.stops rfl)
  | operation o => exact .fail (hstep.resolve_left Bool.false_ne_true _)

/-- By induction on the steps, both walks end with results that correspond. -/
theorem walk (hstops : C.Stops .outOfFuel) {fuel fuel' : Nat} (hfuel : fuel ≤ fuel')
    (hid : C.Station g id) (back : Bool) :
    C.Relates w (sem.walk g fuel id back) (sem'.walk g fuel' id back) C.Slots := by
  induction fuel generalizing fuel' w id back with
  | zero => exact .fail hstops
  | succ fuel ih =>
    obtain ⟨fuel', rfl⟩ := Nat.exists_eq_add_of_lt hfuel
    refine (h.step hC hid back).bind fun _ next next' _ hnext => ?_
    cases hnext with
    | goto back _ hnext => exact ih (by omega) hnext back
    | done hs => exact .pure hs

end Agrees

end Comparison

/-! ### Machines that are alike -/

/-- Slots that are found alike: in both places, or in neither. -/
abbrev Slot.Found (R : Nat → Nat → Prop) : Option Slot → Option Slot → Prop :=
  Option.Rel (Slot.Like R)

namespace Slot.Found

variable {o o' p p' : Option Slot}

theorem mono (h : Found R o o') (hRS : ∀ i j, R i j → S i j) : Found S o o' := by
  cases h with
  | some hs => exact .some (hs.mono hRS)
  | none => exact .none

theorem or (h : Found R o o') (h' : Found R p p') : Found R (o.or p) (o'.or p') := by
  cases h with
  | some hs => exact .some hs
  | none => exact h'

theorem exists_like (h : Found R o o') (ho : o = some s) : ∃ s', o' = some s' ∧ s.Like R s' := by
  cases h with
  | some hs =>
    cases ho
    exact ⟨_, rfl, hs⟩
  | none => cases ho

theorem insert {t t' : Table} (h : ∀ id, Found R (t.get? id) (t'.get? id)) (hs : s.Like R s')
    (id other : NodeId) : Found R ((t.insert id s).get? other) ((t'.insert id s').get? other) := by
  by_cases ho : other = id
  · subst ho
    rw [Table.get?_insert_self, Table.get?_insert_self]
    exact .some hs
  · rw [Table.get?_insert_of_ne ho, Table.get?_insert_of_ne ho]
    exact h other

theorem getElem? {l l' : List Slot} (h : List.Forall₂ (Slot.Like R) l l') (i : Nat) :
    Found R l[i]? l'[i]? := by
  induction h generalizing i with
  | nil => exact .none
  | cons hs _ ih =>
    cases i with
    | zero => exact .some hs
    | succ i => exact ih i

end Slot.Found

/-- The frames are those of one call, with all that they hold alike. -/
structure Frame.Like (R : Nat → Nat → Prop) (f f' : Frame) : Prop where
  graph : f'.graph = f.graph
  args : ∀ i : Nat, Slot.Found R f.args[i]? f'.args[i]?
  phis : ∀ id, Slot.Found R (f.phis.get? id) (f'.phis.get? id)
  memo : ∀ id, Slot.Found R (f.memo.get? id) (f'.memo.get? id)
  arrays : ∀ id, Slot.Found R (f.arrays.get? id) (f'.arrays.get? id)

namespace Frame.Like

variable {f f' : Frame}

theorem enter {args args' : List Slot} (g : Graph) (h : List.Forall₂ (Slot.Like R) args args') :
    (Frame.enter g args).Like R (.enter g args') :=
  ⟨rfl, .getElem? h, fun _ => .none, fun _ => .none, fun _ => .none⟩

theorem mono (h : f.Like R f') (hRS : ∀ i j, R i j → S i j) : f.Like S f' :=
  ⟨h.graph, fun i => (h.args i).mono hRS, fun id => (h.phis id).mono hRS,
    fun id => (h.memo id).mono hRS, fun id => (h.arrays id).mono hRS⟩

theorem serves (h : f.Like R f') : f.Serves R f' := ⟨h.graph, fun i _ => (h.args i).exists_like⟩

end Frame.Like

/-! ### Beyond the limit on calls -/

mutual

/-- The value of a node, where `deep` stands for the calls that are nested too deep. -/
def evalBeyond (deep : Graph → List Slot → Run Slot) (lambdas : List Graph) :
    Nat → Nat → NodeId → Run Slot
  | 0, _, _ => .fail .outOfFuel
  | fuel + 1, depth, id =>
    Semantics.node ⟨lambdas, evalBeyond deep lambdas fuel depth, runBeyond deep lambdas fuel
      (depth + 1)⟩ id

/-- A call, where `deep` stands for those that are nested too deep. -/
def runBeyond (deep : Graph → List Slot → Run Slot) (lambdas : List Graph) :
    Nat → Nat → Graph → List Slot → Run Slot
  | 0, _, _, _ => .fail .outOfFuel
  | fuel + 1, depth, g, args =>
    if depth > maxCallDepth then deep g args
    else .within (.enter g args) do
      let start ← Run.ofGraph g.start
      Semantics.walk ⟨lambdas, evalBeyond deep lambdas fuel depth,
        runBeyond deep lambdas fuel (depth + 1)⟩ g fuel start false

end

abbrev Semantics.beyond (deep : Graph → List Slot → Run Slot) (lambdas : List Graph)
    (fuel depth : Nat) : Semantics :=
  ⟨lambdas, evalBeyond deep lambdas fuel depth, runBeyond deep lambdas fuel (depth + 1)⟩

theorem beyond_limit (lambdas : List Graph) (fuel depth : Nat) :
    evalBeyond (fun g _ => .fail (.callDepth g.name)) lambdas fuel depth = eval lambdas fuel depth ∧
    runBeyond (fun g _ => .fail (.callDepth g.name)) lambdas fuel depth =
      run lambdas fuel depth := by
  induction fuel generalizing depth with
  | zero => constructor <;> rfl
  | succ fuel ih =>
    constructor
    · funext id
      rw [evalBeyond, eval, (ih depth).1, (ih (depth + 1)).2]
    · funext g args
      rw [runBeyond, run, (ih depth).1, (ih (depth + 1)).2]

/-! ### Arrays in pairs -/

/-- How the arrays of two evaluations are paired. -/
structure Pairing extends Terms where
  Arenas : World → Arena → Arena → Prop
  get {w : World} {a b : Arena} {i j : Nat} : Arenas w a b → Handles w i j → b[j]? = a[i]?
  push {w : World} {a b : Arena} (vs : Array Value) : Arenas w a b →
    ∃ w', Later w w' ∧ Arenas w' (a.push vs) (b.push vs) ∧ Handles w' a.size b.size
  modify {w : World} {a b : Arena} {i j : Nat} (k : Nat) (v : Value) : Arenas w a b →
    Handles w i j →
    ∃ w', Later w w' ∧ Arenas w' (a.modify i fun vs => vs.setIfInBounds k v)
      (b.modify j fun vs => vs.setIfInBounds k v)
  /-- An array is there and keeps its length, unless its lack may stop the first evaluation. -/
  stays {w w' : World} {a b a' b' : Arena} {i j : Nat} : Later w w' → Arenas w a b →
    Arenas w' a' b' →
    Handles w i j →
      (∃ vs ws, a[i]? = some vs ∧ a'[i]? = some ws ∧ ws.size = vs.size) ∨ Stops (.dangling i)

namespace Pairing

variable {H : Pairing} {g : Graph} {w : H.World}

def within (H : Pairing) (g : Graph) : Comparison where
  toTerms := H.toTerms
  Machines w m n :=
    m.frame.graph = g ∧ m.frame.Like (H.Handles w) n.frame ∧ H.Arenas w m.arena n.arena
  serves hm := hm.2.1.serves

theorem modifyFrame {u u' : Frame → Frame} (hgraph : ∀ f, (u f).graph = f.graph)
    (h : ∀ f f' : Frame, f.Like (H.Handles w) f' → (u f).Like (H.Handles w) (u' f')) :
    (H.within g).Relates w (Run.modifyFrame u) (Run.modifyFrame u') Comparison.anything := by
  rintro m n ⟨rfl, hframe, harena⟩
  exact .inl ⟨_, _, _, _, w, rfl, rfl, H.refl w, ⟨hgraph _, h _ _ hframe, harena⟩, trivial⟩

theorem items {i j : Nat} (hij : H.Handles w i j) :
    (H.within g).Relates w (Run.items i) (Run.items j) fun w' vs vs' =>
      vs' = vs ∧ ∃ a b, H.Arenas w' a b ∧ a[i]? = some vs := by
  intro m n hm
  cases hvs : m.arena[i]? with
  | none =>
    refine .inr (.inl ⟨.dangling i, by rw [Run.items, hvs], ?_⟩)
    exact (H.stays (H.refl w) hm.2.2 hm.2.2 hij).resolve_left (by simp [hvs])
  | some vs =>
    refine .inl ⟨vs, vs, m, n, w, ?_, ?_, H.refl w, hm, rfl, m.arena, n.arena, hm.2.2, hvs⟩
    · rw [Run.items, hvs]
    · rw [Run.items, H.get hm.2.2 hij, hvs]

/-- What a comparison asks of its machines holds of those that are paired. -/
theorem lawful (H : Pairing) (g : Graph) : (H.within g).Lawful where
  items {w i j} hij := by
    refine (items hij).imp fun w' vs vs' hw' hvs => ⟨hvs.1, fun w'' k hw hk => ?_⟩
    obtain ⟨-, a, b, hab, hvs⟩ := hvs
    have hij' := H.handles hw' hij
    refine (items (H.handles hw hij')).bind fun w₃ ws ws' hw₃ hws => ?_
    obtain ⟨rfl, a', b', hab', hws⟩ := hws
    rcases H.stays (H.trans hw hw₃) hab hab' hij' with ⟨_, _, hvs', hws', hsize⟩ | hstop
    · cases hvs.symm.trans hvs'
      cases hws.symm.trans hws'
      rw [Array.getElem?_eq_getElem (by omega)]
      exact .pure rfl
    · exact .option _ hstop
  write {w i j} k v hij := by
    rintro m n ⟨hg, hframe, harena⟩
    obtain ⟨w', hw, harena'⟩ := H.modify k v harena hij
    exact .inl ⟨_, _, _, _, w', rfl, rfl, hw, ⟨hg, hframe.mono fun _ _ => H.handles hw, harena'⟩,
      trivial⟩
  phis id w m n hm s := (hm.2.1.phis id).exists_like
  known id hm := (hm.2.1.memo id).or (hm.2.1.arrays id)
  remember id hs :=
    modifyFrame (fun _ => rfl) fun _ _ hf => { hf with memo := .insert hf.memo hs id }
  keep id hs :=
    modifyFrame (fun _ => rfl) fun _ _ hf => { hf with arrays := .insert hf.arrays hs id }
  assign id _ _ _ hs :=
    modifyFrame (fun _ => rfl) fun _ _ hf => { hf with phis := .insert hf.phis hs id }
  forget := modifyFrame (fun _ => rfl) fun _ _ hf => { hf with memo := fun _ => .none }
  allocate {w} vs := by
    rintro m n ⟨hg, hframe, harena⟩
    obtain ⟨w', hw, harena', hnew⟩ := H.push vs harena
    exact .inl ⟨_, _, _, _, w', rfl, rfl, hw, ⟨hg, hframe.mono fun _ _ => H.handles hw, harena'⟩,
      .array hnew⟩

/-- A call leaves the frame of the caller, and what was known of it, as they were. -/
theorem call {callee : Graph} {f f' : Frame} {act : Run α} {act' : Run α'}
    {Q : H.World → α → α' → Prop} (hgraph : f.graph = callee) (hf : f.Like (H.Handles w) f')
    (h : (H.within callee).Relates w act act' Q) :
    (H.within g).Relates w (Run.within f act) (Run.within f' act') Q := by
  rintro m n ⟨hg, hframe, harena⟩
  rcases h ⟨f, m.arena⟩ ⟨f', n.arena⟩ ⟨hgraph, hf, harena⟩ with
    ⟨a, a', m', n', w', ha, ha', hw, hm', hQ⟩ | ⟨e, ha, he⟩ | ⟨e, ha', he⟩
  · refine .inl ⟨a, a', ⟨m.frame, m'.arena⟩, ⟨n.frame, n'.arena⟩, w', ?_, ?_, hw,
      ⟨hg, hframe.mono fun _ _ => H.handles hw, hm'.2.2⟩, hQ⟩
    · rw [Run.within, ha]
    · rw [Run.within, ha']
  · exact .inr (.inl ⟨e, by rw [Run.within, ha], he⟩)
  · exact .inr (.inr ⟨e, by rw [Run.within, ha'], he⟩)

/-- Evaluations with some fuel are related to those of `eval'`, and calls to those of `run'`, in the
graphs of `G`. -/
structure Related (H : Pairing) (lambdas : List Graph) (fuel depth : Nat) (G : Graph → Prop)
    (eval' : NodeId → Run Slot) (run' : Graph → List Slot → Run Slot) : Prop where
  eval : ∀ g, G g → ∀ id, (H.within g).Operand g id → ∀ w,
    (H.within g).Relates w (eval lambdas fuel depth id) (eval' id) (H.within g).Slots
  run : ∀ g callee, G callee → ∀ w args args', List.Forall₂ ((H.within g).Slots w) args args' →
    (H.within g).Relates w (run lambdas fuel depth callee args) (run' callee args')
      (H.within g).Slots

section Related

variable (lambdas : List Graph) (deeper : Nat) {fuel fuel' : Nat} {G : Graph → Prop}
  (hadmits : ∀ g, G g → (H.within g).Admits g)
  (hlambdas : ∀ name g, lambda? lambdas name = some g → G g) (hfuel : fuel ≤ fuel')
  (hstops : H.Stops .outOfFuel)
include hadmits hlambdas hfuel hstops

/-- Among lambdas that may be compared, evaluations and calls are related. The second may start
deeper, if what it does beyond the limit may stop it. -/
theorem related_beyond (deep : Graph → List Slot → Run Slot)
    (hdeeper : 0 < deeper → ∀ g args m, ∃ e, deep g args m = .error e ∧ H.Stops' e) (depth : Nat) :
    H.Related lambdas fuel depth G (evalBeyond deep lambdas fuel' (depth + deeper))
      (runBeyond deep lambdas fuel' (depth + deeper)) := by
  induction fuel generalizing fuel' depth with
  | zero =>
    refine ⟨fun _ _ _ _ _ => ?_, fun _ _ _ _ _ _ _ => ?_⟩ <;> simp only [eval, run]
    all_goals exact .fail hstops
  | succ fuel ih =>
    obtain ⟨fuel', rfl⟩ : ∃ n, fuel' = n + 1 := ⟨fuel' - 1, by omega⟩
    have hle : fuel ≤ fuel' := by omega
    have hcall := (ih hle (depth + 1)).2
    rw [Nat.add_right_comm] at hcall
    -- operands and calls get by with less fuel
    have hagrees (g : Graph) (hg : G g) : (H.within g).Agrees g (.withFuel lambdas fuel depth)
        (.beyond deep lambdas fuel' (depth + deeper)) :=
      ⟨⟨hadmits g hg, rfl, fun hcallee hargs => hcall g _ (hlambdas _ _ hcallee) _ _ _ hargs⟩,
        fun hid => (ih hle depth).1 g hg _ hid⟩
    constructor
    · intro g hg id hid w
      simp only [eval, evalBeyond]
      refine (hagrees g hg).node (H.lawful g) (fun hm => hm.1) hid fun o hk x hx => ?_
      exact (hagrees g hg).inputs hk x (Operation.mem_inputs_of_mem_needs hx)
    · intro g callee hcallee w args args' hargs
      simp only [run, runBeyond]
      by_cases hdepth : depth > maxCallDepth
      · rw [if_pos hdepth]
        exact .fail (H.stops rfl)
      · rw [if_neg hdepth]
        by_cases hdepth' : depth + deeper > maxCallDepth
        · -- only the deeper start is beyond the limit
          rw [if_pos hdepth']
          exact fun m n _ => .inr (.inr (hdeeper (by omega) callee args' n))
        · rw [if_neg hdepth']
          have hstart := (hadmits callee hcallee).complete.imp_left fun hg => hg.exists_start
          refine call rfl (.enter callee hargs) (.ofGraph_bind hstart fun start _ hstart => ?_)
          exact (hagrees callee hcallee).walk (H.lawful callee) hstops hle hstart false

theorem related (hdeeper : 0 < deeper → ∀ name, H.Stops' (.callDepth name)) (depth : Nat) :
    H.Related lambdas fuel depth G (eval lambdas fuel' (depth + deeper))
      (run lambdas fuel' (depth + deeper)) := by
  rw [← (beyond_limit lambdas fuel' _).1, ← (beyond_limit lambdas fuel' _).2]
  exact related_beyond lambdas deeper hadmits hlambdas hfuel hstops _
    (fun h g _ _ => ⟨_, rfl, hdeeper h g.name⟩) depth

end Related

end Pairing

end Host

end Kernelwright
