import Kernelwright.Proofs.Code.Running
import Kernelwright.Proofs.Lowering.Reduction

/-!
# Running reductions

A round of a reduction calls the lambda on an element and on what stands in the first place, and
leaves the result in the first cells of the output and of the input. In memory that makes the next
round go on with the result. A progression is computed anew in every round, so the last round
counts.
-/

namespace Kernelwright.Lowering

open Code

variable {p : Progression} {t v : Scalar} {layout : Option SequenceLayout} {array : Name}

namespace Supply

variable (supply : Supply)
variable {n i : Nat} {k : ScalarKind}

/-- The element at an index, as the text of a kernel takes it from the cells of the input or
computes it. -/
def element? (cells : List Scalar) (i : Nat) : Option Scalar :=
  match supply with
  | memory _ => cells[i]?
  | progression p s t => some ((multipleAbove (Literal.ofScalar s).value
      (Literal.ofScalar (t.cast s.kind)).value (word (kernelIndex p i))).cast s.kind)

def declared (n i : Nat) (v : Scalar) : List (Name × Scalar) :=
  match supply with
  | memory _ => [(.fresh .element n, v)]
  | progression p .. =>
    (.fresh .field n, v) ::
      if (indexRule? p).isSome then [(.fresh .thread (n + 1), word (kernelIndex p i))] else []

/-- What a round begins with: what is in the first cell, or the first element of a progression. -/
def first (x acc : Scalar) : Scalar :=
  match supply with
  | memory _ => acc
  | progression .. => x

theorem width_pos : 0 < supply.width := by
  cases supply with
  | memory => exact Nat.one_pos
  | progression p =>
    rw [width]
    split <;> decide

theorem value?_name (s : State) (n : Nat) :
    s.value? (supply.name n) = s.vars.lookup (supply.name n) := by
  cases supply <;> rfl

theorem lookup_name (n i : Nat) (v : Scalar) (vars : List (Name × Scalar)) :
    (supply.declared n i v ++ vars).lookup (supply.name n) = some v := by
  cases supply <;> simp [declared, name]

theorem name_ne_fresh {m : Nat} (h : n < m) (role : Role) : supply.name n ≠ .fresh role m := by
  intro heq
  cases supply <;> cases heq <;> exact Nat.lt_irrefl _ h

variable {supply}

theorem lookup_declared {x : Name} (hx : ∀ role m, n ≤ m → x ≠ .fresh role m) (i : Nat) (v : Scalar)
    (vars : List (Name × Scalar)) : (supply.declared n i v ++ vars).lookup x = vars.lookup x := by
  have hne : ∀ role m, n ≤ m → (x == Name.fresh role m) = false :=
    fun role m hm => beq_false_of_ne (hx role m hm)
  cases supply with
  | memory => simp [declared, List.lookup_cons, hne]
  | progression p => by_cases hrule : (indexRule? p).isSome <;>
      simp [declared, List.lookup_cons, hne, hrule]

theorem value_ofScalar {s : Scalar} (hs : s.kind.isIntegral = true) :
    (Literal.ofScalar s).value = s := by
  cases s with
  | int v =>
    have hle := v.le_toInt
    have hlt := v.toInt_lt
    rw [Literal.ofScalar, Literal.value, if_pos (by omega), Int32.ofInt_toInt]
  | byte | char | short | long => rfl
  | float | double | boolean => cases hs

theorem scalars_of {s : Scalar} (h : (progression p s t).Of k layout) :
    p.start = .scalar s ∧ p.stride = .scalar t := by
  cases h with
  | progression _ hs ht => exact ⟨hs, ht⟩

/-- An element of a progression of integers is the one that the host decodes, unless its index is
shifted too far. -/
theorem element?_integral {s : Scalar} (hp : IsIntegral p) (hs : p.start = .scalar s)
    (ht : p.stride = .scalar t)
    (hnarrow : ∀ k, p.rule = .divide → p.bound.asInt64.toInt = 2 ^ k → k < 32) (cells : List Scalar)
    (hi : i < 2147483648) :
    ((progression p s t).element? cells i).map .scalar = some (p.element i) := by
  obtain ⟨s', t', hs', ht', hkind, hsame⟩ := hp.scalars
  cases hs.symm.trans hs'
  cases ht.symm.trans ht'
  have hindex : kernelIndex p i = PortableArray.progressionIndex p.rule p.bound.asInt64.toInt.toNat
      i :=
    kernelIndex_eq (fun k hk => hnarrow k (indexRule?_eq_shift.1 hk).1 (indexRule?_eq_shift.1 hk).2)
      i
  have hle : kernelIndex p i ≤ i := by
    unfold kernelIndex
    cases indexRule? p with
    | none => exact Nat.le_refl i
    | some rule => exact index_le rule i
  have hcast : t.cast s.kind = t := hsame ▸ t.cast_kind
  rw [element?, Option.map_some, hcast, value_ofScalar hkind, value_ofScalar (hsame ▸ hkind),
    cast_multipleAbove hkind hsame (Nat.lt_of_le_of_lt hle hi), hindex, Progression.element, hs, ht,
    PortableArray.progressionAt_integral hkind]

theorem exec_declarations {d : Device} {rounds : Nat} {s : State} {index : Name} {region : Region}
    (hsupply : supply.Of k layout) (hkind : region.kind = k)
    (hmemory : s.memory array = some region)
    (hoffset : s.metadata? d array 1 = some 0) (hindex : s.value? index = some (word i))
    (hi : i < 2147483648) (hv : supply.element? region.cells i = some v) :
    execAll d rounds s (supply.declarations array index n)
      = some (.next, { s with vars := supply.declared n i v ++ s.vars }) := by
  cases hsupply with
  | memory =>
    have hread : s.read d (.offsetCell array array index) = some v :=
      (read_offsetCell (address?_offsetCell hoffset hindex hi) hmemory).trans hv
    -- a cell is of the kind of its array, so the declaration keeps its value
    have hcast : v.cast k = v := by
      rw [← hkind, ← region.kind_of_mem v (List.mem_of_getElem? hv), Scalar.cast_kind]
    simp [declarations, declared, Expr.eval, hread, hcast]
  | @progression layout p s₀ t hp hs ht =>
    cases hv
    cases hrule : indexRule? p <;>
      simp [declarations, Lowering.declarations, declared, kernelIndex, hrule, int_ofNat, Expr.eval,
        hindex, position?_word hi]

end Supply

namespace Reduction

variable {r : Reduction} {supply : Supply} {d : Device} {rounds length n i : Nat} {s : State}
variable {xs ys : Region} {x y : Scalar}
variable {zs : List Scalar} {j : Nat} {z : Scalar}

/-! ### Arrays -/

/-- What the lambda gives for two elements, as it is stored. -/
def apply (r : Reduction) (d : Device) (x y : Scalar) : Scalar :=
  (d.call (functionName r.lambda) [x, y]).cast r.kind

/-- A device with an input of some length. Both arrays start where their memory starts. -/
structure Serves (d : Device) (length : Nat) : Prop where
  input : d.metadata input = [.ofNat length, 0]
  output : ∃ length, d.metadata output = [length, 0]

/-- The arrays that a round finds. -/
structure Finds (r : Reduction) (s : State) (xs ys : Region) : Prop where
  dimensions : ∀ array ∈ [input, output], array ∈ s.dimensions
  input : s.memory input = some xs
  output : s.memory output = some ys
  kinds : xs.kind = r.kind ∧ ys.kind = r.kind
  cells : 0 < xs.cells.length ∧ 0 < ys.cells.length

theorem offset_input (hd : Serves d length) (hs : r.Finds s xs ys) :
    s.metadata? d input 1 = some 0 := by
  rw [State.metadata?, if_pos (hs.dimensions _ (by simp)), hd.input]
  rfl

theorem offset_output (hd : Serves d length) (hs : r.Finds s xs ys) :
    s.metadata? d output 1 = some 0 := by
  obtain ⟨m, hm⟩ := hd.output
  rw [State.metadata?, if_pos (hs.dimensions _ (by simp)), hm]
  rfl

theorem Finds.of_vars (hs : r.Finds s xs ys) (vars : List (Name × Scalar)) :
    r.Finds { s with vars := vars } xs ys :=
  ⟨hs.dimensions, hs.input, hs.output, hs.kinds, hs.cells⟩

theorem Finds.write_input (hs : r.Finds s xs ys) (hd : Serves d length) (v : Scalar) :
    s.write d (first Reduction.input) v = some (s.store Reduction.input (xs.set 0 v)) :=
  write_offsetCell (address?_offsetCell (offset_input hd hs) rfl (by decide)) hs.input hs.cells.1 v

theorem Finds.write_output (hs : r.Finds s xs ys) (hd : Serves d length) (v : Scalar) :
    s.write d (first Reduction.output) v = some (s.store Reduction.output (ys.set 0 v)) :=
  write_offsetCell (address?_offsetCell (offset_output hd hs) rfl (by decide))
    hs.output hs.cells.2 v

theorem Finds.read_output (hs : r.Finds s xs ys) (hd : Serves d length) :
    s.read d (first Reduction.output) = ys.cells[0]? :=
  read_offsetCell (address?_offsetCell (offset_output hd hs) rfl (by decide)) hs.output

theorem getElem?_set_zero (hcells : 0 < xs.cells.length) (hv : v.kind = xs.kind) :
    (xs.set 0 v).cells[0]? = some v := by
  rw [Region.set, List.getElem?_set_self hcells, ← hv, Scalar.cast_kind]

theorem Finds.store_output (hs : r.Finds s xs ys) (v : Scalar) :
    r.Finds (s.store Reduction.output (ys.set 0 v)) xs (ys.set 0 v) where
  dimensions := hs.dimensions
  input := hs.input
  output := rfl
  kinds := hs.kinds
  cells := ⟨hs.cells.1, (List.length_set ..).symm ▸ hs.cells.2⟩

/-- The state behind a round: the result stands in the first cells of both arrays. -/
def advance (s : State) (xs ys : Region) (v : Scalar) : State :=
  (s.store output (ys.set 0 v)).store input (xs.set 0 v)

theorem Finds.advance (hs : r.Finds s xs ys) (v : Scalar) :
    r.Finds (advance s xs ys v) (xs.set 0 v) (ys.set 0 v) where
  dimensions := hs.dimensions
  input := rfl
  output := rfl
  kinds := hs.kinds
  cells := ⟨(List.length_set ..).symm ▸ hs.cells.1, (List.length_set ..).symm ▸ hs.cells.2⟩

theorem exec_copyBack (hd : Serves d length) (hs : r.Finds s xs ys) (hv : ys.cells[0]? = some v) :
    execAll d rounds s (r.copyBack n) = some (.next,
      { s.store input (xs.set 0 v) with vars := (.fresh .element n, v) :: s.vars }) := by
  have hcast : v.cast r.kind = v := by
    rw [← hs.kinds.2, ← ys.kind_of_mem v (List.mem_of_getElem? hv), Scalar.cast_kind]
  have hwrite := (hs.of_vars ((.fresh .element n, v) :: s.vars)).write_input hd v
  simp [copyBack, Expr.eval, hs.read_output hd, hv, hcast, hwrite, State.store]

/-! ### Rounds -/

/-- What the lambda takes from its scope is passed as it was passed to the kernel. -/
def Passes (r : Reduction) : Prop :=
  ∀ a ∈ r.scope, ∃ j, a = .name (.parameter j) ∨ a = .withMetadata (.parameter j)

theorem arguments_scope {scope args : List Argument}
    (hscope : ∀ a ∈ scope, ∃ j, a = .name (.parameter j) ∨ a = .withMetadata (.parameter j)) :
    s.arguments d (scope ++ args) = s.arguments d args := by
  induction scope with
  | nil => rfl
  | cons a scope ih =>
    obtain ⟨⟨j, rfl | rfl⟩, hrest⟩ := List.forall_mem_cons.1 hscope
    all_goals
      rw [List.cons_append, State.arguments]
      exact ih hrest

theorem arguments_call (hscope : r.Passes) (hx : s.value? (supply.name n) = some x)
    (hy : s.value? (supply.name (n + supply.width)) = some y) :
    s.arguments d (r.scope ++ [.name (supply.name n), .name (supply.name (n + supply.width))]
      ++ if r.guards then [.deoptFlag] else []) = some [x, y] := by
  rw [List.append_assoc, arguments_scope hscope]
  cases supply <;> cases r.guards <;> simp_all [State.arguments, Supply.name]

/-- The variables behind a call. -/
def called (r : Reduction) (supply : Supply) (d : Device) (n i : Nat) (x y : Scalar) :
    List (Name × Scalar) :=
  (.fresh .callResult (n + supply.width + supply.width), r.apply d x y)
    :: (supply.declared (n + supply.width) i y ++ supply.declared n 0 x)

section Rounds

variable (hsupply : supply.Of r.kind layout) (hscope : r.Passes) (hd : Serves d length)
variable (hs : r.Finds s xs ys) (hindex : s.value? .reductionIndex = some (word i))
variable (hx : supply.element? xs.cells 0 = some x) (hy : supply.element? xs.cells i = some y)

include hsupply hscope hd hs hindex hx hy

theorem exec_call (hi : i < 2147483648) :
    execAll d rounds s (r.call supply n)
      = some (.next, { s with vars := r.called supply d n i x y ++ s.vars }) := by
  let s₁ : State := { s with vars := supply.declared n 0 x ++ s.vars }
  let s₂ : State := { s with vars := supply.declared (n + supply.width) i y ++ s₁.vars }
  have hoffset := offset_input hd hs
  have hfirst : execAll d rounds s (.mark "Invoke" 18 :: .mark "LoadIndexed" 16
      :: supply.declarations input (.literal (.int 0)) n) = some (.next, s₁) :=
    Supply.exec_declarations hsupply hs.kinds.1 hs.input hoffset rfl (by decide) hx
  have hindex₁ : s₁.value? .reductionIndex = some (word i) :=
    (Supply.lookup_declared (x := .reductionIndex) (fun _ _ _ => nofun) 0 x s.vars).trans hindex
  have hsecond : execAll d rounds s₁ (.mark "LoadIndexed" 17
      :: supply.declarations input .reductionIndex (n + supply.width)) = some (.next, s₂) :=
    Supply.exec_declarations hsupply hs.kinds.1 hs.input hoffset hindex₁ hi hy
  have hx₂ : s₂.value? (supply.name n) = some x := by
    have hother : ∀ role m, n + supply.width ≤ m → supply.name n ≠ .fresh role m :=
      fun role m hm => supply.name_ne_fresh (by have := supply.width_pos; omega) role
    rw [supply.value?_name]
    exact (Supply.lookup_declared hother i y s₁.vars).trans (supply.lookup_name n 0 x s.vars)
  have hy₂ : s₂.value? (supply.name (n + supply.width)) = some y := by
    rw [supply.value?_name]
    exact supply.lookup_name _ i y s₁.vars
  rw [call, execAll_append ((execAll_append hfirst).trans hsecond), execAll_declare, Expr.eval,
    arguments_call hscope hx₂ hy₂]
  simp [called, apply, s₂, s₁]

theorem exec_update (hi : i < 2147483648) :
    ∃ new, execAll d rounds s (r.update supply n)
      = some (.next, { advance s xs ys (r.apply d x y) with vars := new ++ s.vars }) := by
  let v := r.apply d x y
  let s₁ : State := { s with vars := r.called supply d n i x y ++ s.vars }
  have hs₁ : r.Finds s₁ xs ys := hs.of_vars _
  have hcall : execAll d rounds s (.mark "Begin" 3 :: .mark "StoreIndexed" 4
      :: .mark "Constant" 11 :: r.call supply n) = some (.next, s₁) :=
    exec_call hsupply hscope hd hs hindex hx hy hi
  have hfirst : (ys.set 0 v).cells[0]? = some v :=
    getElem?_set_zero hs.cells.2 ((Scalar.kind_cast ..).trans hs.kinds.2.symm)
  have hresult : s₁.vars.lookup (.fresh .callResult (n + supply.width + supply.width)) = some v :=
    List.lookup_cons_self
  refine ⟨(.fresh .element (n + supply.width + supply.width + 1), v) :: r.called supply d n i x y,
    ?_⟩
  simp only [update, execAll_append hcall, execAll_assign, Expr.eval, State.read_name,
    State.value?_fresh, hresult, Option.bind_some, hs₁.write_output hd,
    exec_copyBack hd (hs₁.store_output v) hfirst]
  rfl

theorem exec_round (hlength : s.value? (.length input) = some (word length)) (hi : i < length)
    (hword : length < 2147483648) :
    ∃ new, execAll d rounds s (r.round supply)
      = some (.next, { advance s xs ys (r.apply d x y) with vars := new ++ s.vars }) := by
  let s₁ : State := s.declare (.fresh .condition 0) (.boolean true)
  have hlt : Host.satisfies .lt (.scalar (word i)) (.scalar (word length)) = true :=
    (Host.satisfies_index (by omega) hword).trans (decide_eq_true hi)
  obtain ⟨new, hupdate⟩ : ∃ new, execAll d rounds s₁ (r.update supply 1) = some (.next,
      { advance s₁ xs ys (r.apply d x y) with vars := new ++ s₁.vars }) :=
    exec_update hsupply hscope hd (hs.of_vars _) hindex hx hy (by omega)
  refine ⟨[(.fresh .condition 0, .boolean true)], ?_⟩
  have htest : (Expr.compare .lt .reductionIndex (.length input)).eval d s = some
      (.boolean true) := by
    simp [Expr.eval, hindex, hlength, hlt]
  rw [round, execAll_mark, execAll_mark, execAll_declare, htest]
  exact (execAll_branch (s := s₁) rfl hupdate rfl).trans rfl

end Rounds

/-! ### The loop -/

def total (r : Reduction) (supply : Supply) (d : Device) (x : Scalar) (zs : List Scalar) : Scalar :=
  zs.foldl (fun acc z => r.apply d (supply.first x acc) z) x

/-- What holds behind a number of rounds: each starts from what the one before has come to. -/
structure Reached (r : Reduction) (supply : Supply) (d : Device) (x : Scalar) (zs : List Scalar)
    (rounds : Nat) (s : State) (xs ys : Region) : Prop where
  finds : r.Finds s xs ys
  first : supply.element? xs.cells 0 = some (supply.first x (r.total supply d x (zs.take rounds)))
  rest : ∀ j < zs.length, supply.element? xs.cells (j + 1) = zs[j]?
  output : 0 < rounds → ys.cells[0]? = some (r.total supply d x (zs.take rounds))

theorem Reached.of_vars (hs : r.Reached supply d x zs j s xs ys) (vars : List (Name × Scalar)) :
    r.Reached supply d x zs j { s with vars := vars } xs ys :=
  ⟨hs.finds.of_vars vars, hs.first, hs.rest, hs.output⟩

/-- In memory, a reduction folds the elements. -/
theorem total_memory (k : ScalarKind) (zs : List Scalar) :
    r.total (.memory k) d x zs = zs.foldl (r.apply d) x := rfl

/-- Of a progression, only the first and the last element count. -/
theorem total_progression {s : Scalar} (hzs : zs ≠ []) :
    r.total (.progression p s t) d x zs = r.apply d x (zs.getLast hzs) := by
  have hsplit : zs = zs.dropLast ++ [zs.getLast hzs] := (List.dropLast_concat_getLast hzs).symm
  refine (congrArg (r.total (.progression p s t) d x) hsplit).trans ?_
  rw [total, List.foldl_append]
  rfl

theorem total_succ (hz : zs[j]? = some z) :
    r.total supply d x (zs.take (j + 1))
      = r.apply d (supply.first x (r.total supply d x (zs.take j))) z := by
  rw [total, List.take_add_one, hz, List.foldl_append]
  rfl

theorem Reached.succ (hs : r.Reached supply d x zs j s xs ys) (hz : zs[j]? = some z)
    (hv : v = r.total supply d x (zs.take (j + 1))) :
    r.Reached supply d x zs (j + 1) (advance s xs ys v) (xs.set 0 v) (ys.set 0 v) := by
  have hkind : v.kind = r.kind := by
    rw [hv, total_succ hz]
    exact Scalar.kind_cast ..
  refine ⟨hs.finds.advance v, ?_, fun i hi => ?_, fun _ => ?_⟩
  · -- what is stored in the first cell is loaded from memory, but not from a progression
    rw [← hv]
    cases supply with
    | memory => exact getElem?_set_zero hs.finds.cells.1 (hkind.trans hs.finds.kinds.1.symm)
    | progression => exact hs.first
  · rw [← hs.rest i hi]
    cases supply with
    | memory => exact List.getElem?_set_ne (Nat.zero_ne_add_one i)
    | progression => rfl
  · rw [← hv]
    exact getElem?_set_zero hs.finds.cells.2 (hkind.trans hs.finds.kinds.2.symm)

variable (hsupply : supply.Of r.kind layout) (hscope : r.Passes) (hd : Serves d (zs.length + 1))
include hsupply hscope hd

theorem Reached.round (hword : zs.length + 1 < 2147483648)
    (hs : r.Reached supply d x zs j s xs ys) (hj : j < zs.length)
    (hlength : (s.declare .reductionIndex (word (j + 1))).value?
      (.length Reduction.input) = some (word (zs.length + 1))) :
    ∃ s' new, execAll d rounds (s.declare .reductionIndex (word (j + 1))) (r.round supply)
        = some (.next, s') ∧ s'.vars = new ++ (.reductionIndex, word (j + 1)) :: s.vars ∧
      ∀ vars, ∃ xs ys, r.Reached supply d x zs (j + 1) { s' with vars := vars } xs ys := by
  have hz : zs[j]? = some zs[j] := List.getElem?_eq_getElem hj
  obtain ⟨new, hrun⟩ : ∃ new, execAll d rounds (s.declare .reductionIndex (word (j + 1)))
      (r.round supply) = _ :=
    exec_round hsupply hscope hd (hs.finds.of_vars _) rfl hs.first ((hs.rest j hj).trans hz) hlength
      (Nat.succ_lt_succ hj) hword
  exact ⟨_, new, hrun, rfl, fun vars => ⟨_, _, (hs.succ hz (total_succ hz).symm).of_vars vars⟩⟩

/-- The text of a reduction leaves what it has come to in the first cell of the output. -/
theorem exec_loop (hzs : zs ≠ []) (hword : zs.length + 1 < 2147483648)
    (hrounds : zs.length < rounds) (hs : r.Finds s xs ys) (hx : supply.element? xs.cells 0 = some x)
    (hrest : ∀ j < zs.length, supply.element? xs.cells (j + 1) = zs[j]?) :
    ∃ s' ys', execAll d rounds s (r.loop supply) = some (.next, s') ∧
      s'.memory output = some ys' ∧ ys'.cells[0]? = some (r.total supply d x zs) := by
  let s₁ : State := s.declare (.length input) (word (zs.length + 1))
  -- the round with index `i` finds what `i - 1` rounds have reached, and none of their variables
  let I : Nat → State → Prop := fun i t =>
    t.vars = s₁.vars ∧ ∃ j xs ys, i = j + 1 ∧ r.Reached supply d x zs j t xs ys
  have hlength : ∀ i t, I i t → (t.declare .reductionIndex (word i)).value? (.length input)
      = some (word (zs.length + 1)) := by
    rintro i t ⟨hvars, -⟩
    rw [State.declare, hvars]
    rfl
  have hround : ∀ i t, I i t → i < zs.length + 1 → ∃ t' new,
      execAll d rounds (t.declare .reductionIndex (word i)) (r.round supply) = some (.next, t') ∧
      t'.vars = new ++ (.reductionIndex, word i) :: s₁.vars ∧
      I (i + 1) { t' with vars := s₁.vars } := by
    rintro i t hI hi
    have hlength := hlength i t hI
    obtain ⟨hvars, j, xs, ys, rfl, ht⟩ := hI
    obtain ⟨t', new, hrun, hnew, hnext⟩ :=
      ht.round hsupply hscope hd hword (Nat.lt_of_succ_lt_succ hi) hlength
    refine ⟨t', new, hrun, hvars ▸ hnew, rfl, j + 1, ?_⟩
    obtain ⟨xs', ys', hnext⟩ := hnext s₁.vars
    exact ⟨xs', ys', rfl, hnext⟩
  have hfirst : supply.first x (r.total supply d x (zs.take 0)) = x := by
    cases supply <;> rfl
  have hstart : I 1 s₁ :=
    ⟨rfl, 0, xs, ys, rfl, hs.of_vars _, hfirst.symm ▸ hx, hrest,
      fun h => absurd h (Nat.lt_irrefl 0)⟩
  obtain ⟨s', hloop, -, j, xs', ys', hj, hreached⟩ : ∃ s', countUp .reductionIndex (.length input)
      (word 1) (execAll d rounds · (r.round supply)) rounds s₁ = some (.next, s') ∧
        I (zs.length + 1) s' :=
    countUp_eq_some hword (fun _ _ => rfl) (fun _ _ h => h.1) hlength hround (Nat.le_add_left _ _)
      hrounds hstart
  obtain rfl : zs.length = j := Nat.succ.inj hj
  have hdeclared : (Expr.length input).eval d s = some (word (zs.length + 1)) := by
    rw [Expr.eval, State.metadata?, if_pos (hs.dimensions _ (by simp)), hd.input]
    rfl
  refine ⟨s', ys', ?_, hreached.finds.output, ?_⟩
  · rw [loop, execAll_mark, execAll_mark, execAll_mark, execAll_mark, execAll_declare, hdeclared]
    exact execAll_reduction (s := s₁) rfl hloop
  · rw [hreached.output (List.length_pos_iff.2 hzs), List.take_length]

end Reduction

end Kernelwright.Lowering
