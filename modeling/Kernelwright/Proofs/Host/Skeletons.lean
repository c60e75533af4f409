import Kernelwright.Proofs.Host.Expectation
import Kernelwright.Proofs.Host.Relocation
import Kernelwright.Proofs.Host.Results

/-!
# Skeletons on the host

Running a skeleton as a graph does what `map` and `reduce` do with the lambda itself. The loop of a
skeleton is described by its situation in each round: what the counter is, what the nodes are
expected to be evaluated to in that round, and what has been stored so far.
-/

namespace Kernelwright

variable {node : NodeId}
variable {k fuel : Nat} {lambdas : List Graph} {name : String} {ys : List Value} {out : Array Value}

namespace Host

variable {type : ElementType} {vs : List Value} {y x : Value} {need F steps : Nat} {σ : Situation}
variable {o : Array Value} {s : Slot}

/-! ### Positions as integers -/

def index (k : Nat) : Value := .scalar (.int (Int32.ofNat k))

theorem asInt64_index (hk : k < 2147483648) : (index k).asInt64.toInt = k := by
  show (Int64.ofInt (Int32.ofNat k).toInt).toInt = k
  rw [Int32.toInt_ofNat_of_lt hk, Int64.toInt_ofInt_of_le (by omega) (by omega)]

theorem position?_index (hk : k < 2147483648) : position? (index k).asInt64 = some k := by
  have h := asInt64_index hk
  have hneg : ¬ (index k).asInt64 < 0 := by
    rw [Int64.lt_iff_toInt_lt, h]
    simp
  rw [position?, if_neg hneg, h]
  rfl

theorem satisfies_index {n : Nat} (hk : k < 2147483648) (hn : n < 2147483648) :
    satisfies .lt (index k) (index n) = decide (k < n) := by
  have horder : order? (index k) (index n) = some (compare (k : Int) (n : Int)) := by
    rw [← asInt64_index hk, ← asInt64_index hn]
    rfl
  rw [satisfies, horder]
  by_cases h : k < n
  · have : compare (k : Int) (n : Int) = .lt := by
      rw [Int.compare_eq_lt]
      omega
    simp [holds, this, h]
  · have : compare (k : Int) (n : Int) ≠ .lt := by
      rw [Ne, Int.compare_eq_lt]
      omega
    simp [holds, this, h]

theorem binary_index (k : Nat) : binary .add .int (index k) (index 1) = .ok (index (k + 1)) := by
  have hasInt (n : Int32) : (Int64.ofInt n.toInt).toInt32 = n := by
    rw [Int64.toInt32_ofInt, Int32.ofInt_toInt]
  have hsum : ((index k).asInt64 + (index 1).asInt64).toInt32 = Int32.ofNat (k + 1) := by
    rw [Int64.toInt32_add]
    simp only [index, Value.asInt64, Scalar.asInt64, hasInt, Int32.ofNat_add]
  show Except.ok (Value.scalar (.int
    (((index k).asInt64 + (index 1).asInt64).toInt32.toInt64.toInt32))) = _
  rw [hsum, Int32.toInt32_toInt64]
  rfl

/-! ### Calls of the lambda -/

/-- One level down and with enough fuel, the lambda gives `y` on the values `vs`, converted to the
type, and adds arrays of its own only. -/
def Applies (lambdas : List Graph) (fuel : Nat) (name : String) (type : ElementType)
    (vs : List Value) (y : Value) : Prop :=
  ∃ callee r, lambda? lambdas name = some callee ∧ y = r.castTo type ∧
    ∀ fuel', fuel ≤ fuel' → ∀ m, ∃ extra, run lambdas fuel' 1 callee (vs.map .value) m =
      .ok (.value r, ⟨m.frame, m.arena ++ extra⟩)

theorem applies_of_callElement
    (h : (callElement lambdas fuel name (vs.map .value)).map (·.castTo type) = .ok y)
    (hnest : NestsWithin lambdas fuel 63 name vs) : Applies lambdas fuel name type vs y := by
  obtain ⟨r, hr, rfl⟩ := map_eq_ok.1 h
  obtain ⟨callee, hcallee, hrun⟩ := callElement_deeper hr hnest
  exact ⟨callee, r, hcallee, rfl, hrun⟩

theorem Applies.reads (h : Applies lambdas fuel name type vs y) {args : List NodeId}
    (hk : σ.graph.kind? node = some (.operation (.invoke (.lambda name) args type)))
    (hargs : ∀ arg ∈ args, Reads lambdas need 0 σ arg) (hvs : args.map σ.expected = vs.map .value)
    (hneed : fuel ≤ need) (hv : σ.expected node = .value y) :
    Reads lambdas (need + 1) 0 σ node := by
  obtain ⟨callee, r, hcallee, rfl, hrun⟩ := h
  refine .invoke hk hargs hcallee (fun fuel' hfuel' m => ?_) hv
  rw [hvs]
  exact hrun fuel' (by omega) m

/-! ### Arrays in which something was stored -/

theorem modify_setIfInBounds (arena : Arena) (j : Nat) (o : Array Value)
    (f : Array Value → Array Value) :
    (arena.setIfInBounds j o).modify j f = arena.setIfInBounds j (f o) := by
  apply Array.ext_getElem?
  intro h
  simp only [Array.getElem?_modify, Array.getElem?_setIfInBounds]
  split <;> simp_all

theorem setIfInBounds_of_getElem? {arena : Arena} {j : Nat} (h : arena[j]? = some o) :
    arena.setIfInBounds j o = arena := by
  apply Array.ext_getElem?
  intro k
  rw [Array.getElem?_setIfInBounds]
  grind

/-- The array with its first `k` elements taken from `ys`. -/
def overwritten (ys : List Value) (out : Array Value) (k : Nat) : Array Value :=
  (ys.take k ++ out.toList.drop k).toArray

theorem size_overwritten (hk : k ≤ ys.length) (hk' : k ≤ out.size) :
    (overwritten ys out k).size = out.size := by
  simp only [overwritten, List.size_toArray, List.length_append, List.length_take, List.length_drop,
    Array.length_toList]
  omega

theorem overwritten_zero (ys : List Value) (out : Array Value) : overwritten ys out 0 = out := by
  simp [overwritten]

theorem set_overwritten (hy : ys[k]? = some y) (hk : k < out.size) :
    (overwritten ys out k).setIfInBounds k y = overwritten ys out (k + 1) := by
  have hlt : k < ys.length := (List.getElem?_eq_some_iff.1 hy).1
  have hlen : (ys.take k).length = k := by
    rw [List.length_take]
    omega
  rw [overwritten, overwritten, List.setIfInBounds_toArray, List.set_append_right _ _ (by omega),
    hlen, Nat.sub_self, List.drop_eq_getElem_cons (by simpa using hk), List.set_cons_zero,
    List.take_add_one, hy]
  simp

/-! ### The map skeleton -/

/-- A run of the map skeleton on an arena. On the elements `xs` of the array `i` the lambda gives
`ys`, and the array `j` has room for as many. -/
structure MapRun where
  lambdas : List Graph
  fuel : Nat
  name : String
  input : ElementType
  output : ElementType
  i : Nat
  j : Nat
  xs : List Value
  ys : List Value
  arena : Arena
  out : Array Value
  length : ys.length = xs.length
  short : xs.length < 2147483648
  apart : j ≠ i
  source : arena[i]? = some xs.toArray
  target : arena[j]? = some out
  room : xs.length ≤ out.size
  applies : ∀ (k : Nat) (x y : Value), xs[k]? = some x → ys[k]? = some y →
    Applies lambdas fuel name output [x] y

namespace MapRun

variable (r : MapRun) {k n : Nat}

abbrev graph : Graph := Skeleton.map r.name r.input r.output

/-- What the nodes are evaluated to in round `k`, which stores `ys[k]`. -/
def expected (k : Nat) (node : NodeId) : Slot :=
  (Table.get? [(7, .array r.i), (8, .array r.j), (9, .value (index r.xs.length)),
    (10, .value (index 0)), (11, .value (index 1)), (12, .value (index k)),
    (13, .value (index (k + 1))), (14, .value (.scalar (.boolean (decide (k < r.xs.length))))),
    (15, .value (r.xs[k]?.getD default)), (16, .value (r.ys[k]?.getD default))] node).getD .void

/-- The arena after `n` stores. -/
def stored (n : Nat) : Arena := r.arena.setIfInBounds r.j (overwritten r.ys r.out n)

/-- Round `k`, after `n` stores. -/
def round (k n : Nat) : Situation where
  graph := r.graph
  args := [.array r.i, .array r.j]
  phis := [(12, .value (index k))]
  expected := r.expected k
  arrays := r.stored n

abbrev walk (F steps : Nat) (node : NodeId) : Run Slot :=
  (Semantics.withFuel r.lambdas F 0).walk r.graph steps node false

theorem source_stays (n : Nat) : (r.stored n)[r.i]? = some r.xs.toArray := by
  rw [stored, Array.getElem?_setIfInBounds_ne r.apart, r.source]

theorem target_stored (n : Nat) : (r.stored n)[r.j]? = some (overwritten r.ys r.out n) :=
  Array.getElem?_setIfInBounds_self_of_lt (Array.getElem?_eq_some_iff.1 r.target).1

theorem counts : Reads r.lambdas (need + 2) 0 (r.round k n) 13 := by
  have hkind : r.graph.valueKind 13 = .scalar .int := by with_unfolding_all rfl
  exact .binary rfl hkind (.phi rfl rfl) (.constant rfl rfl) rfl rfl (binary_index k) rfl

theorem condition (hk : k ≤ r.xs.length) : Reads r.lambdas (need + 3) 0 (r.round k n) 14 := by
  have hshort := r.short
  refine .compare rfl (.phi rfl rfl) ?_ rfl rfl ?_
  · exact .arrayLength rfl (.parameter rfl rfl) rfl (r.source_stays n) rfl
  · rw [satisfies_index (by omega) hshort]
    rfl

theorem result (hx : r.xs[k]? = some x) (hy : r.ys[k]? = some y) :
    Reads r.lambdas (r.fuel + 3) 0 (r.round k n) 16 := by
  have hshort := r.short
  have hlt : k < r.xs.length := (List.getElem?_eq_some_iff.1 hx).1
  have hexpected : r.expected k 15 = .value x := by
    show Slot.value (r.xs[k]?.getD default) = _
    rw [hx]
    rfl
  refine (r.applies k x y hx hy).reads rfl ?_ ?_ (by omega) ?_
  · intro arg harg
    obtain rfl := List.mem_singleton.1 harg
    exact .loadIndexed rfl (.parameter rfl rfl) (.phi rfl rfl) rfl rfl (r.source_stays n)
      (position?_index (by omega)) (by simpa using hx) hexpected
  · exact congrArg (fun v => [v]) hexpected
  · show Slot.value (r.ys[k]?.getD default) = _
    rw [hy]
    rfl

theorem store (hk : k < r.xs.length) (hF : r.fuel + 3 ≤ F) :
    Yields (r.round k k) ((Semantics.withFuel r.lambdas F 0).control r.graph 4 false
      (.storeIndexed 8 12 16 5)) (.goto 5 false) (r.round k (k + 1)) := by
  have hshort := r.short
  have hroom := r.room
  obtain ⟨x, hx⟩ : ∃ x, r.xs[k]? = some x := ⟨_, List.getElem?_eq_getElem hk⟩
  obtain ⟨y, hy⟩ : ∃ y, r.ys[k]? = some y := ⟨_, List.getElem?_eq_getElem (r.length ▸ hk)⟩
  have hsize : (overwritten r.ys r.out k).size = r.out.size :=
    size_overwritten (by rw [r.length]; omega) (by omega)
  have hy' : Slot.value (r.ys[k]?.getD default) = .value y := by
    rw [hy]
    rfl
  have hstored : ((r.stored k).modify r.j fun vs => vs.setIfInBounds k y) = r.stored (k + 1) := by
    rw [stored, stored, modify_setIfInBounds, set_overwritten hy (by omega)]
  rw [round, round, ← hstored]
  exact .storeIndexed (.parameter rfl rfl) (.phi rfl rfl) (r.result hx hy) hF rfl rfl hy'
    (r.target_stored k) (position?_index (by omega)) (by omega)

theorem step (hk : k < r.xs.length) (hF : r.fuel + 3 ≤ F)
    (hnext : Yields (r.round (k + 1) (k + 1)) (r.walk F steps 2) s σ) :
    Yields (r.round k k) (r.walk F (steps + 5) 2) s σ := by
  have htrue : Slot.value (.scalar (.boolean (decide (k < r.xs.length)))) =
      .value (.scalar (.boolean true)) := by simp [hk]
  refine .walk rfl (.branch (r.condition (Nat.le_of_lt hk)) hF htrue) (.walk rfl (.pure _) ?_)
  refine .walk rfl (r.store hk hF) ?_
  refine .walk rfl (.backEdge rfl rfl r.counts hF (r.expected (k + 1))) ?_
  exact .walk rfl (.pure _) hnext

theorem loop (hF : r.fuel + 3 ≤ F) (rest : Nat) (hk : k + rest = r.xs.length) (steps : Nat) :
    Yields (r.round k k) (r.walk F (steps + 3 + 5 * rest) 2) .void
      (r.round r.xs.length r.xs.length) := by
  induction rest generalizing k with
  | zero =>
    obtain rfl : k = r.xs.length := hk
    have hfalse : Slot.value (.scalar (.boolean (decide (r.xs.length < r.xs.length)))) =
        .value (.scalar (.boolean false)) := by simp
    refine .walk rfl (.branch (r.condition (Nat.le_refl _)) hF hfalse) ?_
    exact .walk rfl (.pure _) (.walk_done rfl (.pure _))
  | succ rest ih => exact r.step (by omega) hF (ih (by omega))

theorem run (hF : r.fuel + 5 * r.xs.length + 6 ≤ F) (f : Frame) :
    ∃ extra, Host.run r.lambdas F 0 r.graph [.array r.i, .array r.j] ⟨f, r.arena⟩ =
      .ok (.void, ⟨f, r.stored r.xs.length ++ extra⟩) := by
  obtain ⟨steps, rfl⟩ : ∃ steps, F = steps + 3 + 5 * r.xs.length + 2 + 1 :=
    ⟨F - 5 * r.xs.length - 6, by omega⟩
  have hloop := r.loop (by omega : r.fuel + 3 ≤ steps + 3 + 5 * r.xs.length + 2) r.xs.length
    (Nat.zero_add _) steps
  rw [round, stored, overwritten_zero, setIfInBounds_of_getElem? r.target] at hloop
  have hfirst : Reads r.lambdas (0 + 1) 0
    ⟨r.graph, [.array r.i, .array r.j], [], r.expected 0, r.arena⟩
    10 := .constant rfl rfl
  exact Yields.run _ (Nat.zero_le _) rfl
    (.walk rfl (.pure _) (.walk rfl (.enterLoop rfl rfl hfirst (by omega)) hloop)) f

end MapRun

/-- Running the map skeleton is mapping the lambda. Where `map` makes an array of fewer than 2³¹
results and no call nests more than 63 levels, the skeleton ends on every arena that holds the
elements and has room for as many. It stores what `map` gives, and changes nothing else. -/
theorem mapSkeleton_runs_map {lambdas : List Graph} {fuel : Nat} {name : String}
    (input : ElementType) {output : ElementType} {a b : PortableArray} {xs : List Value}
    (hmap : map lambdas fuel name [] a output = .ok b) (hxs : logicalValues a = .ok xs)
    (hshort : xs.length < 2147483648) (hnest : ∀ x ∈ xs, NestsWithin lambdas fuel 63 name [x])
    {arena : Arena} {i j : Nat} {out : Array Value} (hin : arena[i]? = some xs.toArray)
    (hout : arena[j]? = some out) (hapart : i ≠ j) (hroom : xs.length ≤ out.size) :
    ∃ ys, b.toList? = some ys ∧ ys.length = xs.length ∧
      ∀ fuel', fuel + 5 * xs.length + 6 ≤ fuel' → ∀ f, ∃ arena',
        run lambdas fuel' 0 (Skeleton.map name input output) [.array i, .array j] ⟨f, arena⟩ =
          .ok (.void, ⟨f, arena'⟩) ∧
        arena'[i]? = some xs.toArray ∧
        arena'[j]? = some (ys ++ out.toList.drop xs.length).toArray ∧
        ∀ h, h < arena.size → h ≠ j → arena'[h]? = arena[h]? := by
  obtain ⟨xs', hxs', hmap⟩ := bind_eq_ok.1 hmap
  obtain rfl : xs = xs' := by
    rw [hxs] at hxs'
    exact Except.ok.inj hxs'
  obtain ⟨ys, hys, hresults⟩ := bind_eq_ok.1 hmap
  obtain ⟨hlength, heach⟩ := mapM_eq_ok hys
  have happlies : ∀ (k : Nat) (x y : Value), xs[k]? = some x → ys[k]? = some y →
      Applies lambdas fuel name output [x] y := by
    intro k x y hx hy
    exact applies_of_callElement (heach k x y hx hy) (hnest x (List.mem_of_getElem? hx))
  have hconverted : ∀ y ∈ ys, ∃ r : Value, y = r.castTo output := by
    intro y hy
    obtain ⟨k, hk, hget⟩ := List.mem_iff_getElem.1 hy
    have hy' : ys[k]? = some y := List.getElem?_eq_some_iff.2 ⟨hk, hget⟩
    obtain ⟨callee, r, -, rfl, -⟩ := happlies k _ y (List.getElem?_eq_getElem (hlength ▸ hk)) hy'
    exact ⟨r, rfl⟩
  let r : MapRun := ⟨lambdas, fuel, name, input, output, i, j, xs, ys, arena, out, hlength, hshort,
    Ne.symm hapart, hin, hout, hroom, happlies⟩
  refine ⟨ys, ofResults_toList? hresults hconverted, hlength, fun fuel' hfuel f => ?_⟩
  obtain ⟨extra, hrun⟩ := r.run hfuel f
  have hj : j < arena.size := (Array.getElem?_eq_some_iff.1 hout).1
  have hi : i < arena.size := (Array.getElem?_eq_some_iff.1 hin).1
  have hfound (h : Nat) (hh : h < arena.size) :
      (r.stored xs.length ++ extra)[h]? = (r.stored xs.length)[h]? :=
    Array.getElem?_append_left (by simpa [MapRun.stored] using hh)
  refine ⟨_, hrun, (hfound i hi).trans (r.source_stays _), ?_, fun h hh hne => ?_⟩
  · rw [hfound j hj, ← List.take_of_length_le (Nat.le_of_eq hlength)]
    exact r.target_stored _
  · rw [hfound h hh, MapRun.stored, Array.getElem?_setIfInBounds_ne (Ne.symm hne)]

/-- The negation of an integer. -/
def negate : Graph := .ofOperations "negate" [.parameter 0 (.scalar .int), .unary .neg 1]

/-- The same, by a call. -/
def viaNegate : Graph := .ofOperations "viaNegate" [.parameter 0 (.scalar .int),
  .invoke (.lambda "negate") [1] (.scalar .int)]

def cells (vs : List Int32) : Array Value := (vs.map fun n => .scalar (.int n)).toArray

def integers (vs : List Int32) : PortableArray :=
  .flat ⟨.scalar .int, .nativeBuffers, vs.length, .none, none⟩ (.native .int (vs.map .int).toArray)

theorem viaNegate_nests (n : Int32) :
    NestsWithin [viaNegate, negate] 20 63 "viaNegate" [.scalar (.int n)] :=
  nestsWithin_of_isOk rfl (by with_unfolding_all rfl)

theorem mapSkeleton_runs_negate :
    map [viaNegate, negate] 20 "viaNegate" [] (integers [3, -5]) (.scalar .int) =
      .ok (integers [-3, 5]) ∧
    ∃ arena', run [viaNegate, negate] 100 0
        (Skeleton.map "viaNegate" (.scalar .int) (.scalar .int)) [.array 0, .array 1]
        ⟨default, #[cells [3, -5], cells [0, 0, 9]]⟩ = .ok (.void, ⟨default, arena'⟩) ∧
      arena'[0]? = some (cells [3, -5]) ∧ arena'[1]? = some (cells [-3, 5, 9]) := by
  have hmap : map [viaNegate, negate] 20 "viaNegate" [] (integers [3, -5]) (.scalar .int) =
      .ok (integers [-3, 5]) := by with_unfolding_all rfl
  have hnest : ∀ x ∈ [Value.scalar (.int 3), .scalar (.int (-5))],
      NestsWithin [viaNegate, negate] 20 63 "viaNegate" [x] := by
    simp [viaNegate_nests]
  have hout : (#[cells [3, -5], cells [0, 0, 9]] : Arena)[1]? = some (cells [0, 0, 9]) := rfl
  obtain ⟨ys, hys, -, hrun⟩ := mapSkeleton_runs_map (.scalar .int) hmap rfl (by decide) hnest
    (i := 0) rfl hout (by decide) (by decide)
  obtain rfl : [Value.scalar (.int (-3)), .scalar (.int 5)] = ys := Option.some.inj hys
  obtain ⟨arena', hok, hin, hout, -⟩ := hrun 100 (by decide) default
  exact ⟨hmap, arena', hok, hin, hout⟩

/-! ### The reduce skeleton -/

/-- A run of the reduce skeleton on an arena. Round `k` folds `tail[k]` into `accs k`. -/
structure ReduceRun where
  lambdas : List Graph
  fuel : Nat
  name : String
  input : ElementType
  output : ElementType
  i : Nat
  j : Nat
  tail : List Value
  accs : Nat → Value
  arena : Arena
  out : Array Value
  short : tail.length + 1 < 2147483648
  apart : i ≠ j
  source : i < arena.size
  target : j < arena.size
  room : 0 < out.size
  applies : ∀ (k : Nat) (x : Value), tail[k]? = some x →
    Applies lambdas fuel name output [accs k, x] (accs (k + 1))

namespace ReduceRun

variable (r : ReduceRun) {k m n : Nat}

abbrev graph : Graph := Skeleton.reduce r.name r.input r.output

/-- What the nodes are evaluated to in round `k`. The counter is ahead by one. -/
def expected (k : Nat) (node : NodeId) : Slot :=
  (Table.get? [(8, .array r.i), (9, .array r.j), (10, .value (index (r.tail.length + 1))),
    (11, .value (index 0)), (12, .value (index 1)), (13, .value (index (k + 1))),
    (14, .value (index (k + 1 + 1))),
    (15, .value (.scalar (.boolean (decide (k + 1 < r.tail.length + 1))))),
    (16, .value (r.accs k)), (17, .value (r.tail[k]?.getD default)),
    (18, .value (r.accs (k + 1))), (19, .value (r.accs (k + 1)))] node).getD .void

/-- The output after `n` stores. -/
def stored : Nat → Array Value
  | 0 => r.out
  | n + 1 => r.out.setIfInBounds 0 (r.accs (n + 1))

/-- The arena with `accs m` in front of the input, after `n` stores to the output. -/
def held (m n : Nat) : Arena :=
  (r.arena.setIfInBounds r.j (r.stored n)).setIfInBounds r.i (r.accs m :: r.tail).toArray

/-- Round `k`, with `accs m` in front of the input, after `n` stores to the output. -/
def round (k m n : Nat) : Situation where
  graph := r.graph
  args := [.array r.i, .array r.j]
  phis := [(13, .value (index (k + 1)))]
  expected := r.expected k
  arrays := r.held m n

abbrev walk (F steps : Nat) (node : NodeId) : Run Slot :=
  (Semantics.withFuel r.lambdas F 0).walk r.graph steps node false

theorem size_stored (n : Nat) : (r.stored n).size = r.out.size := by
  cases n <;> simp [stored]

theorem getElem?_source (m n : Nat) : (r.held m n)[r.i]? = some (r.accs m :: r.tail).toArray :=
  Array.getElem?_setIfInBounds_self_of_lt (by simpa using r.source)

theorem getElem?_target (m n : Nat) : (r.held m n)[r.j]? = some (r.stored n) := by
  rw [held, Array.getElem?_setIfInBounds_ne r.apart,
    Array.getElem?_setIfInBounds_self_of_lt r.target]

theorem counts : Reads r.lambdas (need + 2) 0 (r.round k m n) 14 := by
  have hkind : r.graph.valueKind 14 = .scalar .int := by with_unfolding_all rfl
  exact .binary rfl hkind (.phi rfl rfl) (.constant rfl rfl) rfl rfl (binary_index (k + 1)) rfl

theorem condition (hk : k ≤ r.tail.length) : Reads r.lambdas (need + 3) 0 (r.round k m n) 15 := by
  have hshort := r.short
  refine .compare rfl (.phi rfl rfl) ?_ rfl rfl ?_
  · exact .arrayLength rfl (.parameter rfl rfl) rfl (r.getElem?_source m n) rfl
  · rw [satisfies_index (by omega) hshort]
    rfl

/-- The lambda is called on what was folded so far and the element at the counter. -/
theorem result (hx : r.tail[k]? = some x) :
    Reads r.lambdas (r.fuel + 3) 0 (r.round k k n) 18 := by
  have hshort := r.short
  have hlt : k < r.tail.length := (List.getElem?_eq_some_iff.1 hx).1
  have helement : r.expected k 17 = .value x := by
    show Slot.value (r.tail[k]?.getD default) = _
    rw [hx]
    rfl
  refine (r.applies k x hx).reads rfl ?_ ?_ (by omega) rfl
  · intro arg harg
    rcases List.mem_cons.1 harg with rfl | harg
    · exact .loadIndexed rfl (.parameter rfl rfl) (.constant rfl rfl) rfl rfl
        (r.getElem?_source k n)
        (position?_index (by omega)) rfl rfl
    · obtain rfl := List.mem_singleton.1 harg
      exact .loadIndexed rfl (.parameter rfl rfl) (.phi rfl rfl) rfl rfl (r.getElem?_source k n)
        (position?_index (by omega)) (by simpa using hx) helement
  · exact congrArg (fun v => [.value (r.accs k), v]) helement

theorem store (hk : k < r.tail.length) (hF : r.fuel + 3 ≤ F) :
    Yields (r.round k k k) ((Semantics.withFuel r.lambdas F 0).control r.graph 4 false
      (.storeIndexed 9 11 18 5)) (.goto 5 false) (r.round k k (k + 1)) := by
  obtain ⟨x, hx⟩ : ∃ x, r.tail[k]? = some x := ⟨_, List.getElem?_eq_getElem hk⟩
  have hstored : (r.stored k).setIfInBounds 0 (r.accs (k + 1)) = r.stored (k + 1) := by
    cases k <;> simp [stored]
  have hheld : ((r.held k k).modify r.j fun vs => vs.setIfInBounds 0 (r.accs (k + 1)))
      = r.held k (k + 1) := by
    rw [held, held, Array.setIfInBounds_comm _ _ (Ne.symm r.apart), modify_setIfInBounds,
      Array.setIfInBounds_comm _ _ r.apart, hstored]
  rw [round, round, ← hheld]
  exact .storeIndexed (.parameter rfl rfl) (.constant rfl rfl) (r.result hx) hF rfl rfl rfl
    (r.getElem?_target k k) (position?_index (by omega)) (by rw [size_stored]; exact r.room)

theorem storeBack (hF : 3 ≤ F) :
    Yields (r.round k k (k + 1)) ((Semantics.withFuel r.lambdas F 0).control r.graph 5 false
      (.storeIndexed 8 11 19 6)) (.goto 6 false) (r.round k (k + 1) (k + 1)) := by
  have hzero : position? (index 0).asInt64 = some 0 := position?_index (by omega)
  have hfirst : (r.stored (k + 1))[0]? = some (r.accs (k + 1)) :=
    Array.getElem?_setIfInBounds_self_of_lt r.room
  have hread : Reads r.lambdas 2 0 (r.round k k (k + 1)) 19 :=
    .loadIndexed rfl (.parameter rfl rfl) (.constant rfl rfl) rfl rfl (r.getElem?_target k (k + 1))
      hzero
      hfirst rfl
  have hheld : ((r.held k (k + 1)).modify r.i fun vs => vs.setIfInBounds 0 (r.accs (k + 1)))
      = r.held (k + 1) (k + 1) := by
    rw [held, held, modify_setIfInBounds]
    simp
  rw [round, round, ← hheld]
  exact .storeIndexed (.parameter rfl rfl) (.constant rfl rfl) hread (by omega) rfl rfl rfl
    (r.getElem?_source k (k + 1)) hzero (by simp)

theorem step (hk : k < r.tail.length) (hF : r.fuel + 3 ≤ F)
    (hnext : Yields (r.round (k + 1) (k + 1) (k + 1)) (r.walk F steps 2) s σ) :
    Yields (r.round k k k) (r.walk F (steps + 6) 2) s σ := by
  have htrue : Slot.value (.scalar (.boolean (decide (k + 1 < r.tail.length + 1)))) =
      .value (.scalar (.boolean true)) := by simp [hk]
  refine .walk rfl (.branch (r.condition (Nat.le_of_lt hk)) hF htrue) (.walk rfl (.pure _) ?_)
  refine .walk rfl (r.store hk hF) (.walk rfl (r.storeBack (by omega)) ?_)
  refine .walk rfl (.backEdge rfl rfl r.counts hF (r.expected (k + 1))) ?_
  exact .walk rfl (.pure _) hnext

theorem loop (hF : r.fuel + 3 ≤ F) (rest : Nat) (hk : k + rest = r.tail.length) (steps : Nat) :
    Yields (r.round k k k) (r.walk F (steps + 3 + 6 * rest) 2) .void
      (r.round r.tail.length r.tail.length r.tail.length) := by
  induction rest generalizing k with
  | zero =>
    obtain rfl : k = r.tail.length := hk
    have hfalse : Slot.value (.scalar (.boolean (decide (r.tail.length + 1 < r.tail.length + 1)))) =
        .value (.scalar (.boolean false)) := by simp
    refine .walk rfl (.branch (r.condition (Nat.le_refl _)) hF hfalse) ?_
    exact .walk rfl (.pure _) (.walk_done rfl (.pure _))
  | succ rest ih => exact r.step (by omega) hF (ih (by omega))

theorem run (hF : r.fuel + 6 * r.tail.length + 6 ≤ F) (f : Frame) :
    ∃ extra, Host.run r.lambdas F 0 r.graph [.array r.i, .array r.j] ⟨f, r.held 0 0⟩ =
      .ok (.void, ⟨f, r.held r.tail.length r.tail.length ++ extra⟩) := by
  obtain ⟨steps, rfl⟩ : ∃ steps, F = steps + 3 + 6 * r.tail.length + 2 + 1 :=
    ⟨F - 6 * r.tail.length - 6, by omega⟩
  have hloop := r.loop (by omega : r.fuel + 3 ≤ steps + 3 + 6 * r.tail.length + 2) r.tail.length
    (Nat.zero_add _) steps
  have hfirst : Reads r.lambdas (0 + 1) 0
    ⟨r.graph, [.array r.i, .array r.j], [], r.expected 0, r.held 0 0⟩
    12 := .constant rfl rfl
  exact Yields.run _ (Nat.zero_le _) rfl
    (.walk rfl (.pure _) (.walk rfl (.enterLoop rfl rfl hfirst (by omega)) hloop)) f

end ReduceRun

/-- No call that a fold from the left makes nests more than `levels` deep. -/
def FoldNestsWithin (lambdas : List Graph) (fuel levels : Nat) (name : String)
    (type : ElementType) :
    Value → List Value → Prop
  | _, [] => True
  | acc, v :: vs => NestsWithin lambdas fuel levels name [acc, v] ∧
    ∀ acc', (callElement lambdas fuel name [.value acc, .value v]).map (·.castTo type) = .ok acc' →
      FoldNestsWithin lambdas fuel levels name type acc' vs

theorem exists_accs {output : ElementType} {acc r : Value}
    (h : vs.foldlM (fun acc v => (callElement lambdas fuel name [.value acc, .value v]).map
      (·.castTo output)) acc = .ok r) (hnest : FoldNestsWithin lambdas fuel 63 name output acc vs) :
    ∃ accs : Nat → Value, accs 0 = acc ∧ accs vs.length = r ∧ ∀ (k : Nat) (x : Value),
      vs[k]? = some x → Applies lambdas fuel name output [accs k, x] (accs (k + 1)) := by
  induction vs generalizing acc with
  | nil =>
    cases h
    exact ⟨fun _ => r, rfl, rfl, fun k x hx => by simp at hx⟩
  | cons v vs ih =>
    rw [List.foldlM_cons] at h
    obtain ⟨acc', hacc', h⟩ := bind_eq_ok.1 h
    obtain ⟨hcall, hrest⟩ := hnest
    obtain ⟨accs, rfl, hlast, happlies⟩ := ih h (hrest acc' hacc')
    refine ⟨fun k => Nat.casesOn k acc accs, rfl, hlast, fun k x hx => ?_⟩
    cases k with
    | zero =>
      cases hx
      exact applies_of_callElement hacc' hcall
    | succ k => exact happlies k x hx

/-- Running the reduce skeleton is folding the lambda from the left. Where `reduce` folds two values
or more, fewer than 2³¹, and no call nests more than 63 levels, the skeleton ends on every arena
that holds the values and has another array that is not empty. The result stands in front of both
arrays, and nothing else changes. -/
theorem reduceSkeleton_runs_fold {lambdas : List Graph} {fuel : Nat} {name : String}
    (input : ElementType) {output : ElementType} {a b : PortableArray} {first : Value}
    {tail : List Value} (hreduce : reduce lambdas fuel name [] a first = .ok b)
    (htype : first.typeOf = .ok output) (htail : logicalValues a = .ok tail)
    (htwo : 1 ≤ tail.length) (hshort : tail.length + 1 < 2147483648)
    (hnest : FoldNestsWithin lambdas fuel 63 name output first tail)
    {arena : Arena} {i j : Nat} {out : Array Value} (hin : arena[i]? = some (first :: tail).toArray)
    (hout : arena[j]? = some out) (hapart : i ≠ j) (hroom : 1 ≤ out.size) :
    ∃ r, b.get? 0 = some r ∧
      ∀ fuel', fuel + 6 * tail.length + 6 ≤ fuel' → ∀ f, ∃ arena',
        run lambdas fuel' 0 (Skeleton.reduce name input output) [.array i, .array j] ⟨f, arena⟩ =
          .ok (.void, ⟨f, arena'⟩) ∧
        arena'[i]? = some (r :: tail).toArray ∧ arena'[j]? = some (out.setIfInBounds 0 r) ∧
        ∀ h, h < arena.size → h ≠ i → h ≠ j → arena'[h]? = arena[h]? := by
  simp only [reduce, htype] at hreduce
  obtain ⟨tail', htail', hreduce⟩ := bind_eq_ok.1 hreduce
  obtain rfl : tail = tail' := by
    rw [htail] at htail'
    exact Except.ok.inj htail'
  obtain ⟨r, hfold, hresult⟩ := bind_eq_ok.1 hreduce
  obtain ⟨accs, rfl, rfl, happlies⟩ := exists_accs hfold hnest
  have hi : i < arena.size := (Array.getElem?_eq_some_iff.1 hin).1
  have hj : j < arena.size := (Array.getElem?_eq_some_iff.1 hout).1
  obtain ⟨n, hn⟩ : ∃ n, tail.length = n + 1 := ⟨tail.length - 1, by omega⟩
  -- at least one element is folded in, so the result has been converted already
  have hconverted : (accs tail.length).castTo output = accs tail.length := by
    obtain ⟨callee, v, -, hv, -⟩ := happlies n _ (List.getElem?_eq_getElem (by omega))
    rw [hn, hv]
    exact Value.castTo_castTo output v
  let r : ReduceRun :=
    ⟨lambdas, fuel, name, input, output, i, j, tail, accs, arena, out, hshort, hapart, hi,
    hj, hroom, happlies⟩
  have harena : r.held 0 0 = arena := by
    show (arena.setIfInBounds j out).setIfInBounds i (accs 0 :: tail).toArray = arena
    rw [setIfInBounds_of_getElem? hout, setIfInBounds_of_getElem? hin]
  have hstored : r.stored tail.length = out.setIfInBounds 0 (accs tail.length) := by
    rw [hn]
    rfl
  refine ⟨accs tail.length, ?_, fun fuel' hfuel f => ?_⟩
  · obtain ⟨-, hread⟩ := ofResults_eq_ok hresult fun v hv => ⟨_, List.mem_singleton.1 hv⟩
    rw [hread 0 (by simp), List.getElem_cons_zero, hconverted]
  · obtain ⟨extra, hrun⟩ := r.run hfuel f
    rw [harena] at hrun
    have hfound (h : Nat) (hh : h < arena.size) :
        (r.held tail.length tail.length ++ extra)[h]? = (r.held tail.length tail.length)[h]? :=
      Array.getElem?_append_left (by simpa [ReduceRun.held] using hh)
    refine ⟨_, hrun, (hfound i hi).trans (r.getElem?_source _ _), ?_, fun h hh hne hne' => ?_⟩
    · rw [hfound j hj, ← hstored]
      exact r.getElem?_target _ _
    · rw [hfound h hh, ReduceRun.held, Array.getElem?_setIfInBounds_ne (Ne.symm hne),
        Array.getElem?_setIfInBounds_ne (Ne.symm hne')]

/-- The greater of two integers. -/
def greater : Graph := .ofOperations "greater" [.parameter 0 (.scalar .int),
  .parameter 1 (.scalar .int), .invoke (.builtin "max") [1, 2] (.scalar .int)]

theorem greater_nests (m n : Int32) :
    NestsWithin [greater] 20 63 "greater" [.scalar (.int m), .scalar (.int n)] :=
  nestsWithin_of_isOk rfl (by with_unfolding_all rfl)

theorem reduceSkeleton_runs_greater :
    reduce [greater] 20 "greater" [] (integers [7, -2]) (.scalar (.int 3)) = .ok (integers [7]) ∧
    ∃ arena', run [greater] 100 0 (Skeleton.reduce "greater" (.scalar .int) (.scalar .int))
        [.array 0, .array 1] ⟨default, #[cells [3, 7, -2], cells [0]]⟩
          = .ok (.void, ⟨default, arena'⟩) ∧
      arena'[0]? = some (cells [7, 7, -2]) ∧ arena'[1]? = some (cells [7]) := by
  have hreduce : reduce [greater] 20 "greater" [] (integers [7, -2]) (.scalar (.int 3)) =
      .ok (integers [7]) := by with_unfolding_all rfl
  have hseven : (callElement [greater] 20 "greater" [.value (.scalar (.int 3)),
      .value (.scalar (.int 7))]).map (·.castTo (.scalar .int)) = .ok (.scalar (.int 7)) := by
    with_unfolding_all rfl
  have hnest : FoldNestsWithin [greater] 20 63 "greater" (.scalar .int) (.scalar (.int 3))
      [.scalar (.int 7), .scalar (.int (-2))] := by
    refine ⟨greater_nests 3 7, fun acc hacc => ?_⟩
    obtain rfl : Value.scalar (.int 7) = acc := Except.ok.inj (hseven.symm.trans hacc)
    exact ⟨greater_nests 7 (-2), fun _ _ => trivial⟩
  have hout : (#[cells [3, 7, -2], cells [0]] : Arena)[1]? = some (cells [0]) := rfl
  obtain ⟨r, hr, hrun⟩ := reduceSkeleton_runs_fold (.scalar .int) hreduce rfl rfl (by decide)
    (by decide) hnest (i := 0) rfl hout (by decide) (by decide)
  obtain rfl : Value.scalar (.int 7) = r := Option.some.inj hr
  obtain ⟨arena', hok, hin, hfront, -⟩ := hrun 100 (by decide) default
  exact ⟨hreduce, arena', hok, hin, hfront⟩

end Host

end Kernelwright
