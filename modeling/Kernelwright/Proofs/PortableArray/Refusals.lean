import Kernelwright.Proofs.PortableArray.Formed
import Kernelwright.Proofs.PortableArray.PutGet

/-!
# Refused stores

A tuple is stored field by field, and the shape of a component is looked at only when its field is
reached. So a refusal may come late: the leaves before it have been written by then. This module
says which ones those are, and with that when a refused store has changed nothing.
-/

namespace Kernelwright

namespace Value

mutual

def decidableHasShape : (t : ElementType) → (v : Value) → Decidable (HasShape t v)
  | .scalar _, .scalar _ => .isTrue trivial
  | .record ts, .tuple vs => decidableHaveShapes ts vs
  | .scalar _, .tuple _ => .isFalse id
  | .record _, .scalar _ => .isFalse id

def decidableHaveShapes : (ts : List ElementType) → (vs : List Value) → Decidable (HaveShapes ts vs)
  | [], [] => .isTrue trivial
  | t :: ts, v :: vs => @instDecidableAnd _ _ (decidableHasShape t v) (decidableHaveShapes ts vs)
  | [], _ :: _ => .isFalse id
  | _ :: _, [] => .isFalse id

end

instance (t : ElementType) (v : Value) : Decidable (HasShape t v) := decidableHasShape t v

mutual

/-- The leaves of a value that are stored, converted to the kinds of the type: those before the
first component that has not the shape of the type. -/
def stored : ElementType → Value → List Value
  | .scalar k, .scalar x => [.scalar (x.cast k)]
  | .record ts, .tuple vs => if vs.length = ts.length then storedAll ts vs else []
  | _, _ => []

/-- The same for the components of a tuple. -/
def storedAll : List ElementType → List Value → List Value
  | t :: ts, v :: vs => if HasShape t v then stored t v ++ storedAll ts vs else stored t v
  | _, _ => []

end

end Value

namespace Storage

variable {kind : ScalarKind} {mode : StorageMode} {size i : Nat} {s : Storage}

theorem IsLeaf.isColumn (h : s.IsLeaf kind mode size) (hmode : mode ≠ .object) :
    s.IsColumn kind mode size := by
  cases s with
  | native k cells =>
    obtain ⟨hkind, -⟩ := h.view _ rfl
    exact ⟨h.backend, hkind, h.length⟩
  | bytes k pinned data =>
    obtain ⟨hkind, hlength⟩ := h.view _ rfl
    exact ⟨h.backend, hkind, hlength⟩
  | boxed cells => exact absurd h.backend (select_ne_boxed hmode)

theorem IsColumn.lt_of_accepts (hs : s.IsColumn kind mode size) {x : Scalar}
    (h : s.accepts i (.scalar x) = true) : i < size := by
  cases s with
  | native k cells =>
    obtain ⟨-, -, rfl⟩ := hs
    simpa [Storage.accepts, Value.scalar?] using h
  | bytes k pinned data =>
    obtain ⟨-, rfl, hdata⟩ := hs
    rw [Storage.accepts, decide_eq_true_eq, hdata] at h
    exact Nat.le_of_mul_le_mul_right h k.byteSize_pos
  | boxed cells => exact hs.elim

end Storage

namespace PortableArray

open Value

mutual

/-- The tree of columns follows the tree of the type. How much storage each of them has is left
open: some may still be without any. -/
def Laid (mode : StorageMode) : ElementType → PortableArray → Prop
  | .scalar k, flat h s => h.type = .scalar k ∧ ∃ size, s.IsLeaf k mode size
  | .record ts, flat h _ => mode = .object ∧ h.type = .record ts
  | .record ts, fields _ cs => mode ≠ .object ∧ LaidAll mode ts cs
  | .scalar _, fields .. => False

/-- The arrays follow the types, position by position. -/
def LaidAll (mode : StorageMode) : List ElementType → List PortableArray → Prop
  | [], [] => True
  | t :: ts, c :: cs => Laid mode t c ∧ LaidAll mode ts cs
  | _, _ => False

end

mutual

/-- What is read of each column at an index, in the order of the fields. -/
def cells : PortableArray → Nat → List (Option Value)
  | flat _ s, i => [s.get? i]
  | fields _ cs, i => cellsAll cs i

def cellsAll : List PortableArray → Nat → List (Option Value)
  | [], _ => []
  | c :: cs, i => cells c i ++ cellsAll cs i

end

variable {mode : StorageMode} {i : Nat}

theorem LaidAll.length_eq : {ts : List ElementType} → {cs : List PortableArray} →
    LaidAll mode ts cs → cs.length = ts.length
  | [], [], _ => rfl
  | _ :: _, _ :: _, h => by rw [List.length_cons, List.length_cons, LaidAll.length_eq h.2]
  | [], _ :: _, h => h.elim
  | _ :: _, [], h => h.elim

mutual

theorem Formed.laid {size : Nat} {sequence : Bool} : {t : ElementType} → {a : PortableArray} →
    Formed mode size sequence t a → Laid mode t a
  | .scalar _, flat _ _, h => ⟨h.1.1, size, h.2⟩
  | .record _, flat _ _, h => ⟨h.1, h.2.1.1⟩
  | .record _, fields _ _, h => ⟨h.1, h.2.2.laid⟩
  | .scalar _, fields _ _, h => h.elim

theorem FormedAll.laid {size : Nat} {sequence : Bool} : {ts : List ElementType} →
    {cs : List PortableArray} → FormedAll mode size sequence ts cs → LaidAll mode ts cs
  | [], [], _ => trivial
  | _ :: _, _ :: _, h => ⟨h.1.laid, h.2.laid⟩
  | [], _ :: _, h => h.elim
  | _ :: _, [], h => h.elim

end

/-- What a store makes of the columns: those in front get values, and the others are as they
were. -/
def Fills (values : List Value) (i : Nat) (whole : Prop)
    (before after : Nat → List (Option Value)) :
    Prop :=
  (∀ j, j ≠ i → after j = before j) ∧ ∃ old rest, before i = old ++ rest ∧
    after i = values.map some ++ rest ∧ old.length = values.length ∧ (whole → rest = [])

mutual

theorem put_laid (hmode : mode ≠ .object) : (t : ElementType) → (v : Value) →
    (a b : PortableArray) → (r : Option ArrayError) → Laid mode t a → put i v a = (b, r) →
      r ≠ some .indexOutOfRange → (r = none ↔ HasShape t v) ∧ b.headers = a.headers ∧
        Fills (stored t v) i (r = none) a.cells b.cells
  | .scalar k, .scalar x, flat h s, b, r, ha, hput, hr => by
    obtain ⟨htype, size, hleaf⟩ := ha
    rw [put, htype, fits, ElementType.isRecord, putFlat] at hput
    cases haccepts : s.accepts i (.scalar x) with
    | false =>
      simp only [haccepts, Bool.not_false, if_true, Bool.false_eq_true, if_false] at hput
      cases hput
      exact absurd rfl hr
    | true =>
      simp only [haccepts, Bool.not_false, if_true] at hput
      cases hput
      have hs := hleaf.isColumn hmode
      have hi := hs.lt_of_accepts haccepts
      refine ⟨⟨fun _ => trivial, fun _ => rfl⟩, rfl, fun j hj => ?_,
        [s.get? i], [], rfl, ?_, rfl, fun _ => rfl⟩
      · rw [cells, cells, hs.get?_put_of_ne hi x hj]
      · rw [cells, hs.get?_put_self hi]
        rfl
  | .record ts, .tuple vs, fields h cs, b, r, ha, hput, hr => by
    rw [put] at hput
    by_cases hlen : vs.length = cs.length
    · rw [if_pos hlen] at hput
      cases hput
      have hlen' : vs.length = ts.length := hlen.trans ha.2.length_eq
      obtain ⟨hshape, hheaders, hfills⟩ :=
        putAll_laid hmode ts vs cs _ _ ha.2 hlen rfl hr
      rw [stored, if_pos hlen', headers, headers, hheaders]
      exact ⟨hshape, rfl, hfills⟩
    · rw [if_neg hlen] at hput
      cases hput
      have hlen' : vs.length ≠ ts.length := fun h => hlen (h.trans ha.2.length_eq.symm)
      rw [stored, if_neg hlen']
      refine ⟨⟨by simp, fun hshape => absurd (HaveShapes.length_eq hshape) hlen'⟩, rfl,
        fun _ _ => rfl,
        [], (fields h cs).cells i, rfl, rfl, rfl, by simp⟩
  | .scalar k, .tuple vs, flat h s, b, r, ha, hput, _ => by
    rw [put, ha.1, fits, ElementType.isRecord] at hput
    cases hput
    exact ⟨⟨by simp, False.elim⟩, rfl, fun _ _ => rfl, [], [s.get? i], rfl, rfl, rfl, by simp⟩
  | .record ts, .scalar x, fields h cs, b, r, ha, hput, _ => by
    cases hput
    exact ⟨⟨by simp, False.elim⟩, rfl, fun _ _ => rfl, [], (fields h cs).cells i, rfl,
      rfl, rfl, by simp⟩
  | .record _, _, flat _ _, _, _, ha, _, _ => absurd ha.1 hmode
  | .scalar _, _, fields _ _, _, _, ha, _, _ => ha.elim

theorem putAll_laid (hmode : mode ≠ .object) : (ts : List ElementType) → (vs : List Value) →
    (cs ds : List PortableArray) → (r : Option ArrayError) → LaidAll mode ts cs →
      vs.length = cs.length → putAll i vs cs = (ds, r) → r ≠ some .indexOutOfRange →
        (r = none ↔ HaveShapes ts vs) ∧ headersAll ds = headersAll cs ∧
          Fills (storedAll ts vs) i (r = none) (cellsAll cs) (cellsAll ds)
  | [], [], [], _, _, _, _, hput, _ => by
    cases hput
    exact ⟨⟨fun _ => trivial, fun _ => rfl⟩, rfl, fun _ _ => rfl, [], [], rfl, rfl,
      rfl, fun _ => rfl⟩
  | t :: ts, v :: vs, c :: cs, ds, r, ha, hlen, hput, hr => by
    rw [putAll] at hput
    cases hc : put i v c with
    | mk d e =>
      rw [hc] at hput
      cases e with
      | some e =>
        -- the store stops at this field, and the fields after it are not reached
        cases hput
        obtain ⟨hshape, hheaders, hother, old, rest, hbefore, hafter, hlength, -⟩ :=
          put_laid hmode t v c d _ ha.1 hc hr
        have hnot : ¬HasShape t v := fun h => by simpa using hshape.2 h
        rw [storedAll, if_neg hnot, headersAll, headersAll, hheaders]
        refine ⟨⟨by simp, fun h => absurd h.1 hnot⟩, rfl, fun j hj => ?_,
          old, rest ++ cellsAll cs i, ?_, ?_, hlength, by simp⟩
        · rw [cellsAll, cellsAll, hother j hj]
        · rw [cellsAll, hbefore, List.append_assoc]
        · rw [cellsAll, hafter, List.append_assoc]
      | none =>
        -- the field is full, and what follows fills those after it
        obtain ⟨hshape, hheaders, hother, old, rest, hbefore, hafter, hlength, hrest⟩ :=
          put_laid hmode t v c d none ha.1 hc (by simp)
        obtain rfl := hrest rfl
        cases hput
        obtain ⟨hshapes, hheaders', hother', old', rest', hbefore', hafter', hlength', hrest'⟩ :=
          putAll_laid hmode ts vs cs _ _ ha.2 (by simpa using hlen) rfl hr
        have hfirst := hshape.1 rfl
        rw [storedAll, if_pos hfirst, headersAll, headersAll, hheaders, hheaders']
        refine ⟨hshapes.trans ⟨fun h => ⟨hfirst, h⟩, fun h => h.2⟩, rfl, fun j hj => ?_,
          old ++ old', rest', ?_, ?_, by simp [hlength, hlength'], hrest'⟩
        · rw [cellsAll, cellsAll, hother j hj, hother' j hj]
        · rw [cellsAll, hbefore, hbefore', List.append_nil, List.append_assoc]
        · rw [cellsAll, hafter, hafter', List.append_nil, List.map_append, List.append_assoc]
  | [], _ :: _, [], _, _, _, hlen, _, _ => by simp at hlen
  | _ :: _, [], _ :: _, _, _, _, hlen, _, _ => by simp at hlen
  | [], _, _ :: _, _, _, ha, _, _, _ => ha.elim
  | _ :: _, _, [], _, _, ha, _, _, _ => ha.elim

end

/-- A column of whole values refuses what does not fit from the outside, and of that nothing would
be stored in columns either. -/
theorem put_flat {t : ElementType} {v : Value} {h : ArrayHeader} {s : Storage} {b : PortableArray}
    {e : ArrayError} (htype : h.type = t) (hput : put i v (flat h s) = (b, some e))
    (he : e ≠ .indexOutOfRange) : b = flat h s ∧ stored t v = [] := by
  rw [put, htype] at hput
  cases hfits : fits t v with
  | true =>
    rw [hfits, if_pos rfl, putFlat] at hput
    split at hput
    · cases hput
    · cases hput
      exact absurd rfl he
  | false =>
    rw [hfits] at hput
    cases hput
    refine ⟨rfl, ?_⟩
    cases t <;> cases v <;> simp_all [fits, stored, ElementType.isRecord, ElementType.arity]

/-- What a refused store has done. The leaves of the value before the component that is at fault
have been stored, and nothing else has changed. So the array reads as before exactly if those leaves
stood there already. -/
theorem refused_put_stores_front (t : ElementType) (mode : StorageMode)
    (a b : PortableArray) (i : Nat)
    (v : Value) (e : ArrayError) (ha : Laid mode t a) (hput : put i v a = (b, some e))
    (he : e ≠ .indexOutOfRange) :
    b.headers = a.headers ∧ (∀ j, j ≠ i → b.cells j = a.cells j) ∧
    ∃ old rest, a.cells i = old ++ rest ∧ b.cells i = (stored t v).map some ++ rest ∧
      old.length = (stored t v).length ∧
      ((∀ j, b.cells j = a.cells j) ↔ old = (stored t v).map some) := by
  have hfills : b.headers = a.headers ∧ Fills (stored t v) i False a.cells b.cells := by
    by_cases hmode : mode = .object
    · cases a with
      | fields h cs =>
        cases t with
        | scalar k => exact ha.elim
        | record ts => exact absurd hmode ha.1
      | flat h s =>
        have htype : h.type = t := by
          cases t with
          | scalar k => exact ha.1
          | record ts => exact ha.2
        obtain ⟨rfl, hstored⟩ := put_flat htype hput he
        rw [hstored]
        exact ⟨rfl, fun _ _ => rfl, [], _, rfl, rfl, rfl, False.elim⟩
    · obtain ⟨-, hheaders, hother, old, rest, hbefore, hafter, hlength, -⟩ :=
        put_laid hmode t v a b (some e) ha hput (by simpa using he)
      exact ⟨hheaders, hother, old, rest, hbefore, hafter, hlength, False.elim⟩
  obtain ⟨hheaders, hother, old, rest, hbefore, hafter, hlength, -⟩ := hfills
  refine ⟨hheaders, hother, old, rest, hbefore, hafter, hlength, fun hsame => ?_, fun hold j => ?_⟩
  · have hself := hsame i
    rw [hbefore, hafter] at hself
    exact (List.append_inj_left hself (by simpa using hlength.symm)).symm
  · by_cases hj : j = i
    · rw [hj, hbefore, hafter, hold]
    · exact hother j hj

/-- A number in place of a nested pair is refused. The number before it stood there already, so the
array reads as before. -/
theorem refused_put_stores_front_nested :
    let int := fun n : Int32 => Value.scalar (.int n)
    let t := ElementType.record [.scalar .int, .record [.scalar .int, .scalar .int]]
    ∃ a b e, Laid .nativeBuffers t a ∧ put 1 (.tuple [int 0, int 7]) a = (b, some e) ∧
      e ≠ .indexOutOfRange ∧ a.size = 2 ∧ ∀ j, b.cells j = a.cells j := by
  intro int t
  have hnew : ∃ a, construct 2 t .nativeBuffers true = .ok a := ⟨_, rfl⟩
  obtain ⟨a, ha⟩ := hnew
  have hlaid := (construct_formed ha).laid
  cases ha
  obtain ⟨-, -, old, rest, hbefore, -, hlength, hiff⟩ :=
    refused_put_stores_front t .nativeBuffers _ _ 1 (.tuple [int 0, int 7]) _ hlaid rfl (by decide)
  refine ⟨_, _, _, hlaid, rfl, by decide, rfl, hiff.2 ?_⟩
  exact List.append_inj_left (hbefore.symm.trans (show _ = [some (int 0)] ++ _ from rfl)) hlength

/-- Of a refused tuple the first number has been stored. -/
theorem refused_put_changes_array :
    let int := fun n : Int32 => Value.scalar (.int n)
    let t := ElementType.record [.scalar .int, .record [.scalar .int, .scalar .int]]
    ∃ a b e, construct 1 t .nativeBuffers true = .ok a ∧
      put 0 (.tuple [int 5, int 7]) a = (b, some e) ∧
      a.toList? = some [.tuple [int 0, .tuple [int 0, int 0]]] ∧
      b.toList? = some [.tuple [int 5, .tuple [int 0, int 0]]] :=
  ⟨_, _, _, rfl, rfl, rfl, rfl⟩

end PortableArray

end Kernelwright
