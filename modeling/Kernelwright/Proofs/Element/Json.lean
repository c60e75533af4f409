import Kernelwright.Element.Json
import Kernelwright.Proofs.Json.Decoding

/-!
# Element types and values read back from JSON

Every element type reads back from its JSON form, and so does every value without floating-point
leaves. A value is legible if the payloads of its leaves are.
-/

namespace Kernelwright

open Decode

/-! ### Kinds and types -/

@[simp] theorem ScalarKind.ofJson_toJson (k : ScalarKind) (form : TagFields) (room : Nat) :
    ofJson form room k.toJson = some k := by
  rw [ofJson, toJson, enumeration_text, k.ofTag?_tag]

@[simp] theorem ScalarKind.legible (k : ScalarKind) : k.toJson.Legible := .text _

namespace ElementType

mutual

@[simp] theorem legible : (t : ElementType) → t.toJson.Legible
  | .scalar k => k.legible.tagged _
  | .record ts => Json.Legible.tagged (.array (legible_all ts)) _

theorem legible_all : (ts : List ElementType) → ∀ v ∈ toJsonAll ts, v.Legible
  | [], v, hv => by cases hv
  | t :: ts, v, hv => by
    rcases List.mem_cons.1 hv with rfl | hv
    · exact t.legible
    · exact legible_all ts v hv

end

mutual

theorem reads : (t : ElementType) → Reads ofJson t.toJson t
  | .scalar k => by
    intro form room hroom
    obtain ⟨r, rfl, hk⟩ := Json.room_of_tagged hroom
    cases r <;> simp [toJson, Json.tagged, ofJson]
  | .record ts => by
    intro form room hroom
    obtain ⟨r, rfl, harray⟩ := Json.room_of_tagged hroom
    obtain ⟨r, rfl, hitems⟩ := Json.room_of_array harray
    simp [toJson, Json.tagged, ofJson, mapM_ofJson ts form hitems]

theorem mapM_ofJson : (ts : List ElementType) → ∀ (form : TagFields) {room : Nat},
    (∀ v ∈ toJsonAll ts, v.depth ≤ room) → (toJsonAll ts).mapM (ofJson form room) = some ts
  | [], _, _, _ => rfl
  | t :: ts, form, room, h => by
    have ht := t.reads form (h _ (List.mem_cons_self ..))
    have hts := mapM_ofJson ts form fun v hv => h v (List.mem_cons_of_mem _ hv)
    simp [toJsonAll, ht, hts]

end

@[simp] theorem ofJson_toJson {t : ElementType} {form : TagFields} {room : Nat}
    (h : t.toJson.depth ≤ room) : ofJson form room t.toJson = some t := t.reads form h

end ElementType

/-! ### Values -/

theorem Scalar.reads_payload {s : Scalar} (h : s.isFloating = false) :
    Reads (ofPayload s.kind) s.payload s := by
  intro form room _
  cases s with
  | byte v =>
    have hlow : Int8.minValue.toInt ≤ v.toInt := v.le_toInt
    simp only [kind, ofPayload, payload, int_int hlow v.toInt_le (by decide) (by decide),
      Option.map_some, Int8.ofInt_toInt]
  | char v =>
    have hsize : ((UInt8.size : Int) - 1) = (UInt8.size - 1 : Nat) := rfl
    have hle : v.toNat ≤ UInt8.size - 1 := Nat.le_of_lt_succ v.toNat_lt
    simp only [kind, ofPayload, payload, hsize, int_nat hle (by decide), Option.map_some,
      Int.toNat_natCast, UInt8.ofNat_toNat]
  | short v =>
    have hlow : Int16.minValue.toInt ≤ v.toInt := v.le_toInt
    simp only [kind, ofPayload, payload, int_int hlow v.toInt_le (by decide) (by decide),
      Option.map_some, Int16.ofInt_toInt]
  | int v =>
    have hlow : Int32.minValue.toInt ≤ v.toInt := v.le_toInt
    simp only [kind, ofPayload, payload, int_int hlow v.toInt_le (by decide) (by decide),
      Option.map_some, Int32.ofInt_toInt]
  | long v =>
    have hlow : Int64.minValue.toInt ≤ v.toInt := v.le_toInt
    simp only [kind, ofPayload, payload, int_int hlow v.toInt_le (by decide) (by decide),
      Option.map_some, Int64.ofInt_toInt]
  | float v => cases h
  | double v => cases h
  | boolean v => rfl

theorem Scalar.legible_payload_of_not_floating {s : Scalar} (h : s.isFloating = false) :
    s.payload.Legible := by
  cases s with
  | byte | short | int | long => exact Json.legible_int _
  | char => exact Json.legible_nat _
  | float | double => cases h
  | boolean v => exact .bool v

namespace Value

mutual

/-- The scalars of a value, from left to right. -/
def leaves : Value → List Scalar
  | .scalar s => [s]
  | .tuple vs => leavesAll vs

def leavesAll : List Value → List Scalar
  | [] => []
  | v :: vs => v.leaves ++ leavesAll vs

end

/-- No leaf is a floating-point number. -/
def FloatFree (v : Value) : Prop := ∀ s ∈ v.leaves, s.isFloating = false

instance (v : Value) : Decidable v.FloatFree := inferInstanceAs (Decidable (∀ s ∈ v.leaves, _))

mutual

theorem legible : (v : Value) → (∀ s ∈ v.leaves, s.payload.Legible) → v.toJson.Legible
  | .scalar s, h => (h s (by simp [leaves])).tagged _
  | .tuple vs, h => Json.Legible.tagged (.array (legible_all vs h)) _

theorem legible_all : (vs : List Value) → (∀ s ∈ leavesAll vs, s.payload.Legible) →
    ∀ w ∈ toJsonAll vs, w.Legible
  | [], _, w, hw => by cases hw
  | v :: vs, h, w, hw => by
    rcases List.mem_cons.1 hw with rfl | hw
    · exact v.legible fun s hs => h s (List.mem_append_left _ hs)
    · exact legible_all vs (fun s hs => h s (List.mem_append_right _ hs)) w hw

end

theorem tag_ne_tuple (k : ScalarKind) : k.tag ≠ "Tuple" := by cases k <;> decide

mutual

theorem reads : (v : Value) → v.FloatFree → Reads ofJson v.toJson v
  | .scalar s, h => by
    intro form room hroom
    obtain ⟨r, rfl, hpayload⟩ := Json.room_of_tagged hroom
    have hread := Scalar.reads_payload (h s (by simp [leaves])) form hpayload
    rw [toJson, ofJson, Json.tagged, ofJsonWith]
    · simp [s.kind.ofTag?_tag, hread]
    · exact fun _ _ _ _ htag => tag_ne_tuple s.kind htag
  | .tuple vs, h => by
    intro form room hroom
    obtain ⟨r, rfl, harray⟩ := Json.room_of_tagged hroom
    obtain ⟨r, rfl, hitems⟩ := Json.room_of_array harray
    have hvs := mapM_ofJson vs h form hitems
    rw [toJson, Json.tagged, ofJson, ofJsonWith]
    rw [ofJson] at hvs
    rw [hvs]
    rfl

theorem mapM_ofJson : (vs : List Value) → (∀ s ∈ leavesAll vs, s.isFloating = false) →
    ∀ (form : TagFields) {room : Nat}, (∀ w ∈ toJsonAll vs, w.depth ≤ room) →
    (toJsonAll vs).mapM (ofJson form room) = some vs
  | [], _, _, _, _ => rfl
  | v :: vs, h, form, room, hroom => by
    have hv := v.reads (fun s hs => h s (List.mem_append_left _ hs)) form
      (hroom _ (List.mem_cons_self ..))
    have hvs := mapM_ofJson vs (fun s hs => h s (List.mem_append_right _ hs)) form
      fun w hw => hroom w (List.mem_cons_of_mem _ hw)
    simp [toJsonAll, hv, hvs]

end

end Value

end Kernelwright
