import Kernelwright.Json.Decode
import Kernelwright.Proofs.Json.RoundTrip

/-!
# Decoding what was written

The text of a whole number is read as that number. `Reads` says that a decoder gives back the value
from which a document was made, as far as containers may nest; a record is decoded once each of its
members is.
-/

namespace Kernelwright

open Text

variable {n : Int} {ms : List (String × Json)} {tag : String}

namespace Json

variable {ds : List Char}

/-! ### Numerals of integers -/

theorem scanWhole?_digits {rest : List Char} (hds : ∀ c ∈ ds, isDigit c = true)
    (hlead : ds = ['0'] ∨ ∃ c cs, ds = c :: cs ∧ c ≠ '0') (hrest : Stops isDigit rest) :
    scanWhole? (ds ++ rest) = some (ds, rest) := by
  rw [scanWhole?, takeWhile_append_of_stops hds hrest, dropWhile_append_of_stops hds hrest]
  rcases hlead with rfl | ⟨c, cs, rfl, hc⟩
  · rfl
  · split
    · next heq => cases heq
    · next heq => exact absurd (List.cons.inj heq).1 hc
    · rfl

theorem scanWhole?_decimal (n : Nat) :
    scanWhole? (toString n).toList = some ((toString n).toList, []) := by
  have hlead : (toString n).toList = ['0'] ∨ ∃ c cs, (toString n).toList = c :: cs ∧ c ≠ '0' := by
    rcases Nat.eq_zero_or_pos n with rfl | hpos
    · exact .inl rfl
    · exact .inr (toString_nat_head hpos)
  have hscan := scanWhole?_digits (fun c hc => isDigit_of_mem_toString hc) hlead (stops_nil _)
  rwa [List.append_nil] at hscan

def Numeral.ofInt (n : Int) : Numeral := ⟨decide (n < 0), (toString n.natAbs).toList, [], none⟩

theorem scanUnsigned?_decimal (negative : Bool) (n : Nat) :
    scanUnsigned? negative (toString n).toList = some
      (⟨negative, (toString n).toList, [], none⟩, []) := by
  rw [scanUnsigned?, scanWhole?_decimal]
  rfl

theorem scanNumeral?_int (n : Int) : scanNumeral? (toString n).toList = some (.ofInt n, []) := by
  cases n with
  | ofNat n =>
    have htext : (toString (Int.ofNat n)).toList = (toString n).toList := rfl
    rw [htext, scanNumeral?]
    · exact scanUnsigned?_decimal false n
    · intro cs hcs
      have hminus : isDigit '-' = true := isDigit_of_mem_toString (n := n) (by rw [hcs]; simp)
      cases hminus
  | negSucc n =>
    have htext : (toString (Int.negSucc n)).toList = '-' :: (toString (n + 1)).toList := by
      simp [toString, Int.repr]
    have hsign : decide (Int.negSucc n < 0) = true := decide_eq_true (Int.negSucc_lt_zero n)
    rw [htext, scanNumeral?, scanUnsigned?_decimal, Numeral.ofInt, hsign]
    rfl

@[simp] theorem legible_int (n : Int) : (Json.int n).Legible := .number (scanNumeral?_int n)

@[simp] theorem legible_nat (n : Nat) : (Json.nat n).Legible := legible_int n

theorem collect_eq {word count : Nat}
    (h : ds.foldl (fun n d => 10 * n + digitValue d) word < wordLimit) :
    collect word count ds
      = (ds.foldl (fun n d => 10 * n + digitValue d) word, count + ds.length, 0) := by
  induction ds generalizing word count with
  | nil => rfl
  | cons d ds ih =>
    have hmono : ∀ (ds : List Char) (m : Nat),
        m ≤ ds.foldl (fun n d => 10 * n + digitValue d) m := by
      intro ds
      induction ds with
      | nil => exact fun m => Nat.le_refl m
      | cons d ds ih => exact fun m => Nat.le_trans (by omega) (ih (10 * m + digitValue d))
    have hnext : 10 * word + digitValue d < wordLimit := Nat.lt_of_le_of_lt (hmono ds _) h
    rw [collect, if_pos hnext, ih h, List.foldl_cons, List.length_cons]
    congr 2
    omega

theorem collect_decimal {n : Nat} (h : n < wordLimit) :
    collect 0 0 (toString n).toList = (n, (toString n).toList.length, 0) := by
  have hvalue : (toString n).toList.foldl (fun n d => 10 * n + digitValue d) 0 = n :=
    decimalValue_toString n
  rw [collect_eq (by rw [hvalue]; exact h), hvalue, Nat.zero_add]

theorem read?_int (hlow : Int64.minValue.toInt ≤ n) (hhigh : n < wordLimit) :
    (Numeral.ofInt n).read? = some (if n < 0 then .negative n else .nonneg n.toNat) := by
  have hmin : Int64.minValue.toInt = -9223372036854775808 := rfl
  have hlimit : wordLimit = 18446744073709551616 := rfl
  have hword : n.natAbs < wordLimit := by omega
  simp only [Numeral.read?, Numeral.ofInt, collect_decimal hword]
  by_cases hneg : n < 0
  · have hpos : 0 < n.natAbs ∧ n.natAbs ≤ Int64.minValue.toInt.natAbs := by omega
    have hvalue : -((n.natAbs : Nat) : Int) = n := by omega
    simp only [hneg, hpos, hvalue, decide_true, List.isEmpty_nil, Option.isNone_none, and_self,
      if_true, Bool.not_true, Bool.false_eq_true, if_false]
  · have hvalue : n.natAbs = n.toNat := by omega
    simp [hneg, hvalue]

/-! ### Legible parts -/

@[simp] theorem legible_text (s : String) : (Json.text s).Legible := .text s

@[simp] theorem legible_bool (b : Bool) : (Json.bool b).Legible := .bool b

theorem Legible.tagged {v : Json} (h : v.Legible) (tag : String) : (Json.tagged tag v).Legible := by
  have hmembers : (Json.members [(tag, v)]).Legible := .members (by simpa using h)
  exact hmembers

end Json

/-! ### Leaves -/

namespace Decode

theorem number_int (hlow : Int64.minValue.toInt ≤ n) (hhigh : n < Json.wordLimit) (form : TagFields)
    (room : Nat) :
    number form room (.int n) = some (if n < 0 then .negative n else .nonneg n.toNat) := by
  show (Json.Numeral.ofLexeme? (toString n)).bind _ = _
  rw [Json.Numeral.ofLexeme?, Json.scanNumeral?_int]
  exact Json.read?_int hlow hhigh

theorem int_int {low high : Int} (hlow : low ≤ n) (hhigh : n ≤ high)
    (hmin : Int64.minValue.toInt ≤ low) (hmax : high < Json.wordLimit) (form : TagFields)
    (room : Nat) :
    int low high form room (.int n) = some n := by
  rw [int, number_int (by omega) (by omega)]
  by_cases hneg : n < 0
  · simp [hneg, hlow, hhigh]
  · have hn : ((n.toNat : Nat) : Int) = n := by omega
    simp only [hneg, if_false, hn, hlow, hhigh, and_self, if_true]

theorem int_nat {high n : Nat} (h : n ≤ high) (hmax : high < Json.wordLimit) (form : TagFields)
    (room : Nat) : int 0 high form room (.nat n) = some (n : Int) := by
  have hmin : Int64.minValue.toInt ≤ 0 := by decide
  have hnat : Json.nat n = Json.int n := rfl
  rw [hnat]
  exact int_int (by omega) (by omega) hmin (by omega) form room

@[simp] theorem uint32_nat (n : UInt32) (form : TagFields) (room : Nat) :
    uint32 form room (.nat n.toNat) = some n := by
  have hsize : ((UInt32.size : Int) - 1) = (UInt32.size - 1 : Nat) := rfl
  have hle : n.toNat ≤ UInt32.size - 1 := Nat.le_of_lt_succ n.toNat_lt
  rw [uint32, hsize, int_nat hle (by decide)]
  simp

@[simp] theorem uint64_nat (n : UInt64) (form : TagFields) (room : Nat) :
    uint64 form room (.nat n.toNat) = some n := by
  have hsize : ((UInt64.size : Int) - 1) = (UInt64.size - 1 : Nat) := rfl
  have hle : n.toNat ≤ UInt64.size - 1 := Nat.le_of_lt_succ n.toNat_lt
  rw [uint64, hsize, int_nat hle (by decide)]
  simp

@[simp] theorem string_text (s : String) (form : TagFields) (room : Nat) :
    string form room (.text s) = some s := rfl

@[simp] theorem bool_bool (b : Bool) (form : TagFields) (room : Nat) :
    bool form room (.bool b) = some b := rfl

end Decode

/-! ### Depth -/

namespace Json

variable {room : Nat}

mutual

/-- How many containers are open at the deepest place of a value. -/
def depth : Json → Nat
  | .array items => depthItems items + 1
  | .object ms => depthMembers ms + 1
  | _ => 0

def depthItems : List Json → Nat
  | [] => 0
  | v :: vs => max v.depth (depthItems vs)

def depthMembers : List (Option String × Json) → Nat
  | [] => 0
  | (_, v) :: ms => max v.depth (depthMembers ms)

end

theorem depth_le_depthItems {v : Json} : {vs : List Json} → v ∈ vs → v.depth ≤ depthItems vs
  | w :: vs, h => by
    rw [depthItems]
    rcases List.mem_cons.1 h with rfl | h
    · exact Nat.le_max_left ..
    · exact Nat.le_trans (depth_le_depthItems h) (Nat.le_max_right ..)

theorem depth_le_depthMembers {k : Option String} {v : Json} :
    {ms : List (Option String × Json)} → (k, v) ∈ ms → v.depth ≤ depthMembers ms
  | (l, w) :: ms, h => by
    rw [depthMembers]
    rcases List.mem_cons.1 h with h | h
    · cases h
      exact Nat.le_max_left ..
    · exact Nat.le_trans (depth_le_depthMembers h) (Nat.le_max_right ..)

theorem room_of_array {items : List Json} (h : (Json.array items).depth ≤ room) :
    ∃ r, room = r + 1 ∧ ∀ v ∈ items, v.depth ≤ r := by
  rw [depth] at h
  refine ⟨room - 1, by omega, fun v hv => ?_⟩
  have := depth_le_depthItems hv
  omega

theorem depth_lt_members {m : String × Json} (h : m ∈ ms) :
    m.2.depth < (Json.members ms).depth := by
  rw [members, depth]
  exact Nat.lt_succ_of_le (depth_le_depthMembers (k := some m.1) (List.mem_map.2 ⟨m, h, rfl⟩))

theorem room_of_members (h : (Json.members ms).depth ≤ room) :
    ∃ r, room = r + 1 ∧ ∀ m ∈ ms, m.2.depth ≤ r := by
  have hpos : 0 < (Json.members ms).depth := by
    rw [members, depth]
    exact Nat.succ_pos _
  refine ⟨room - 1, by omega, fun m hm => ?_⟩
  have hlt := depth_lt_members hm
  omega

theorem room_of_tagged {v : Json} (h : (Json.tagged tag v).depth ≤ room) :
    ∃ r, room = r + 1 ∧ v.depth ≤ r := by
  rw [tagged, depth, depthMembers, depthMembers] at h
  exact ⟨room - 1, by omega, by omega⟩

end Json

/-! ### Readers that take a value back -/

namespace Decode

variable {α : Type}
variable {d : Decode α} {a : α} {names : List String} {read : Nat → Fields → Option α}

/-- A reader takes a value back from its JSON form wherever there is room for it. -/
def Reads (d : Decode α) (json : Json) (a : α) : Prop :=
  ∀ (form : TagFields) {room : Nat}, json.depth ≤ room → d form room json = some a

theorem Reads.option {json : Json} (h : Reads d json a) (hnull : json ≠ .null) :
    Reads (Decode.option d) json (some a) := by
  intro form room hroom
  rw [Decode.option]
  · simp [h form hroom]
  · exact hnull

theorem reads_list {f : α → Json} {as : List α} (h : ∀ a ∈ as, Reads d (f a) a) :
    Reads (list d) (.array (as.map f)) as := by
  intro form room hroom
  obtain ⟨r, rfl, hitems⟩ := Json.room_of_array hroom
  rw [list, List.mapM_map]
  have hall : ∀ bs : List α, (∀ b ∈ bs, b ∈ as) →
      bs.mapM (fun b => d form r (f b)) = some bs := by
    intro bs
    induction bs with
    | nil => simp
    | cons b bs ih =>
      intro hbs
      have hb := hbs b (by simp)
      simp [h b hb form (hitems _ (List.mem_map.2 ⟨b, hb, rfl⟩)),
        ih fun c hc => hbs c (by simp [hc])]
  exact hall as fun _ ha => ha

@[simp] theorem enumeration_text (ofTag? : String → Option α) (tag : String) (form : TagFields)
    (room : Nat) : enumeration ofTag? form room (.text tag) = ofTag? tag := by
  show (ofTag? tag).bind _ = _
  cases ofTag? tag <;> rfl

theorem known_members : {ms : List (String × Json)} →
    (ms.map Prod.fst).Nodup → (∀ m ∈ ms, m.1 ∈ names) →
    known names (ms.map fun (k, v) => (some k, v)) = some ms
  | [], _, _ => rfl
  | (k, v) :: ms, hnodup, hnames => by
    obtain ⟨hk, hms⟩ := List.nodup_cons.1 hnodup
    have hother : (ms.map fun (k, v) => (some k, v)).any (fun m => m.1 == some k) = false := by
      rw [List.any_eq_false]
      intro m hm
      obtain ⟨n, hn, rfl⟩ := List.mem_map.1 hm
      have hne : n.1 ≠ k := fun hnk => hk (List.mem_map.2 ⟨n, hn, hnk⟩)
      simpa using hne
    have hrest := known_members hms fun m hm => hnames m (List.mem_cons_of_mem _ hm)
    simp only [List.map_cons, known]
    rw [if_pos (hnames (k, v) (by simp)), hother, hrest]
    rfl

theorem reads_record (hnodup : (ms.map Prod.fst).Nodup) (hnames : ∀ m ∈ ms, m.1 ∈ names)
    (h : ∀ form room, (∀ m ∈ ms, m.2.depth ≤ room) → read room ⟨form, false, ms⟩ = some a) :
    Reads (record names read) (.members ms) a := by
  intro form room hroom
  obtain ⟨r, rfl, hms⟩ := Json.room_of_members hroom
  rw [record, Json.members, Fields.of?, known_members hnodup hnames]
  exact h form r hms

theorem reads_tagFields (h : Reads (record names read) (.members ms) a) :
    Reads (tagFields names read) (.members ms) a := by
  intro form room hroom
  have := h form hroom
  cases form <;> exact this

theorem reads_tagged {read : TagFields → Nat → String → Option Json → Option α} {payload : Json}
    (h : ∀ form room, payload.depth ≤ room → read form room tag (some payload) = some a) :
    Reads (tagged read) (.tagged tag payload) a := by
  intro form room hroom
  obtain ⟨r, rfl, hpayload⟩ := Json.room_of_tagged hroom
  exact h form r hpayload

end Decode

end Kernelwright
