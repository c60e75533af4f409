import Kernelwright.Json.Numeral
import Kernelwright.Json.Value
import Kernelwright.Text.Hex

/-!
# Reading JSON

A reader over lists of characters. Values nest, so the reader is one mutual recursion; every result
carries the proof that what is left is shorter, which is the measure of the recursion.
-/

namespace Kernelwright.Json

/-- What is left of an input after a non-empty part of it was read. -/
abbrev Rest (input : List Char) := { r : List Char // r.length < input.length }

/-- The blanks between tokens. -/
def isSpace (c : Char) : Bool := c = ' ' || c = '\n' || c = '\t' || c = '\r'

/-- The input without the blanks at its front. -/
def skip (cs : List Char) : List Char := cs.dropWhile isSpace

theorem length_skip_le (cs : List Char) : (skip cs).length ≤ cs.length :=
  (List.dropWhile_sublist _).length_le

/-! ### Strings -/

/-- The code unit of four hexadecimal digits. -/
def unit? (a b c d : Char) : Option Nat := do
  let ab := 16 * (← Text.Hex.value? a) + (← Text.Hex.value? b)
  let cd := 16 * (← Text.Hex.value? c) + (← Text.Hex.value? d)
  return 256 * ab + cd

/-- Whether a code unit is the first half of a surrogate pair. -/
def isLead (n : Nat) : Bool := 0xd800 ≤ n && n < 0xdc00

/-- Whether a code unit is the second half of a surrogate pair. -/
def isTrail (n : Nat) : Bool := 0xdc00 ≤ n && n < 0xe000

def pairChar (lead trail : Nat) : Char :=
  Char.ofNat (0x10000 + (lead - 0xd800) * 0x400 + (trail - 0xdc00))

def escape? : Char → Option Char
  | '"' => some '"'
  | '\\' => some '\\'
  | '/' => some '/'
  | 'b' => some (Char.ofNat 0x08)
  | 'f' => some (Char.ofNat 0x0c)
  | 'n' => some '\n'
  | 'r' => some '\r'
  | 't' => some '\t'
  | _ => none

/-- Pass a shorter rest on to a longer input. -/
def lengthen {α : Type} {short long : List Char} (h : short.length ≤ long.length) :
    Option (α × Rest short) → Option (α × Rest long)
  | some (a, r) => some (a, ⟨r.val, Nat.lt_of_lt_of_le r.property h⟩)
  | none => none

/-- The text of a string after its opening quote. `acc` holds the characters read so far, reversed;
`sound` is lost for good when half of a surrogate pair stands alone. -/
def readString (acc : List Char) (sound : Bool) :
    (input : List Char) → Option (Option String × Rest input)
  | '"' :: rest => some (if sound then some (String.ofList acc.reverse) else none, ⟨rest, by simp⟩)
  | '\\' :: 'u' :: a :: b :: c :: d :: rest =>
    match unit? a b c d with
    | none => none
    | some n =>
      if isLead n then
        match rest with
        | '\\' :: 'u' :: a :: b :: c :: d :: rest =>
          match unit? a b c d with
          | none => none
          | some m =>
            if isTrail m then
              lengthen (by simp; omega) (readString (pairChar n m :: acc) sound rest)
            else lengthen (by simp; omega) (readString acc false rest)
        | rest => lengthen (by simp; omega) (readString acc false rest)
      else if isTrail n then lengthen (by simp; omega) (readString acc false rest)
      else lengthen (by simp; omega) (readString (Char.ofNat n :: acc) sound rest)
  | '\\' :: e :: rest =>
    match escape? e with
    | none => none
    | some c => lengthen (by simp; omega) (readString (c :: acc) sound rest)
  | c :: rest =>
    if c.toNat < 0x20 then none else lengthen (by simp) (readString (c :: acc) sound rest)
  | [] => none

/-! ### Numbers -/

theorem length_scanWhole?_lt {cs ds r : List Char} (h : scanWhole? cs = some (ds, r)) :
    r.length < cs.length := by
  have split := congrArg List.length (List.takeWhile_append_dropWhile (p := isDigit) (l := cs))
  rw [List.length_append] at split
  unfold scanWhole? at h
  split at h
  · simp at h
  · simp at h
  · next ne _ =>
    simp only [Option.some.injEq, Prod.mk.injEq] at h
    have : 0 < (cs.takeWhile isDigit).length := List.length_pos_iff.2 ne
    rw [← h.2]
    omega

theorem length_scanFraction?_le {cs ds r : List Char} (h : scanFraction? cs = some (ds, r)) :
    r.length ≤ cs.length := by
  unfold scanFraction? at h
  split at h
  · split at h
    · simp at h
    · simp only [Option.some.injEq, Prod.mk.injEq] at h
      rw [← h.2, List.length_cons]
      exact Nat.le_succ_of_le (List.dropWhile_sublist _).length_le
  · simp_all

theorem length_scanSign_le (cs : List Char) : (scanSign cs).2.length ≤ cs.length := by
  unfold scanSign
  split <;> simp

theorem length_scanExponentDigits?_le {cs r : List Char} {e}
    (h : scanExponentDigits? cs = some (e, r)) :
    r.length ≤ cs.length := by
  unfold scanExponentDigits? at h
  dsimp only at h
  split at h
  · simp at h
  · simp only [Option.some.injEq, Prod.mk.injEq] at h
    rw [← h.2]
    exact Nat.le_trans (List.dropWhile_sublist _).length_le (length_scanSign_le cs)

theorem length_scanExponent?_le {cs r : List Char} {e} (h : scanExponent? cs = some (e, r)) :
    r.length ≤ cs.length := by
  unfold scanExponent? at h
  split at h
  · exact Nat.le_succ_of_le (length_scanExponentDigits?_le h)
  · exact Nat.le_succ_of_le (length_scanExponentDigits?_le h)
  · simp_all

theorem length_scanUnsigned?_lt {negative : Bool} {cs r : List Char} {n : Numeral}
    (h : scanUnsigned? negative cs = some (n, r)) : r.length < cs.length := by
  unfold scanUnsigned? at h
  simp only [Option.bind_eq_bind, Option.bind_eq_some_iff, Prod.exists] at h
  obtain ⟨_, r₁, h₁, _, r₂, h₂, _, r₃, h₃, h₄⟩ := h
  have := length_scanWhole?_lt h₁
  have := length_scanFraction?_le h₂
  have := length_scanExponent?_le h₃
  simp only [pure, Option.some.injEq, Prod.mk.injEq] at h₄
  rw [← h₄.2]
  omega

theorem length_scanNumeral?_lt {cs r : List Char} {n : Numeral}
    (h : scanNumeral? cs = some (n, r)) : r.length < cs.length := by
  unfold scanNumeral? at h
  split at h
  · exact Nat.lt_succ_of_lt (length_scanUnsigned?_lt h)
  · exact length_scanUnsigned?_lt h

/-- A number, kept as the characters that spell it. -/
def readNumber (input : List Char) : Option (Json × Rest input) :=
  match h : scanNumeral? input with
  | some (_, rest) =>
    some (.number (String.ofList (input.take (input.length - rest.length))),
      ⟨rest, length_scanNumeral?_lt h⟩)
  | none => none

/-! ### Values -/

/-- A word such as `null` at the front of the input. -/
def readWord (word : List Char) (nonempty : 0 < word.length) (value : Json) (input : List Char) :
    Option (Json × Rest input) :=
  if h : word.isPrefixOf input then
    some (value, ⟨input.drop word.length, by
      have := (List.isPrefixOf_iff_prefix.1 h).length_le
      rw [List.length_drop]
      omega⟩)
  else none

/-- A value that is no container. -/
def readScalar : (input : List Char) → Option (Json × Rest input)
  | 'n' :: cs => readWord ['n', 'u', 'l', 'l'] (by decide) .null ('n' :: cs)
  | 't' :: cs => readWord ['t', 'r', 'u', 'e'] (by decide) (.bool true) ('t' :: cs)
  | 'f' :: cs => readWord ['f', 'a', 'l', 's', 'e'] (by decide) (.bool false) ('f' :: cs)
  | '"' :: cs =>
    match readString [] true cs with
    | some (s, r) => some (.string s, ⟨r.val, Nat.lt_succ_of_lt r.property⟩)
    | none => none
  | cs => readNumber cs

/-- The name of a member and the colon after it. -/
def readKey (input : List Char) : Option (Option String × Rest input) :=
  match h : skip input with
  | '"' :: cs =>
    match readString [] true cs with
    | some (name, r) =>
      match h' : skip r.val with
      | ':' :: rest => some (name, ⟨rest, by
          have := length_skip_le input
          have := length_skip_le r.val
          have := r.property
          simp only [h, h', List.length_cons] at *
          omega⟩)
      | _ => none
    | none => none
  | _ => none

mutual

/-- A value, after any blanks. -/
def readValue (input : List Char) : Option (Json × Rest input) :=
  match h : skip input with
  | '[' :: cs =>
    have inner : cs.length < input.length := by
      have := length_skip_le input
      simp only [h, List.length_cons] at this
      omega
    match h' : skip cs with
    | ']' :: rest => some (.array [], ⟨rest, by
        have := length_skip_le cs
        simp only [h', List.length_cons] at this
        omega⟩)
    | _ =>
      match readItems cs with
      | some (items, r) => some (.array items, ⟨r.val, Nat.lt_trans r.property inner⟩)
      | none => none
  | '\x7b' :: cs =>
    have inner : cs.length < input.length := by
      have := length_skip_le input
      simp only [h, List.length_cons] at this
      omega
    match h' : skip cs with
    | '\x7d' :: rest => some (.object [], ⟨rest, by
        have := length_skip_le cs
        simp only [h', List.length_cons] at this
        omega⟩)
    | _ =>
      match readMembers cs with
      | some (ms, r) => some (.object ms, ⟨r.val, Nat.lt_trans r.property inner⟩)
      | none => none
  | cs => lengthen (by rw [← h]; exact length_skip_le input) (readScalar cs)
termination_by (input.length, 0)

/-- The items of an array up to its closing bracket; at least one. -/
def readItems (input : List Char) : Option (List Json × Rest input) :=
  match readValue input with
  | none => none
  | some (v, r) =>
    match h : skip r.val with
    | ',' :: cs =>
      have shorter : cs.length < input.length := by
        have := length_skip_le r.val
        have := r.property
        simp only [h, List.length_cons] at *
        omega
      match readItems cs with
      | some (vs, r') => some (v :: vs, ⟨r'.val, Nat.lt_trans r'.property shorter⟩)
      | none => none
    | ']' :: rest => some ([v], ⟨rest, by
        have := length_skip_le r.val
        have := r.property
        simp only [h, List.length_cons] at *
        omega⟩)
    | _ => none
termination_by (input.length, 1)

/-- The members of an object up to its closing brace; at least one. -/
def readMembers (input : List Char) : Option (List (Option String × Json) × Rest input) :=
  match readKey input with
  | none => none
  | some (k, key) =>
    have := key.property
    match readValue key.val with
    | none => none
    | some (v, r) =>
      match h : skip r.val with
      | ',' :: cs =>
        have shorter : cs.length < input.length := by
          have := length_skip_le r.val
          have := r.property
          simp only [h, List.length_cons] at *
          omega
        match readMembers cs with
        | some (ms, r') => some ((k, v) :: ms, ⟨r'.val, Nat.lt_trans r'.property shorter⟩)
        | none => none
      | '\x7d' :: rest => some ([(k, v)], ⟨rest, by
          have := length_skip_le r.val
          have := r.property
          simp only [h, List.length_cons] at *
          omega⟩)
      | _ => none
termination_by (input.length, 1)

end

/-- The value that a text spells: one value with blanks around it and nothing else. -/
def parse? (s : String) : Option Json :=
  match readValue s.toList with
  | some (v, r) => if (skip r.val).isEmpty then some v else none
  | none => none

end Kernelwright.Json
