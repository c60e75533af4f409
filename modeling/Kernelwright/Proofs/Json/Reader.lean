import Kernelwright.Json.Reader
import Kernelwright.Json.Writer
import Kernelwright.Proofs.Text.Runs

/-!
# How the JSON reader goes through a text

One lemma for each step of the reader, stated without the proofs that its results carry: `string?`,
`value?`, `items?` and `members?` are its mutual parts as plain functions from an input to a result
and a rest.
-/

namespace Kernelwright.Json

open Text

variable {α : Type} {blanks key r : List Char} {c : Char} {k : Option String}

/-! ### Readers without their proofs -/

/-- What a reader gives, without the proof that the rest is shorter. -/
def result {α : Type} {input : List Char} (o : Option (α × Rest input)) : Option (α × List Char) :=
  o.map fun p => (p.1, p.2.val)

theorem result_lengthen {short long : List Char} (h : short.length ≤ long.length)
    (o : Option (α × Rest short)) : result (lengthen h o) = result o := by
  cases o <;> rfl

theorem eq_of_result {input rest : List Char} {o : Option (α × Rest input)} {a : α}
    (h : result o = some (a, rest)) : ∃ r : Rest input, o = some (a, r) ∧ r.val = rest := by
  cases o with
  | none => cases h
  | some p =>
    simp only [result, Option.map_some, Option.some.injEq, Prod.ext_iff] at h
    exact ⟨p.2, by rw [← h.1], h.2⟩

/-- The text of a string after its opening quote, and what follows it. -/
def string? (acc : List Char) (sound : Bool) (input : List Char) :
    Option (Option String × List Char) :=
  result (readString acc sound input)

/-- The value at the front of an input, and what follows it. -/
def value? (input : List Char) : Option (Json × List Char) := result (readValue input)

/-- The items at the front of an input up to their closing bracket, and what follows it. -/
def items? (input : List Char) : Option (List Json × List Char) := result (readItems input)

/-- The members at the front of an input up to their closing brace, and what follows it. -/
def members? (input : List Char) : Option (List (Option String × Json) × List Char) :=
  result (readMembers input)

/-! ### Blanks -/

theorem skip_blanks (h : ∀ c ∈ blanks, isSpace c = true) (cs : List Char) :
    skip (blanks ++ cs) = skip cs := List.dropWhile_append_of_pos h

@[simp] theorem skip_cons (h : isSpace c = false) (cs : List Char) : skip (c :: cs) = c :: cs := by
  simp [skip, h]

/-! ### Strings -/

section Strings

variable (acc rest : List Char) (sound : Bool)

theorem string?_quote : string? acc sound ('"' :: rest)
    = some (if sound then some (String.ofList acc.reverse) else none, rest) := by
  rw [string?, readString]
  rfl

theorem string?_escape {e : Char} (he : escape? e = some c) (hu : e ≠ 'u') :
    string? acc sound ('\\' :: e :: rest) = string? (c :: acc) sound rest := by
  rw [string?, readString.eq_def]
  split <;> simp_all [result_lengthen, string?]

theorem string?_unit {a b d : Char} {n : Nat} (hn : unit? a b c d = some n)
    (hlead : isLead n = false) (htrail : isTrail n = false) :
    string? acc sound ('\\' :: 'u' :: a :: b :: c :: d :: rest)
      = string? (Char.ofNat n :: acc) sound rest := by
  rw [string?, readString.eq_def]
  simp [hn, hlead, htrail, result_lengthen, string?]

theorem string?_plain (hquote : c ≠ '"') (hslash : c ≠ '\\') (hc : ¬ c.toNat < 0x20) :
    string? acc sound (c :: rest) = string? (c :: acc) sound rest := by
  rw [string?, readString, if_neg hc, result_lengthen, string?] <;> simp_all

theorem escapeChar_cases (c : Char) :
    (∃ e, escapeChar c = ['\\', e] ∧ escape? e = some c ∧ e ≠ 'u') ∨
      (c.toNat < 0x20 ∧ escapeChar c
        = ['\\', 'u', '0', '0', Hex.digit (c.toNat / 16), Hex.digit (c.toNat % 16)]) ∨
      (escapeChar c = [c] ∧ c ≠ '"' ∧ c ≠ '\\' ∧ ¬ c.toNat < 0x20) := by
  have hcode : ∀ n : Nat, c.toNat = n → c = Char.ofNat n := fun n h => by rw [← h, Char.ofNat_toNat]
  unfold escapeChar
  split
  · next h => exact .inl ⟨'"', rfl, by rw [h]; rfl, by decide⟩
  split
  · next h => exact .inl ⟨'\\', rfl, by rw [h]; rfl, by decide⟩
  split
  · next h => exact .inl ⟨'n', rfl, by rw [h]; rfl, by decide⟩
  split
  · next h => exact .inl ⟨'r', rfl, by rw [h]; rfl, by decide⟩
  split
  · next h => exact .inl ⟨'t', rfl, by rw [h]; rfl, by decide⟩
  split
  · next h => exact .inl ⟨'b', rfl, by rw [hcode _ h]; rfl, by decide⟩
  split
  · next h => exact .inl ⟨'f', rfl, by rw [hcode _ h]; rfl, by decide⟩
  split
  · next h => exact .inr (.inl ⟨h, rfl⟩)
  · next hquote hslash _ _ _ _ _ h => exact .inr (.inr ⟨rfl, hquote, hslash, h⟩)

theorem string?_escapeChar (c : Char) :
    string? acc sound (escapeChar c ++ rest) = string? (c :: acc) sound rest := by
  obtain ⟨e, he, hc, hu⟩ | ⟨h, he⟩ | ⟨he, hquote, hslash, hc⟩ := escapeChar_cases c
  · rw [he]
    exact string?_escape acc rest sound hc hu
  · have hzero : Hex.value? '0' = some 0 := rfl
    have hunit : unit? '0' '0' (Hex.digit (c.toNat / 16)) (Hex.digit (c.toNat % 16))
        = some c.toNat := by
      simp only [unit?, hzero, Hex.value?_digit (n := c.toNat / 16) (by omega),
        Hex.value?_digit (n := c.toNat % 16) (by omega)]
      simp [Nat.div_add_mod]
    have hread :=
      string?_unit acc rest sound hunit (by simp [isLead]; omega) (by simp [isTrail]; omega)
    rw [Char.ofNat_toNat] at hread
    rw [he]
    exact hread
  · rw [he]
    exact string?_plain acc rest sound hquote hslash hc

theorem string?_escaped (cs : List Char) :
    string? acc true (cs.flatMap escapeChar ++ '"' :: rest)
      = some (some (String.ofList (acc.reverse ++ cs)), rest) := by
  induction cs generalizing acc with
  | nil => simp [string?_quote]
  | cons c cs ih =>
    rw [List.flatMap_cons, List.append_assoc, string?_escapeChar, ih]
    simp

end Strings

/-! ### Values -/

section Values

variable {input cs : List Char}

theorem value?_array (h : skip input = '[' :: cs) :
    value? input = match skip cs with
      | ']' :: rest => some (.array [], rest)
      | _ => (items? cs).map fun p => (.array p.1, p.2) := by
  rw [value?, readValue]
  split
  · next hds =>
    cases hds.symm.trans h
    dsimp only
    split
    · next hr => simp only [hr]; rfl
    · rw [items?]
      cases readItems cs <;> simp_all [result]
  · next hds => cases hds.symm.trans h
  · next hne _ => exact absurd h (hne _)

theorem value?_object (h : skip input = '\x7b' :: cs) :
    value? input = match skip cs with
      | '\x7d' :: rest => some (.object [], rest)
      | _ => (members? cs).map fun p => (.object p.1, p.2) := by
  rw [value?, readValue]
  split
  · next hds => cases hds.symm.trans h
  · next hds =>
    cases hds.symm.trans h
    dsimp only
    split
    · next hr => simp only [hr]; rfl
    · rw [members?]
      cases readMembers cs <;> simp_all [result]
  · next hne => exact absurd h (hne _)

theorem value?_scalar (harray : ∀ ds, skip input ≠ '[' :: ds)
    (hobject : ∀ ds, skip input ≠ '\x7b' :: ds) :
    value? input = result (readScalar (skip input)) := by
  rw [value?, readValue]
  split
  · next ds hds => exact absurd hds (harray ds)
  · next ds hds => exact absurd hds (hobject ds)
  · rw [result_lengthen]

theorem items?_eq (input : List Char) : items? input = (value? input).bind fun (v, r) =>
    match skip r with
    | ',' :: cs => (items? cs).map fun p => (v :: p.1, p.2)
    | ']' :: rest => some ([v], rest)
    | _ => none := by
  rw [items?, readItems, value?]
  cases readValue input with
  | none => rfl
  | some p =>
    dsimp only
    split
    · next hr =>
      simp only [result, Option.map_some, Option.bind_some, hr, items?]
      cases readItems _ <;> rfl
    · next hr => simp only [result, Option.map_some, Option.bind_some, hr]
    · simp [result]

theorem readKey_quoted {name : String} (hblanks : ∀ c ∈ blanks, isSpace c = true)
    (rest : List Char) :
    result (readKey (blanks ++ ((quote name).toList ++ ':' :: rest))) = some (some name, rest) := by
  have hskip : skip (blanks ++ ((quote name).toList ++ ':' :: rest))
      = '"' :: (name.toList.flatMap escapeChar ++ '"' :: ':' :: rest) := by
    rw [skip_blanks hblanks]
    simp [quote, skip, isSpace]
  have hstring := string?_escaped [] (':' :: rest) name.toList
  rw [List.reverse_nil, List.nil_append, String.ofList_toList] at hstring
  obtain ⟨r, hr, hrest⟩ := eq_of_result hstring
  rw [readKey]
  split
  · next ds hds =>
    obtain rfl : ds = name.toList.flatMap
      escapeChar ++ '"' :: ':' :: rest := by simpa [hds] using hskip
    rw [hr]
    dsimp only
    have hcolon : skip r.val = ':' :: rest := by rw [hrest]; rfl
    split
    · next ds hds =>
      obtain rfl : ds = rest := by simpa [hds] using hcolon
      rfl
    · next hne => exact absurd hcolon (hne _)
  · next hne => exact absurd hskip (hne _)

theorem members?_eq (input : List Char) :
    members? input = (result (readKey input)).bind fun (k, key) => (value? key).bind fun (v, r) =>
      match skip r with
      | ',' :: cs => (members? cs).map fun p => ((k, v) :: p.1, p.2)
      | '\x7d' :: rest => some ([(k, v)], rest)
      | _ => none := by
  rw [members?, readMembers]
  cases readKey input with
  | none => rfl
  | some q =>
    simp only [result, Option.map_some, Option.bind_some, value?]
    cases readValue q.2.val with
    | none => rfl
    | some p =>
      dsimp only
      split
      · next hr =>
        simp only [Option.map_some, Option.bind_some, hr, members?, result]
        cases readMembers _ <;> rfl
      · next hr => simp only [Option.map_some, Option.bind_some, hr]
      · simp

end Values

/-! ### Numbers -/

/-- No numeral goes on with what follows. -/
def Ends (rest : List Char) : Prop :=
  Stops (fun c => isDigit c || c == '.' || c == 'e' || c == 'E') rest

section Numbers

variable {cs ds r rest : List Char} {n : Numeral} {negative : Bool}
  {e : Option (ExponentSign × List Char)}

theorem Ends.stops_isDigit (h : Ends rest) : Stops isDigit rest := by
  intro c r hc
  have := h c r hc
  simp_all

theorem scanWhole?_append (h : scanWhole? cs = some (ds, r)) (hrest : Ends rest) :
    scanWhole? (cs ++ rest) = some (ds, r ++ rest) := by
  unfold scanWhole? at h ⊢
  rw [takeWhile_append_stop hrest.stops_isDigit, dropWhile_append_stop hrest.stops_isDigit]
  split at h
  · cases h
  · cases h
  · simp_all

theorem Ends.append_ne (hrest : Ends rest) (hc : c ∈ ['.', 'e', 'E']) (hne : ∀ ds, cs ≠ c :: ds)
    (ds : List Char) : cs ++ rest ≠ c :: ds := by
  cases cs with
  | nil =>
    intro heq
    have := hrest c ds heq
    simp_all
  | cons => simp_all

theorem scanFraction?_append (h : scanFraction? cs = some (ds, r)) (hrest : Ends rest) :
    scanFraction? (cs ++ rest) = some (ds, r ++ rest) := by
  unfold scanFraction? at h
  split at h
  · rw [List.cons_append, scanFraction?, takeWhile_append_stop hrest.stops_isDigit,
      dropWhile_append_stop hrest.stops_isDigit]
    split at h
    · cases h
    · simp_all
  · next hne =>
    cases h
    exact scanFraction?.eq_2 _ (hrest.append_ne (by simp) hne)

theorem scanSign_append (h : cs ≠ []) :
    scanSign (cs ++ rest) = ((scanSign cs).1, (scanSign cs).2 ++ rest) := by
  cases cs with
  | nil => exact absurd rfl h
  | cons c cs =>
    unfold scanSign
    split <;> simp_all

theorem scanExponentDigits?_append (h : scanExponentDigits? cs = some (e, r)) (hrest : Ends rest) :
    scanExponentDigits? (cs ++ rest) = some (e, r ++ rest) := by
  have hne : cs ≠ [] := by
    rintro rfl
    cases h
  unfold scanExponentDigits? at h ⊢
  rw [scanSign_append hne]
  dsimp only at h ⊢
  rw [takeWhile_append_stop hrest.stops_isDigit, dropWhile_append_stop hrest.stops_isDigit]
  split at h
  · cases h
  · simp_all

theorem scanExponent?_append (h : scanExponent? cs = some (e, r)) (hrest : Ends rest) :
    scanExponent? (cs ++ rest) = some (e, r ++ rest) := by
  unfold scanExponent? at h
  split at h
  · exact scanExponentDigits?_append h hrest
  · exact scanExponentDigits?_append h hrest
  · next hlower hupper =>
    cases h
    exact scanExponent?.eq_3 _ (hrest.append_ne (by simp) hlower) (hrest.append_ne (by simp) hupper)

theorem scanNumeral?_append (h : scanNumeral? cs = some (n, r)) (hrest : Ends rest) :
    scanNumeral? (cs ++ rest) = some (n, r ++ rest) := by
  have hunsigned : ∀ {negative cs}, scanUnsigned? negative cs = some (n, r) →
      scanUnsigned? negative (cs ++ rest) = some (n, r ++ rest) := by
    intro negative cs h
    unfold scanUnsigned? at h ⊢
    simp only [Option.bind_eq_bind, Option.bind_eq_some_iff, Prod.exists] at h
    obtain ⟨_, r₁, h₁, _, r₂, h₂, _, r₃, h₃, h₄⟩ := h
    simp only [pure, Option.some.injEq, Prod.mk.injEq] at h₄
    simp [scanWhole?_append h₁ hrest, scanFraction?_append h₂ hrest, scanExponent?_append h₃ hrest,
      h₄]
  cases cs with
  | nil => cases h
  | cons c cs =>
    by_cases hc : c = '-'
    · subst hc
      exact hunsigned h
    · rw [scanNumeral?] at h
      · rw [List.cons_append, scanNumeral?]
        · exact hunsigned h
        · simpa using hc
      · simpa using hc

theorem scanNumeral?_head (h : scanNumeral? cs = some (n, r)) :
    ∃ c ds, cs = c :: ds ∧ (c = '-' ∨ isDigit c = true) := by
  cases cs with
  | nil => cases h
  | cons c cs =>
    refine ⟨c, cs, rfl, ?_⟩
    by_cases hminus : c = '-'
    · exact .inl hminus
    · cases hdigit : isDigit c with
      | true => exact .inr rfl
      | false =>
        rw [scanNumeral?] at h
        · simp [scanUnsigned?, scanWhole?, hdigit] at h
        · simpa using hminus

theorem readNumber_lexeme {lexeme : String} (h : scanNumeral? lexeme.toList = some (n, []))
    (hrest : Ends rest) :
    result (readNumber (lexeme.toList ++ rest)) = some (.number lexeme, rest) := by
  have happend := scanNumeral?_append h hrest
  unfold readNumber
  split
  · next m r hr =>
    obtain ⟨rfl, rfl⟩ : n = m ∧ rest = r := by simpa [hr, eq_comm] using happend
    simp [result]
  · next hnone => simp [hnone] at happend

end Numbers

end Kernelwright.Json
