import Kernelwright.Proofs.Element.Coverage
import Kernelwright.Proofs.Element.Grammar

/-!
# Written types read back

A valid type is read back from its written form, which is scanned piece by piece: `Scans cs ts rest`
says that the characters `cs`, standing in front of `rest`, are covered by the tokens `ts`. The rest
matters because a token is as long as it can be.
-/

namespace Kernelwright.Grammar

open Text

variable {cs rest : List Char} {ts : List Token}

/-! ### Pieces of a source -/

/-- The token of an item, or `none` for a stray text. -/
def Item.content (i : Item) : Option Token := i.token?.map Prod.fst

/-- The characters `cs` in front of `rest` are scanned as the tokens `ts`. -/
def Scans (cs : List Char) (ts : List Token) (rest : List Char) : Prop :=
  ∀ pos, ∃ items after, scanFrom pos (cs ++ rest) = items ++ scanFrom after rest ∧
    items.map Item.content = ts.map some

theorem Scans.append {ds : List Char} {us : List Token} (h : Scans cs ts (ds ++ rest))
    (h' : Scans ds us rest) : Scans (cs ++ ds) (ts ++ us) rest := by
  intro pos
  obtain ⟨items, mid, hitems, hts⟩ := h pos
  obtain ⟨items', after, hitems', hus⟩ := h' mid
  refine ⟨items ++ items', after, ?_, ?_⟩
  · rw [List.append_assoc, hitems, hitems', List.append_assoc]
  · rw [List.map_append, List.map_append, hts, hus]

theorem scans_nil (rest : List Char) : Scans [] [] rest := by
  intro pos
  exact ⟨[], pos, rfl, rfl⟩

theorem Piece.scans {c : Char} {t : Token} (h : Piece (.token t ⟨0, 0⟩) c cs rest) :
    Scans (c :: cs) [t] rest :=
  fun pos => ⟨[.token t ⟨pos, _⟩], _, h.scanFrom_eq pos (List.prefix_refl rest), rfl⟩

/-! ### Tokens of a written type -/

theorem scans_less (rest : List Char) : Scans ['<'] [.less] rest :=
  Piece.scans ⟨by simp [isSpace], fun _ _ _ => rfl⟩

theorem scans_greater (rest : List Char) : Scans ['>'] [.greater] rest :=
  Piece.scans ⟨by simp [isSpace], fun _ _ _ => rfl⟩

theorem scans_comma (rest : List Char) : Scans [','] [.comma] rest :=
  Piece.scans ⟨by simp [isSpace], fun _ _ _ => rfl⟩

/-- What may follow a written type: it extends neither a name nor a number. -/
def Delimited (rest : List Char) : Prop := Stops isLetter rest ∧ Stops isDigit rest

theorem delimited_nil : Delimited [] := ⟨stops_nil _, stops_nil _⟩

theorem delimited_comma (r : List Char) : Delimited (',' :: r) :=
  ⟨stops_cons (by decide), stops_cons (by decide)⟩

theorem delimited_greater (r : List Char) : Delimited ('>' :: r) :=
  ⟨stops_cons (by decide), stops_cons (by decide)⟩

theorem scans_name (k : ScalarKind) (h : Delimited rest) :
    Scans k.name.toList [.name k.name] rest := by
  have hname : String.ofList k.name.toList = k.name := String.ofList_toList
  have hword : ∀ c ∈ k.name.toList, isLetter c = true := List.all_eq_true.1 (by cases k <;> rfl)
  obtain ⟨c, cs, hcs⟩ : ∃ c cs, k.name.toList = c :: cs := by cases k <;> exact ⟨_, _, rfl⟩
  rw [hcs] at hname hword ⊢
  rw [← hname]
  exact (piece_word ⟨0, 0⟩ hword h.1 fun _ => h.2).scans

theorem scans_tuple {n : Nat} (hn : n < UInt64.size) (h : Stops isDigit rest) :
    Scans (tupleWord ++ (toString n).toList) [.tuple n] rest := by
  have hpiece := piece_tuple (v := ['u', 'p', 'l', 'e']) ⟨0, 0⟩ rfl
    (fun c hc => isDigit_of_mem_toString hc) (toString_nat_ne_nil n) h
  simp only [arityItem, decimalValue_toString, hn, if_true] at hpiece
  exact hpiece.scans

/-! ### Written types -/

/-- The characters of the fields after the first, each of them behind a comma. -/
def tailChars : List ElementType → List Char
  | [] => []
  | t :: ts => ',' :: (t.text.toList ++ tailChars ts)

theorem toList_textOfFields (t : ElementType) (ts : List ElementType) :
    (ElementType.textOfFields (t :: ts)).toList = t.text.toList ++ tailChars ts := by
  induction ts generalizing t with
  | nil => rw [ElementType.textOfFields, tailChars, List.append_nil]
  | cons u us ih =>
    rw [ElementType.textOfFields, String.toList_append, String.toList_append, ih u, tailChars]
    · simp
    · intro h
      cases h

theorem toList_text_record (t : ElementType) (ts : List ElementType) :
    (ElementType.record (t :: ts)).text.toList
      = (tupleWord ++ (toString (ts.length + 1)).toList) ++
          (['<'] ++ (t.text.toList ++ (tailChars ts ++ ['>']))) := by
  simp only [ElementType.text, String.toList_append, toList_textOfFields, List.length_cons,
    List.append_assoc]
  rfl

theorem delimited_tailChars (ts : List ElementType) (rest : List Char) :
    Delimited (tailChars ts ++ '>' :: rest) := by
  cases ts with
  | nil => exact delimited_greater rest
  | cons t ts => exact delimited_comma _

mutual

theorem scans_text : (t : ElementType) → t.badArity? = none →
    ∃ ts, Derives ts t ∧ ∀ rest, Delimited rest → Scans t.text.toList ts rest
  | .scalar k, _ => ⟨[.name k.name], .scalar k, fun _ h => scans_name k h⟩
  | .record [], h => by cases h
  | .record (t :: fs), h => by
    rw [ElementType.badArity?] at h
    split at h
    · next harity =>
      obtain ⟨h₁, h₂⟩ := arityOk_iff.mp harity
      rw [ElementType.badArityIn?] at h
      cases ht : t.badArity? with
      | some n => simp [ht] at h
      | none =>
        rw [ht] at h
        obtain ⟨ts, hts, hscan⟩ := scans_text t ht
        obtain ⟨us, hus, hscan'⟩ := scans_tailChars fs h
        refine ⟨_, .tuple hts hus rfl h₁ h₂, fun rest hrest => ?_⟩
        have hn : fs.length + 1 < UInt64.size := Nat.lt_of_le_of_lt h₂ (by decide)
        -- the pieces from the back: closing bracket, fields, opening bracket, declared arity
        have htail : Scans (tailChars fs ++ ['>']) (us ++ [.greater]) rest :=
          (hscan' rest).append (scans_greater rest)
        have hfields : Scans (t.text.toList ++ (tailChars fs ++ ['>'])) (ts ++ (us ++ [.greater]))
            rest := by
          refine (hscan _ ?_).append htail
          rw [List.append_assoc]
          exact delimited_tailChars fs rest
        have hbody := (scans_less _).append hfields
        have hwhole := (scans_tuple hn (stops_cons (by decide))).append hbody
        rw [toList_text_record]
        simpa using hwhole
    · cases h

theorem scans_tailChars : (fs : List ElementType) → ElementType.badArityIn? fs = none →
    ∃ us, DerivesTail us fs ∧ ∀ rest, Scans (tailChars fs) us ('>' :: rest)
  | [], _ => ⟨[], .nil, fun rest => scans_nil _⟩
  | t :: fs, h => by
    rw [ElementType.badArityIn?] at h
    cases ht : t.badArity? with
    | some n => simp [ht] at h
    | none =>
      rw [ht] at h
      obtain ⟨ts, hts, hscan⟩ := scans_text t ht
      obtain ⟨us, hus, hscan'⟩ := scans_tailChars fs h
      refine ⟨_, .cons hts hus, fun rest => ?_⟩
      have hfirst := hscan _ (delimited_tailChars fs rest)
      exact (scans_comma _).append (hfirst.append (hscan' rest))

end

/-! ### The round trip -/

theorem filterMap_of_content {items : List Item} (h : items.map Item.content = ts.map some) :
    items.filterMap Item.stray? = [] ∧
      (items.filterMap fun i => i.token?.map Prod.fst) = ts := by
  constructor
  · rw [List.filterMap_eq_nil_iff]
    intro i hi
    have hcontent : i.content ∈ ts.map some := by
      rw [← h]
      exact List.mem_map_of_mem hi
    cases i with
    | token t span => rfl
    | stray text span => simp [Item.content, Item.token?] at hcontent
  · have := congrArg (List.filterMap id) h
    rw [List.filterMap_map, List.filterMap_map] at this
    rwa [show (id ∘ some : Token → Option Token) = some from rfl, List.filterMap_some] at this

/-- Printing and reading are inverse: a valid type of any depth is read back from its written
form. -/
theorem parse_text_of_valid (t : ElementType) (h : t.validate = .ok ()) :
    ElementType.parse t.text = .ok t := by
  have hvalid : t.badArity? = none := by
    unfold ElementType.validate at h
    split at h
    · cases h
    · assumption
  obtain ⟨ts, hderives, hscan⟩ := scans_text t hvalid
  obtain ⟨items, after, hitems, hcontent⟩ := hscan [] delimited_nil 0
  rw [List.append_nil, scanFrom, List.append_nil] at hitems
  obtain ⟨hstrays, htokens⟩ := filterMap_of_content hcontent
  rw [elementType_parse_eq_ok_iff, parse_eq_ok_iff, parseTokens_eq_ok_iff]
  simp only [strays, tokens, scan, hitems, hstrays, htokens]
  exact ⟨trivial, hderives⟩

/-- A record in a record, with the least and the greatest arity. -/
theorem parse_text_nested :
    let t :=
  ElementType.record [.record (List.replicate 11 (.scalar .byte)), .record [.scalar .long]]
    t.validate = .ok () ∧ ElementType.parse t.text = .ok t :=
  ⟨rfl, parse_text_of_valid _ rfl⟩

end Kernelwright.Grammar
