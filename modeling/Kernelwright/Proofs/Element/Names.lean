import Kernelwright.Element.Type
import Kernelwright.Proofs.Text.Runs

/-!
# Names of structs

The name of a struct is prefix notation: a nested record is its arity and then its fields, and a
record of one field is nothing but its field. So the words of a name, read from the right with a
stack of types, build the fields again. Two structs share a name exactly if they differ in records
of one field only.
-/

namespace Kernelwright.ElementType

mutual

/-- The type with every record of one field replaced by its field. -/
def collapse : ElementType → ElementType
  | scalar k => scalar k
  | record [t] => collapse t
  | record ts => record (collapseAll ts)

def collapseAll : List ElementType → List ElementType
  | [] => []
  | t :: ts => collapse t :: collapseAll ts

end

/-- The type with every record of one field below the top replaced by its field. -/
def collapseBelow : ElementType → ElementType
  | scalar k => scalar k
  | record ts => record (collapseAll ts)

theorem length_collapseAll (ts : List ElementType) : (collapseAll ts).length = ts.length := by
  induction ts with
  | nil => rfl
  | cons t ts ih => rw [collapseAll, List.length_cons, ih, List.length_cons]

/-! ### Words -/

/-- A word of a name: a scalar, or the arity of a nested record. -/
inductive Word where
  | scalar (kind : ScalarKind)
  | record (arity : Nat)

def Word.chars : Word → List Char
  | scalar k => k.cName.toList
  | record n => "Tuple".toList ++ (toString n).toList

mutual

/-- The words that a type contributes to the name of a struct it is a field of. -/
def words : ElementType → List Word
  | scalar k => [.scalar k]
  | record [t] => words t
  | record ts => .record ts.length :: wordsAll ts

def wordsAll : List ElementType → List Word
  | [] => []
  | t :: ts => words t ++ wordsAll ts

end

/-- The text of words, each after an underscore. -/
def spell (ws : List Word) : List Char := ws.flatMap fun w => '_' :: w.chars

mutual

theorem toList_nameToken : ∀ t : ElementType, '_' :: t.nameToken.toList = spell t.words
  | scalar k => by simp [nameToken, words, spell, Word.chars]
  | record [t] => by
    rw [nameToken, words]
    exact toList_nameToken t
  | record [] => by simp [nameToken, words, spell, Word.chars, nameTokens, wordsAll]
  | record (t :: u :: ts) => by
    rw [nameToken, words, String.toList_append, String.toList_append,
      toList_nameTokens (t :: u :: ts)]
    · rfl
    all_goals simp

theorem toList_nameTokens : ∀ ts : List ElementType, (nameTokens ts).toList = spell (wordsAll ts)
  | [] => rfl
  | t :: ts => by
    rw [nameTokens, wordsAll, String.toList_append, String.toList_append, toList_nameTokens ts]
    exact (congrArg (· ++ _) (toList_nameToken t)).trans List.flatMap_append.symm

end

/-! ### Reading words -/

theorem Word.chars_injective : Function.Injective Word.chars := by
  have hscalar (k : ScalarKind) (n : Nat) : (Word.scalar k).chars ≠ (Word.record n).chars := by
    intro h
    have hhead := congrArg List.head? h
    cases k <;> exact absurd hhead (by simp [chars, ScalarKind.cName])
  intro v w h
  cases v with
  | scalar j =>
    cases w with
    | scalar k => exact congrArg Word.scalar (by revert h; cases j <;> cases k <;> decide)
    | record n => exact absurd h (hscalar j n)
  | record m =>
    cases w with
    | scalar k => exact absurd h.symm (hscalar k m)
    | record n =>
      have hdigits := congrArg Grammar.decimalValue (List.append_cancel_left h)
      rw [Text.decimalValue_toString, Text.decimalValue_toString] at hdigits
      rw [hdigits]

theorem Word.chars_plain (w : Word) : ∀ c ∈ w.chars, (c != '_') = true := by
  intro c hc
  cases w with
  | scalar k =>
    revert c
    cases k <;> exact List.all_eq_true.1 (by decide)
  | record n =>
    rcases List.mem_append.1 hc with hword | hdigit
    · exact List.all_eq_true.1 (by decide : "Tuple".toList.all (· != '_') = true) c hword
    · have hc := Text.isDigit_of_mem_toString hdigit
      rw [bne_iff_ne]
      rintro rfl
      exact absurd hc (by decide)

/-- Words can be read off their text: each ends at the next underscore. -/
theorem spell_injective {vs ws : List Word} (h : spell vs = spell ws) : vs = ws := by
  have hstops (ws : List Word) : Text.Stops (· != '_') (spell ws) := by
    cases ws with
    | nil => exact Text.stops_nil _
    | cons w ws => exact Text.stops_cons rfl
  induction vs generalizing ws with
  | nil =>
    cases ws with
    | nil => rfl
    | cons w ws => cases h
  | cons v vs ih =>
    cases ws with
    | nil => cases h
    | cons w ws =>
      have htail : v.chars ++ spell vs = w.chars ++ spell ws := (List.cons.inj h).2
      have hword := congrArg (List.takeWhile (· != '_')) htail
      have hrest := congrArg (List.dropWhile (· != '_')) htail
      rw [Text.takeWhile_append_of_stops v.chars_plain (hstops vs),
        Text.takeWhile_append_of_stops w.chars_plain (hstops ws)] at hword
      rw [Text.dropWhile_append_of_stops v.chars_plain (hstops vs),
        Text.dropWhile_append_of_stops w.chars_plain (hstops ws)] at hrest
      rw [Word.chars_injective hword, ih hrest]

/-- Read a word in front of what has been read: a record takes its fields from the types that
follow. -/
def Word.push : Word → List ElementType → List ElementType
  | scalar k, ts => .scalar k :: ts
  | record n, ts => .record (ts.take n) :: ts.drop n

mutual

theorem foldr_words : ∀ (t : ElementType) (stack : List ElementType),
    t.words.foldr Word.push stack = t.collapse :: stack
  | scalar k, _ => by
    rw [words, collapse]
    rfl
  | record [t], stack => by
    rw [words, collapse]
    exact foldr_words t stack
  | record [], _ => by
    rw [words, collapse]
    · rfl
    all_goals simp
  | record (t :: u :: ts), stack => by
    have hlength : (t :: u :: ts).length = (collapseAll (t :: u :: ts)).length :=
      (length_collapseAll _).symm
    rw [words, collapse, List.foldr_cons, foldr_wordsAll (t :: u :: ts) stack, Word.push, hlength,
      List.take_left, List.drop_left]
    all_goals simp

/-- The words of fields build the fields, without the records of one field in them. -/
theorem foldr_wordsAll : ∀ (ts stack : List ElementType),
    (wordsAll ts).foldr Word.push stack = collapseAll ts ++ stack
  | [], _ => rfl
  | t :: ts, stack => by
    rw [wordsAll, List.foldr_append, foldr_wordsAll ts stack, foldr_words t, collapseAll,
      List.cons_append]

end

mutual

theorem words_collapse : ∀ t : ElementType, t.collapse.words = t.words
  | scalar k => by rw [collapse]
  | record [t] => by
    rw [collapse, words]
    exact words_collapse t
  | record [] => by
    rw [collapse]
    · rfl
    all_goals simp
  | record (t :: u :: ts) => by
    rw [collapse, words, words, length_collapseAll, wordsAll_collapseAll (t :: u :: ts)]
    all_goals simp [collapseAll]

theorem wordsAll_collapseAll : ∀ ts : List ElementType, wordsAll (collapseAll ts) = wordsAll ts
  | [] => rfl
  | t :: ts => by
    rw [collapseAll, wordsAll, words_collapse t, wordsAll_collapseAll ts, wordsAll]

end

theorem wordsAll_eq_iff {ts us : List ElementType} :
    wordsAll ts = wordsAll us ↔ collapseAll ts = collapseAll us := by
  constructor
  · intro h
    have hbuilt := congrArg (List.foldr Word.push []) h
    rwa [foldr_wordsAll, foldr_wordsAll, List.append_nil, List.append_nil] at hbuilt
  · intro h
    rw [← wordsAll_collapseAll ts, h, wordsAll_collapseAll]

theorem toList_cName {t : ElementType} (h : t.needsStruct = true) :
    ∃ ts, t = record ts ∧ t.cName.toList = "Tuple".toList ++ spell (wordsAll ts) := by
  cases t with
  | scalar k => cases h
  | record ts =>
    refine ⟨ts, rfl, ?_⟩
    rw [cName, if_pos (of_decide_eq_true h), String.toList_append, toList_nameTokens]

/-- Names of structs identify their shapes. -/
theorem cName_eq_iff_collapseBelow_eq {t u : ElementType} (ht : t.needsStruct = true)
    (hu : u.needsStruct = true) : t.cName = u.cName ↔ t.collapseBelow = u.collapseBelow := by
  obtain ⟨ts, rfl, hts⟩ := toList_cName ht
  obtain ⟨us, rfl, hus⟩ := toList_cName hu
  rw [← String.toList_inj, hts, hus, List.append_cancel_left_eq, collapseBelow, collapseBelow,
    record.injEq, ← wordsAll_eq_iff]
  exact ⟨spell_injective, congrArg spell⟩

/-- A pair in a record of one field is named like the pair, but not like its two fields side by
side. -/
theorem cName_eq_iff_nested_pair :
    let pair := record [scalar .float, record [scalar .int]]
    (record [record [pair], scalar .char]).cName = (record [pair, scalar .char]).cName ∧
      (record [pair, scalar .char]).cName ≠
        (record [scalar .float, scalar .int, scalar .char]).cName := by
  intro pair
  exact ⟨(cName_eq_iff_collapseBelow_eq rfl rfl).2 rfl,
    mt (cName_eq_iff_collapseBelow_eq rfl rfl).1 (by decide)⟩

end Kernelwright.ElementType
