import Kernelwright.Proofs.Text.Runs

/-!
# What the scanner covers

An item takes up a piece of the text by the longest match, so it stays the same however much is left
of the text behind the piece: this is `Piece`. `Covers` puts pieces and blanks side by side, and
what `scan` gives covers the whole source.
-/

namespace Kernelwright.Grammar

open Text

variable {c : Char} {w rest : List Char} {i : Item} {items : List Item} {pos : Nat}

/-! ### Bytes of characters -/

theorem byteLength_cons (c : Char) (w : List Char) :
    byteLength (c :: w) = c.utf8Size + byteLength w := rfl

theorem byteLength_append (w w' : List Char) :
    byteLength (w ++ w') = byteLength w + byteLength w' := by
  induction w with
  | nil => simp [byteLength]
  | cons c w ih => rw [List.cons_append, byteLength_cons, byteLength_cons, ih, Nat.add_assoc]

theorem byteLength_pos (h : w ≠ []) : 0 < byteLength w := by
  obtain ⟨c, w, rfl⟩ := List.exists_cons_of_ne_nil h
  exact Nat.add_pos_left c.utf8Size_pos _

/-- Letters and digits are one byte long. -/
theorem byteLength_eq_length (h : ∀ c ∈ w, isLetter c = true ∨ isDigit c = true) :
    byteLength w = w.length := by
  induction w with
  | nil => rfl
  | cons c w ih =>
    have hsize : c.utf8Size = 1 := by
      rw [Char.utf8Size_eq_one_iff, UInt32.le_iff_toNat_le]
      have hc := h c (.head _)
      simp only [isLetter, isDigit, Char.le_def, UInt32.le_iff_toNat_le, Bool.or_eq_true,
        Bool.and_eq_true, decide_eq_true_eq] at hc
      have hz : 'z'.val.toNat = 122 := rfl
      have hZ : 'Z'.val.toNat = 90 := rfl
      have h9 : '9'.val.toNat = 57 := rfl
      have hbound : (127 : UInt32).toNat = 127 := rfl
      omega
    rw [byteLength_cons, ih fun d hd => h d (.tail _ hd), hsize, List.length_cons, Nat.add_comm]

theorem utf8Size_of_isSpace (hc : isSpace c = true) : c.utf8Size = 1 := by
  simp only [isSpace, Bool.or_eq_true, decide_eq_true_eq] at hc
  rcases hc with ((rfl | rfl) | rfl) | rfl <;> rfl

/-! ### Pieces -/

theorem stops_dropWhile (p : Char → Bool) (cs : List Char) : Stops p (cs.dropWhile p) := by
  intro c r h
  have hhead := List.head?_dropWhile_not p cs
  rw [h] at hhead
  simpa using hhead

theorem stops_mono {p : Char → Bool} {more : List Char} (h : Stops p rest) (hmore : more <+: rest) :
    Stops p more := by
  rintro c r rfl
  obtain ⟨s, rfl⟩ := hmore
  exact h c (r ++ s) rfl

def Item.span : Item → Span
  | .token _ s | .stray _ s => s

/-- The item at another place. -/
def Item.move : Item → Span → Item
  | .token t _, s => .token t s
  | .stray text _, s => .stray text s

/-- The text `c :: w` is what the item stands for, however much of `rest` follows. -/
structure Piece (i : Item) (c : Char) (w rest : List Char) : Prop where
  solid : ∀ d ∈ c :: w, isSpace d = false
  firstItem (pos : Nat) {more : List Char} (hmore : more <+: rest) :
    firstItem pos c (w ++ more) = (i.move ⟨pos, pos + byteLength (c :: w)⟩, more)

theorem piece_word {word : List Char} (span : Span) (hword : ∀ d ∈ c :: word, isLetter d = true)
    (hstop : Stops isLetter rest) (htuple : c :: word = tupleWord → Stops isDigit rest) :
    Piece (.token (.name (String.ofList (c :: word))) span) c word rest := by
  refine ⟨fun d hd => isSpace_of_class rfl (hword d hd), fun pos more hmore => ?_⟩
  have htail : ∀ d ∈ word, isLetter d = true := fun d hd => hword d (.tail _ hd)
  have hno : ¬ (c :: word = tupleWord ∧ more.takeWhile isDigit ≠ []) :=
    fun h => h.2 (takeWhile_of_stops (stops_mono (htuple h.1) hmore))
  rw [byteLength_eq_length fun d hd => .inl (hword d hd)]
  unfold Grammar.firstItem
  simp only [hword c (.head _), takeWhile_append_of_stops htail (stops_mono hstop hmore),
    dropWhile_append_of_stops htail (stops_mono hstop hmore), if_true, if_neg hno]
  rfl

theorem piece_tuple {v digits : List Char} (span : Span) (hword : c :: v = tupleWord)
    (hdigits : ∀ d ∈ digits, isDigit d = true) (hne : digits ≠ []) (hstop : Stops isDigit rest) :
    Piece (arityItem digits span) c (v ++ digits) rest := by
  have hletters : ∀ d ∈ c :: v, isLetter d = true := by rw [hword]; exact List.all_eq_true.1 rfl
  have hsolid : ∀ d ∈ (c :: v) ++ digits, isLetter d = true ∨ isDigit d = true :=
    List.forall_mem_append.2 ⟨fun d hd => .inl (hletters d hd), fun d hd => .inr (hdigits d hd)⟩
  refine ⟨fun d hd => (hsolid d hd).elim (isSpace_of_class rfl) (isSpace_of_class rfl),
    fun pos more hmore => ?_⟩
  have htail : ∀ d ∈ v, isLetter d = true := fun d hd => hletters d (.tail _ hd)
  have hbehind : Stops isLetter (digits ++ more) := by
    obtain ⟨d, ds, rfl⟩ := List.exists_cons_of_ne_nil hne
    exact stops_cons (isLetter_of_isDigit (hdigits d (.head _)))
  have hmove (s : Span) : (arityItem digits span).move s = arityItem digits s := by
    unfold arityItem
    dsimp only
    split <;> rfl
  rw [← List.cons_append, byteLength_eq_length hsolid, List.append_assoc, hmove]
  unfold Grammar.firstItem
  simp only [hletters c (.head _), takeWhile_append_of_stops htail hbehind,
    dropWhile_append_of_stops htail hbehind,
    takeWhile_append_of_stops hdigits (stops_mono hstop hmore),
    dropWhile_append_of_stops hdigits (stops_mono hstop hmore), if_true,
    if_pos (And.intro hword hne), List.length_cons, List.length_append, Nat.add_comm,
    Nat.add_left_comm]

/-- A text that does not begin with a blank begins with a piece. -/
theorem exists_piece (hc : isSpace c = false) (rest : List Char) :
    ∃ i w after, rest = w ++ after ∧ Piece i c w after := by
  cases hletter : isLetter c with
  | true =>
    have hword : ∀ d ∈ c :: rest.takeWhile isLetter, isLetter d = true :=
      List.forall_mem_cons.2 ⟨hletter, fun d hd => List.all_eq_true.1 List.all_takeWhile d hd⟩
    by_cases htuple : c :: rest.takeWhile isLetter = tupleWord ∧
      (rest.dropWhile isLetter).takeWhile isDigit ≠ []
    · have hdigits : ∀ d ∈ (rest.dropWhile isLetter).takeWhile isDigit, isDigit d = true :=
        fun d hd => List.all_eq_true.1 List.all_takeWhile d hd
      have hstop := stops_dropWhile isDigit (rest.dropWhile isLetter)
      exact ⟨_, _, _, by simp, piece_tuple ⟨0, 0⟩ htuple.1 hdigits htuple.2 hstop⟩
    · refine ⟨_, _, _, List.takeWhile_append_dropWhile.symm,
        piece_word ⟨0, 0⟩ hword (stops_dropWhile isLetter rest) fun hname => ?_⟩
      have hnone : (rest.dropWhile isLetter).takeWhile isDigit = [] :=
        Classical.byContradiction fun h => htuple ⟨hname, h⟩
      rw [← List.takeWhile_append_dropWhile (p := isDigit) (l := rest.dropWhile isLetter), hnone]
      exact stops_dropWhile isDigit _
  | false =>
    have hsolid : ∀ d ∈ [c], isSpace d = false := List.forall_mem_singleton.2 hc
    by_cases hsign : c = '<' ∨ c = '>' ∨ c = ','
    · rcases hsign with rfl | rfl | rfl
      · exact ⟨.token .less ⟨0, 0⟩, [], rest, rfl, hsolid, fun _ _ _ => rfl⟩
      · exact ⟨.token .greater ⟨0, 0⟩, [], rest, rfl, hsolid, fun _ _ _ => rfl⟩
      · exact ⟨.token .comma ⟨0, 0⟩, [], rest, rfl, hsolid, fun _ _ _ => rfl⟩
    by_cases hpath : c = ':' ∧ rest.head? = some ':'
    · obtain ⟨rfl, hhead⟩ := hpath
      obtain ⟨after, rfl⟩ : ∃ after, rest = ':' :: after := List.head?_eq_some_iff.1 hhead
      exact ⟨.token .path ⟨0, 0⟩, [':'], after, rfl, by simp [isSpace], fun _ _ _ => rfl⟩
    · refine ⟨.stray (String.ofList [c]) ⟨0, 0⟩, [], rest, rfl, hsolid, fun pos more hmore => ?_⟩
      unfold Grammar.firstItem
      simp only [not_or] at hsign
      simp only [hletter, hsign, List.nil_append, Bool.false_eq_true, if_false]
      split
      · next r =>
        obtain ⟨s, rfl⟩ := hmore
        exact absurd ⟨rfl, rfl⟩ hpath
      · rfl

/-! ### Covers -/

/-- The items cover a text that begins at byte `pos`, up to its blanks. -/
inductive Covers : Nat → List Char → List Item → Prop
  | nil (pos : Nat) : Covers pos [] []
  | blank {pos : Nat} {c : Char} {rest : List Char} {items : List Item} (hc : isSpace c = true) :
      Covers (pos + 1) rest items → Covers pos (c :: rest) items
  | piece {pos : Nat} {c : Char} {w rest : List Char} {i : Item} {items : List Item}
      (hspan : i.span = ⟨pos, pos + byteLength (c :: w)⟩) (hpiece : Piece i c w rest) :
      Covers (pos + byteLength (c :: w)) rest items → Covers pos (c :: w ++ rest) (i :: items)

theorem Item.move_move (i : Item) (s s' : Span) : (i.move s).move s' = i.move s' := by
  cases i <;> rfl

theorem Item.span_move (i : Item) (s : Span) : (i.move s).span = s := by
  cases i <;> rfl

theorem Item.stop_move (i : Item) (s : Span) : (i.move s).stop = s.stop := by
  cases i <;> rfl

theorem Piece.move (h : Piece i c w rest) (s : Span) : Piece (i.move s) c w rest :=
  ⟨h.solid, fun pos more hmore => by rw [i.move_move, h.firstItem pos hmore]⟩

/-- Scanning takes the item of a piece off the text. -/
theorem Piece.scanFrom_eq (h : Piece i c w rest) (pos : Nat) {more : List Char}
    (hmore : more <+: rest) :
    scanFrom pos (c :: w ++ more) = i.move ⟨pos, pos + byteLength (c :: w)⟩ ::
      scanFrom (pos + byteLength (c :: w)) more := by
  rw [List.cons_append, scanFrom, h.solid c (.head _), if_neg Bool.false_ne_true,
    h.firstItem pos hmore]
  dsimp only
  rw [i.stop_move]

theorem covers_scanFrom (pos : Nat) (cs : List Char) : Covers pos cs (scanFrom pos cs) := by
  fun_induction scanFrom pos cs with
  | case1 pos => exact .nil pos
  | case2 pos c rest hc ih => exact .blank hc ih
  | case3 pos c rest hc item ih =>
    obtain ⟨i, w, after, rfl, hpiece⟩ := exists_piece (eq_false_of_ne_true hc) rest
    have hfirst := hpiece.firstItem pos (List.prefix_refl after)
    simp only [item, hfirst, i.stop_move] at ih ⊢
    exact .piece (i.span_move _) (hpiece.move _) ih

/-- An item of a cover stands on a piece of the text. -/
theorem Covers.exists_piece {cs : List Char} (h : Covers pos cs items) (hi : i ∈ items) :
    ∃ before c w rest, cs = before ++ c :: w ++ rest ∧ Piece i c w rest ∧
      i.span = ⟨pos + byteLength before, pos + byteLength before + byteLength (c :: w)⟩ := by
  induction h with
  | nil => cases hi
  | @blank pos b rest items hb _ ih =>
    obtain ⟨before, c, w, rest, rfl, hpiece, hspan⟩ := ih hi
    refine ⟨b :: before, c, w, rest, rfl, hpiece, ?_⟩
    rw [hspan, byteLength_cons b, utf8Size_of_isSpace hb, Nat.add_assoc pos 1]
  | @piece pos b v rest j items hspan hpiece _ ih =>
    obtain rfl | hi := List.mem_cons.1 hi
    · exact ⟨[], b, v, rest, rfl, hpiece, hspan⟩
    · obtain ⟨before, c, w, rest, rfl, hpiece, hspan⟩ := ih hi
      refine ⟨b :: v ++ before, c, w, rest, by simp, hpiece, ?_⟩
      rw [hspan, byteLength_append, ← Nat.add_assoc]

theorem Covers.le_start {cs : List Char} (h : Covers pos cs items) (hi : i ∈ items) :
    pos ≤ i.span.start := by
  obtain ⟨before, c, w, rest, -, -, hspan⟩ := h.exists_piece hi
  rw [hspan]
  exact Nat.le_add_right _ _

/-- The items stand in the order of the text, and apart from each other. -/
theorem Covers.pairwise {cs : List Char} (h : Covers pos cs items) :
    items.Pairwise fun i j => i.span.stop ≤ j.span.start := by
  induction h with
  | nil => exact .nil
  | blank _ _ ih => exact ih
  | piece hspan _ hrest ih =>
    refine .cons (fun j hj => ?_) ih
    rw [hspan]
    exact hrest.le_start hj

/-! ### Blank bytes -/

/-- The bytes of the blanks. -/
def blankBytes : List UInt8 := [0x20, 0x09, 0x0d, 0x0a]

/-- A byte of a character is that of a blank exactly if the character is one: the bytes of all
others beyond the first 128 characters are larger. -/
theorem mem_blankBytes_iff {b : UInt8} (hb : b ∈ String.utf8EncodeChar c) :
    b ∈ blankBytes ↔ isSpace c = true := by
  have hchar : isSpace c = true ↔
      ((c.val.toNat = 32 ∨ c.val.toNat = 9) ∨ c.val.toNat = 13) ∨ c.val.toNat = 10 := by
    simp only [isSpace, Bool.or_eq_true, decide_eq_true_eq, Char.ext_iff, ← UInt32.toNat_inj]
    rfl
  have hbyte : b ∈ blankBytes ↔ b.toNat = 32 ∨ b.toNat = 9 ∨ b.toNat = 13 ∨ b.toNat = 10 := by
    simp only [blankBytes, List.mem_cons, List.not_mem_nil, or_false, ← UInt8.toNat_inj]
    rfl
  rw [hchar, hbyte]
  simp only [String.utf8EncodeChar] at hb
  split at hb
  · rw [List.mem_singleton.1 hb, UInt8.toNat_ofNat']
    omega
  · have hlarge : 128 ≤ b.toNat := by
      repeat' split at hb
      all_goals
        simp only [List.mem_cons, List.not_mem_nil, or_false] at hb
        rcases hb with rfl | rfl | rfl | rfl <;> rw [UInt8.toNat_ofNat'] <;> omega
    omega

/-- The bytes of a text, in order. -/
def bytes (cs : List Char) : List UInt8 := cs.flatMap String.utf8EncodeChar

theorem length_bytes (cs : List Char) : (bytes cs).length = byteLength cs := by
  induction cs with
  | nil => rfl
  | cons c cs ih => rw [bytes, List.flatMap_cons, List.length_append, String.length_utf8EncodeChar,
      byteLength_cons, ← ih, bytes]

theorem bytes_append_cases {n : Nat} {b : UInt8} (hb : (bytes (w ++ rest))[n]? = some b) :
    (n < byteLength w ∧ ∃ c ∈ w, b ∈ String.utf8EncodeChar c) ∨
    ∃ m, n = byteLength w + m ∧ (bytes rest)[m]? = some b := by
  rw [bytes, List.flatMap_append, ← bytes, ← bytes, List.getElem?_append, length_bytes] at hb
  split at hb
  · next hlt => exact .inl ⟨hlt, List.mem_flatMap.1 (List.mem_of_getElem? hb)⟩
  · exact .inr ⟨n - byteLength w, by omega, hb⟩

/-- A byte outside of all items is that of a blank, and one inside of an item is not. -/
theorem Covers.blank_iff {cs : List Char} (h : Covers pos cs items) {n : Nat} {b : UInt8}
    (hb : (bytes cs)[n]? = some b) :
    (∀ i ∈ items, ¬ (i.span.start ≤ pos + n ∧ pos + n < i.span.stop)) ↔ b ∈ blankBytes := by
  induction h generalizing n with
  | nil => cases hb
  | @blank pos c rest items hc hrest ih =>
    have hsize : byteLength [c] = 1 := utf8Size_of_isSpace hc
    obtain ⟨hn, d, hd, hbyte⟩ | ⟨m, rfl, hm⟩ := bytes_append_cases (w := [c]) hb
    · refine iff_of_true (fun i hi hin => ?_)
        ((mem_blankBytes_iff hbyte).2 (List.mem_singleton.1 hd ▸ hc))
      have hstart := hrest.le_start hi
      omega
    · rw [hsize, ← Nat.add_assoc]
      exact ih hm
  | @piece pos c w rest i items hspan hpiece hrest ih =>
    rw [List.forall_mem_cons, hspan]
    obtain ⟨hn, d, hd, hbyte⟩ | ⟨m, rfl, hm⟩ := bytes_append_cases hb
    · have hsolid : isSpace d ≠ true := by simp [hpiece.solid d hd]
      exact iff_of_false (fun hout => hout.1 ⟨Nat.le_add_right _ _, Nat.add_lt_add_left hn _⟩)
        fun hblank => hsolid ((mem_blankBytes_iff hbyte).1 hblank)
    · have hout : ¬ (pos ≤ pos + (byteLength (c :: w) + m) ∧
          pos + (byteLength (c :: w) + m) < pos + byteLength (c :: w)) := by omega
      rw [and_iff_right hout, ← Nat.add_assoc]
      exact ih hm

/-! ### Sources -/

theorem bytes_toList (source : String) : bytes source.toList = source.toByteArray.data.toList := by
  rw [← String.utf8Encode_toList, List.utf8Encode, List.toList_data_toByteArray, bytes]

/-- The scanner accounts for every byte of a source. Its items stand in order and apart from each
other, each on a piece of the text between two characters; the bytes outside of them are exactly the
blanks; the text of a token is scanned alone as just this token, and no longer text from its place
on is a token. -/
theorem scan_accounts_for_bytes (source : String) :
    (∀ i ∈ scan source, ∃ before w after, source.toList = before ++ w ++ after ∧ w ≠ [] ∧
      i.span = ⟨byteLength before, byteLength (before ++ w)⟩ ∧
      ∀ t, i = .token t i.span → scan (String.ofList w) = [.token t ⟨0, byteLength w⟩] ∧
        ∀ more r t', after = more ++ r → more ≠ [] →
          scan (String.ofList (w ++ more)) ≠ [.token t' ⟨0, byteLength (w ++ more)⟩]) ∧
    (scan source).Pairwise (fun i j => i.span.stop ≤ j.span.start) ∧
    ∀ n b, source.toByteArray.data.toList[n]? = some b →
      ((∀ i ∈ scan source, ¬ (i.span.start ≤ n ∧ n < i.span.stop)) ↔ b ∈ blankBytes) := by
  have hcovers : Covers 0 source.toList (scan source) := covers_scanFrom 0 source.toList
  refine ⟨fun i hi => ?_, hcovers.pairwise, fun n b hb => ?_⟩
  · obtain ⟨before, c, w, after, htext, hpiece, hspan⟩ := hcovers.exists_piece hi
    refine ⟨before, c :: w, after, htext, List.cons_ne_nil c w, by
      rw [hspan, byteLength_append, Nat.zero_add], ?_⟩
    intro t ht
    rw [ht] at hpiece
    have hscan {more : List Char} (hmore : more <+: after) : scan (String.ofList (c :: w ++ more))
        = .token t ⟨0, byteLength (c :: w)⟩ :: scanFrom (byteLength (c :: w)) more := by
      rw [scan, String.toList_ofList, hpiece.scanFrom_eq 0 hmore, Nat.zero_add]
      rfl
    constructor
    · simpa [scanFrom] using hscan List.nil_prefix
    · rintro more r t' rfl hmore h
      -- the first token ends where it did before
      rw [hscan (List.prefix_append more r)] at h
      have hstop : byteLength (c :: w) = byteLength (c :: w ++ more) :=
        congrArg Span.stop (Item.token.inj (List.cons.inj h).1).2
      have hpos := byteLength_pos hmore
      rw [byteLength_append] at hstop
      omega
  · rw [← bytes_toList] at hb
    simpa using hcovers.blank_iff hb

/-- A number that fits no word and a character of two bytes are strays; a number is scanned to its
end. -/
theorem scan_accounts_for_mixture :
    let source := "Tuple07 é:Tuple99999999999999999999"
    scan source = [.token (.tuple 7) ⟨0, 7⟩, .stray "é" ⟨8, 10⟩, .stray ":" ⟨10, 11⟩,
      .stray "Tuple99999999999999999999" ⟨11, 36⟩] ∧
    (∃ before w after, source.toList = before ++ w ++ after ∧ byteLength before = 0 ∧
      scan (String.ofList w) = [.token (.tuple 7) ⟨0, byteLength w⟩]) ∧ 0x20 ∈ blankBytes := by
  intro source
  have hscan : scan source = [.token (.tuple 7) ⟨0, 7⟩, .stray "é" ⟨8, 10⟩, .stray ":" ⟨10, 11⟩,
      .stray "Tuple99999999999999999999" ⟨11, 36⟩] := by decide +kernel
  have hmain := scan_accounts_for_bytes source
  rw [hscan] at hmain
  obtain ⟨before, w, after, htext, -, hspan, htoken⟩ := hmain.1 _ (.head _)
  refine ⟨hscan, ⟨before, w, after, htext, (congrArg Span.start hspan).symm, (htoken _ rfl).1⟩, ?_⟩
  exact (hmain.2.2 7 0x20 (by decide)).1 (by decide)

end Kernelwright.Grammar
