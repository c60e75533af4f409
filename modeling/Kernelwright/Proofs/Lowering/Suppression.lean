import Kernelwright.Proofs.Code.Silence
import Kernelwright.Proofs.Lowering.Orderly

/-!
# Suppressed values

Where a value is suppressed, a diagnostic is about its node, and the word `ILLEGAL` stays out of the
text, with one exception: a loop variable is declared with the name of its entry value whatever that
name is. The names that a graph brings along are left out of account, as they are printed as they
are.
-/

namespace Kernelwright

open Code

/-! ### Names that graphs bring along -/

def NodeKind.givenNames : NodeKind → List String
  | .operation (.invoke (.lambda name) ..) | .operation (.invoke (.builtin name) ..)
  | .operation (.mapChain name ..) | .unsupported name .. => [name]
  | _ => []

/-- A word stands neither in the name of the graph nor in those that come with its nodes. -/
def Graph.NamesLack (w : String) (g : Graph) : Prop :=
  Text.Lacks w g.name ∧ ∀ n ∈ g.nodes.toList, ∀ u ∈ n.kind.givenNames, Text.Lacks w u

instance (w : String) (g : Graph) : Decidable (g.NamesLack w) :=
  inferInstanceAs (Decidable (_ ∧ ∀ n ∈ g.nodes.toList, ∀ u ∈ n.kind.givenNames, Text.Lacks w u))

/-- The names that are printed as they are. -/
def NodeKind.printedNames : NodeKind → List String
  | .operation (.invoke (.builtin name) ..) | .unsupported name .. => [name]
  | _ => []

/-- A word stands in no name that is printed as it is. -/
def Graph.PrintsLack (w : String) (g : Graph) : Prop :=
  ∀ n ∈ g.nodes.toList, ∀ u ∈ n.kind.printedNames, Text.Lacks w u

theorem NodeKind.printedNames_subset (kind : NodeKind) : kind.printedNames ⊆ kind.givenNames := by
  unfold printedNames
  split
  · exact List.Subset.refl _
  · exact List.Subset.refl _
  · exact List.nil_subset _

theorem Graph.NamesLack.prints {w : String} {g : Graph} (h : g.NamesLack w) : g.PrintsLack w :=
  fun n hn u hu => h.2 n hn u (n.kind.printedNames_subset hu)

section

variable {w : String} (hw : Text.Foreign w)
include hw

/-- Only `ILLEGAL` can come from the name of a lambda. -/
theorem lacks_functionName {lambda : String} (h : w ≠ "ILLEGAL" ∨ Text.Lacks w lambda) :
    Text.Lacks w (functionName lambda) := by
  have hunderscore : '_' ∉ w.toList := by rcases hw with rfl | rfl | rfl | rfl <;> decide
  have hstart : Text.Inert "lambda_" := by decide
  have hsplit (front : String) (cs : List Char) :
      String.ofList (front.toList ++ cs) = front ++ String.ofList cs := by
    rw [String.ofList_append, String.ofList_toList]
  unfold functionName
  rw [hsplit]
  refine (hw.apart_append (hw.apart hstart)).2 ?_
  rintro ⟨front, back, hmap⟩
  rw [String.toList_ofList] at hmap
  obtain ⟨as, cs, hlambda, has, -⟩ := List.map_eq_append_iff.1 hmap.symm
  obtain ⟨bs, ds, rfl, -, hds⟩ := List.map_eq_append_iff.1 has
  -- where a character is not kept, there is an underscore
  have hkept : ∀ c ∈ ds, c.isAlphanum = true := by
    intro c hc
    by_contra hother
    have hmem := List.mem_map_of_mem (f := fun c : Char => if c.isAlphanum then c else '_') hc
    rw [hds, if_neg hother] at hmem
    exact hunderscore hmem
  rw [List.map_congr_left fun c hc => if_pos (hkept c hc), List.map_id'] at hds
  subst hds
  rcases h with hother | h
  · rcases hw with rfl | rfl | rfl | rfl
    · exact hother rfl
    all_goals exact absurd (hkept _ (.head _)) (by decide)
  · exact h ⟨bs, cs, hlambda.symm⟩

theorem coversAll_lacks {lambdas : List Graph} (h : ∀ l ∈ lambdas, l.PrintsLack w)
    (hlambdas : w ≠ "ILLEGAL" ∨ ∀ l ∈ lambdas, l.NamesLack w) :
    Lowering.CoversAll lambdas (Text.Lacks w) := by
  intro l hl id kind hkind u hu
  have hmem := Graph.mem_of_kind? hkind
  have hprinted := h l hl ⟨id, kind⟩ hmem
  have hgiven := hlambdas.imp_right fun h => (h l hl).2 ⟨id, kind⟩ hmem
  cases kind with
  | control => cases hu
  | unsupported name => exact hprinted u hu
  | operation op =>
    cases op with
    | invoke target args result =>
      cases target with
      | lambda name =>
        cases List.mem_singleton.1 hu
        exact lacks_functionName hw (hgiven.imp_right fun h => h name (.head _))
      | builtin name => exact hprinted u hu
      | tupleField => cases hu
    | mapChain name =>
      cases List.mem_singleton.1 hu
      exact lacks_functionName hw (hgiven.imp_right fun h => h name (.head _))
    | _ => cases hu

end

namespace Lowering

variable {w : String} {lambdas : List Graph} {guards : Bool} {ds : List Diagnostic} {l : Graph}
variable {f : Code.Function} {s : Stmt}

/-! ### Lines -/

theorem not_legal_of_isBlind (h : s.isBlind = true) : ¬ ∀ i ∈ s.idents, i.isLegal = true := by
  unfold Stmt.isBlind at h
  split at h
  · intro hall
    have hillegal := hall (.var .illegal) (.tail _ (.head _))
    cases hillegal
  · cases h

theorem Permitted.lacks_lines (hw : Text.Foreign w) (h : Permitted l (Text.Lacks w) ds s)
    (hbraces : (w = "ILLEGAL" ∨ w = "\n") ∨ s.hasBraces = false)
    (hblind : w ≠ "ILLEGAL" ∨ s.isBlind = false) : ∀ line ∈ s.lines, Text.Lacks w line := by
  refine Stmt.lacks_lines hw hbraces h.mark ?_ h.words
  rcases hblind with hother | hblind
  · exact .inl hother
  · rcases h.names with hnames | ⟨hs, -⟩
    · exact .inr hnames
    · rw [hblind] at hs
      cases hs

theorem WatchedIn.lacks_header (hw : Text.Foreign w) (h : WatchedIn lambdas guards ds l f)
    (hname : w ≠ "ILLEGAL" ∨ Text.Lacks w l.name) : Text.Lacks w f.header := by
  obtain ⟨_, _, _, _, s, _, hs, -, -, rfl⟩ := h
  exact Function.lacks_header hw (fun q hq => .inr (ofFunction_legal hs q hq))
    (lacks_functionName hw hname)

theorem Vouched.whole (h : Vouched lambdas guards (Text.Lacks "\n") ds f) : f.Whole := by
  obtain ⟨l, -, hwatched, htext⟩ := h
  have hfeed : Text.Foreign "\n" := .inr (.inl rfl)
  refine Function.whole_of_lacks
    ((hwatched ds (List.Subset.refl _)).lacks_header hfeed (.inl (by decide))) fun s hs => ?_
  exact (htext s hs).lacks_lines hfeed (.inl (.inr rfl)) (.inl (by decide))

theorem whole_of_lowerLambda {g : Graph} {nested : List Graph} {b : Bundle}
    (h : lowerLambda g nested guards = .ok b) (hnames : ∀ l ∈ g :: nested, l.NamesLack "\n") :
    ∀ f ∈ b.functions, f.Whole :=
  fun f hf =>
    (lowerLambda_vouched (coversAll_lacks (.inr (.inl rfl)) (fun l hl => (hnames l hl).prints)
    (.inr hnames)) h f hf).whole

/-! ### Blind declarations -/

theorem unbroken_illegal : Unbroken "ILLEGAL" := ⟨by decide, by decide, by decide⟩

theorem holds_illegal_of_isBlind (hwhole : f.Whole) (hs : s ∈ Stmt.allParts f.body)
    (hblind : s.isBlind = true) (comments : Bool) : Text.Holds (f.text comments) "ILLEGAL" := by
  unfold Stmt.isBlind at hblind
  split at hblind
  · next type x =>
    refine Function.holds_text hwhole hs rfl ?_ comments
    refine ⟨(type.text ++ " " ++ x.text ++ " = ").toList, (";" ++ Remark.loopBegin.text).toList, ?_⟩
    simp [Expr.text, Place.text, Name.text]
  · cases hblind

/-- Every suppressed value is reported. The word `ILLEGAL` stands in the text only if a loop
variable is declared blind, and then its phi starts from a value that is reported. As long as no
name breaks a line, each blind declaration shows. -/
theorem illegal_only_for_blind_variables {g : Graph} {nested : List Graph} {b : Bundle}
    (hlower : lowerLambda g nested guards = .ok b)
    (hnames : ∀ l ∈ g :: nested, l.NamesLack "ILLEGAL") :
    ∀ f ∈ b.functions, ∃ l ∈ g :: nested,
      WatchedIn (g :: nested) guards b.diagnostics l f ∧
      (∀ comments, Text.Holds (f.text comments) "ILLEGAL" →
        (∃ s ∈ Stmt.allParts f.body, s.isBlind = true) ∧ l.StartsBlind b.diagnostics) ∧
      ((∀ l ∈ g :: nested, l.NamesLack "\n") → (∃ s ∈ Stmt.allParts f.body, s.isBlind = true) →
        ∀ comments, Text.Holds (f.text comments) "ILLEGAL") := by
  intro f hf
  have hforeign : Text.Foreign "ILLEGAL" := .inl rfl
  obtain ⟨l, hl, hwatched, htext⟩ := lowerLambda_vouched
    (coversAll_lacks hforeign (fun l hl => (hnames l hl).prints) (.inr hnames)) hlower f hf
  have hwatched := hwatched b.diagnostics (List.Subset.refl _)
  refine ⟨l, hl, hwatched, fun comments hholds => ?_, fun hfeeds ⟨s, hs, hblind⟩ comments => ?_⟩
  · -- without a blind declaration no line has the word, and then the text has not either
    have hexists : ∃ s ∈ Stmt.allParts f.body, s.isBlind = true := by
      by_contra hnone
      have hsees : ∀ s ∈ Stmt.allParts f.body, s.isBlind = false :=
        fun s hs => Bool.eq_false_iff.2 fun hblind => hnone ⟨s, hs, hblind⟩
      have hheader := hwatched.lacks_header hforeign (.inr (hnames l hl).1)
      have hlines : ∀ s ∈ Stmt.allParts f.body, ∀ line ∈ s.lines, Text.Lacks "ILLEGAL" line :=
        fun s hs => (htext s hs).lacks_lines hforeign (.inl (.inl rfl)) (.inr (hsees s hs))
      exact unbroken_illegal.lacks_text hheader hlines (by decide) comments hholds
    obtain ⟨s, hs, hblind⟩ := hexists
    refine ⟨⟨s, hs, hblind⟩, ?_⟩
    rcases (htext s hs).names with hlegal | ⟨-, hstart⟩
    · exact absurd hlegal (not_legal_of_isBlind hblind)
    · exact hstart
  · exact holds_illegal_of_isBlind (whole_of_lowerLambda hlower hfeeds f hf) hs hblind comments

/-- A loop whose variable would be updated with an integer that is made from a tuple, which is
suppressed. -/
def stalled : Graph := .ofKinds "stalled" [
  .start 5,
  .parameter 0 .boolean,
  .int 0,
  .operation (.constant (.tuple [.scalar (.int 1)])),
  .operation (.newInstance (.scalar .int) [3]),
  .loopHead 7 none,
  .phi 5 [2, 4],
  .branch 1 8 10,
  .region 9,
  .backEdge 5,
  .loopExit 5 11,
  .ret (some 6)]

/-- Both suppressed values are reported, and the text is free of them. -/
theorem stalled_lacks_illegal : (∀ l ∈ [stalled], l.NamesLack "ILLEGAL") ∧
    ∃ b, lowerLambda stalled [] true = .ok b ∧
      (b.diagnostics.map (·.node) = [some 3, some 4] ∧ b.functions ≠ [] ∧
        ∀ f ∈ b.functions, ∀ s ∈ Stmt.allParts f.body, s.isBlind = false) ∧
      ∀ f ∈ b.functions, WatchedIn [stalled] true b.diagnostics stalled f ∧
        ∀ comments, ¬ Text.Holds (f.text comments) "ILLEGAL" := by
  have hnames : ∀ l ∈ [stalled], l.NamesLack "ILLEGAL" := by decide +kernel
  refine ⟨hnames, exists_ok_and (by decide +kernel) fun b hb h f hf => ?_⟩
  obtain ⟨l, hl, hwatched, honly, -⟩ := illegal_only_for_blind_variables hb hnames f hf
  cases List.mem_singleton.1 hl
  refine ⟨hwatched, fun comments hholds => ?_⟩
  obtain ⟨⟨s, hs, hs'⟩, -⟩ := honly comments hholds
  exact absurd hs' (Bool.eq_false_iff.1 (h.2.2 f hf s hs))

/-- A loop whose variable would start from an integer that is made from a tuple. -/
def blindStart : Graph := .ofKinds "blindStart" [
  .start 4,
  .parameter 0 .int,
  .operation (.constant (.tuple [.scalar (.int 1)])),
  .operation (.newInstance (.scalar .int) [2]),
  .loopHead 6 none,
  .phi 4 [3, 1],
  .loopExit 4 7,
  .ret (some 1)]

/-- The entry value is suppressed and reported, and its name is printed nevertheless. -/
theorem blindStart_holds_illegal : (∀ l ∈ [blindStart], l.NamesLack "ILLEGAL") ∧
    ∃ b, lowerLambda blindStart [] true = .ok b ∧
      (b.diagnostics.map (·.node) = [some 2, some 3] ∧ b.functions ≠ [] ∧
        ∀ f ∈ b.functions, ∃ s ∈ Stmt.allParts f.body, s.isBlind = true) ∧
      ∀ f ∈ b.functions, ∀ comments, Text.Holds (f.text comments) "ILLEGAL" := by
  have hfeeds : ∀ l ∈ [blindStart], l.NamesLack "\n" := by decide +kernel
  refine ⟨by decide +kernel, exists_ok_and (by decide +kernel) fun b hb h f hf => ?_⟩
  obtain ⟨s, hs, hblind⟩ := h.2.2 f hf
  exact holds_illegal_of_isBlind (whole_of_lowerLambda hb hfeeds f hf) hs hblind

end Lowering

end Kernelwright
