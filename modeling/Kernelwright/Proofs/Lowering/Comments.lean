import Kernelwright.Proofs.Code.Marks
import Kernelwright.Proofs.Lowering.Suppression

/-!
# Comments and code

Comments are a matter of printing, so a lambda is lowered with them exactly if it is lowered
without. The text with comments is the text without and a row for each visited node, unless a branch
is hollow: where the second arm holds nothing but marks, comments keep the arm in the text.
-/

namespace Kernelwright.Lowering

open Code

variable {g : Graph} {nested : List Graph} {options : Options} {b : Bundle}

theorem lowerTexts_of_ok (h : lowerLambda g nested options.guards = .ok b) :
    lowerTexts g nested options = .ok
      (b.functions.map fun f => (f.name, f.text options.comments)) := by
  rw [lowerTexts, h]
  rfl

/-- Whether texts come out does not depend on comments. -/
theorem exists_lowerTexts_iff (g : Graph) (nested : List Graph) (options : Options) :
    (∃ texts, lowerTexts g nested options = .ok texts) ↔
      ∃ b, lowerLambda g nested options.guards = .ok b := by
  constructor
  · rintro ⟨texts, h⟩
    obtain ⟨b, hb, -⟩ := bind_eq_ok.1 h
    exact ⟨b, hb⟩
  · rintro ⟨b, hb⟩
    exact ⟨_, lowerTexts_of_ok hb⟩

/-- A lambda is lowered with comments exactly if it is lowered without. As long as no name breaks a
line, dropping the comments gives the text without them exactly if the function has no hollow
branch. -/
theorem dropMarks_iff_no_hollow_branch (g : Graph) (nested : List Graph) (options : Options) :
    ((∃ on, lowerTexts g nested { options with comments := true } = .ok on) ↔
      ∃ off, lowerTexts g nested { options with comments := false } = .ok off) ∧
    ∀ b, lowerLambda g nested options.guards = .ok b →
      lowerTexts g nested { options with comments := true } =
        .ok (b.functions.map fun f => (f.name, f.text true)) ∧
      lowerTexts g nested { options with comments := false } =
        .ok (b.functions.map fun f => (f.name, f.text false)) ∧
      ((∀ l ∈ g :: nested, l.NamesLack "\n") → ∀ f ∈ b.functions,
        (dropMarks (f.text true) = f.text false ↔ ∀ s ∈ Stmt.allParts f.body,
          s.isHollow = false)) := by
  constructor
  · exact (exists_lowerTexts_iff g nested { options with comments := true }).trans
      (exists_lowerTexts_iff g nested { options with comments := false }).symm
  intro b hb
  refine ⟨lowerTexts_of_ok hb, lowerTexts_of_ok hb, fun hnames f hf => ?_⟩
  exact Function.dropMarks_text_iff (whole_of_lowerLambda hb hnames f hf)

/-- One of two numbers, by a test. Both arms assign the phi of their merge. -/
def pick : Graph := .ofKinds "pick" [
  .start 4,
  .parameter 0 .boolean,
  .int 1,
  .int 2,
  .branch 1 5 7,
  .region 6,
  .join 9,
  .region 8,
  .join 9,
  .merge 11,
  .phi 9 [2, 3],
  .ret (some 10)]

theorem pick_keeps_code : (∀ l ∈ [pick], l.NamesLack "\n") ∧
    ∃ b, lowerLambda pick [] true = .ok b ∧
      ((∃ f ∈ b.functions, f.text true ≠ f.text false) ∧
        ∀ f ∈ b.functions, ∀ s ∈ Stmt.allParts f.body, s.isHollow = false) ∧
      ∀ f ∈ b.functions, dropMarks (f.text true) = f.text false := by
  have hnames : ∀ l ∈ [pick], l.NamesLack "\n" := by decide +kernel
  refine ⟨hnames, exists_ok_and (by decide +kernel) fun b hb h f hf => ?_⟩
  obtain ⟨-, htexts⟩ := dropMarks_iff_no_hollow_branch pick [] Options.default
  exact ((htexts b hb).2.2 hnames f hf).2 (h.2 f hf)

/-- One of two numbers, by a test. One arm returns, and the other goes on without doing anything. -/
def gate : Graph := .ofKinds "gate" [
  .start 4,
  .parameter 0 .boolean,
  .int 1,
  .int 2,
  .branch 1 5 7,
  .region 6,
  .ret (some 2),
  .region 8,
  .join 9,
  .merge 10,
  .ret (some 3)]

/-- With comments, the arm that does nothing stays in the text. -/
theorem gate_keeps_empty_arm : (∀ l ∈ [gate], l.NamesLack "\n") ∧
    ∃ b, lowerLambda gate [] true = .ok b ∧
      (b.functions ≠ [] ∧
        ∀ f ∈ b.functions, ∃ s ∈ Stmt.allParts f.body, s.isHollow = true) ∧
      ∀ f ∈ b.functions, dropMarks (f.text true) ≠ f.text false := by
  have hnames : ∀ l ∈ [gate], l.NamesLack "\n" := by decide +kernel
  refine ⟨hnames, exists_ok_and (by decide +kernel) fun b hb h f hf heq => ?_⟩
  obtain ⟨s, hs, hhollow⟩ := h.2 f hf
  have hwhole := whole_of_lowerLambda hb hnames f hf
  exact Bool.false_ne_true (((Function.dropMarks_text_iff hwhole).1 heq s hs).symm.trans hhollow)

end Kernelwright.Lowering
