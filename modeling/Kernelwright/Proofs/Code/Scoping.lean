import Kernelwright.Code.Statement

/-!
# Scoped text

A text is scoped if everything it names has been declared before, in the same block or in one around
it. A declaration counts from the next statement on to the end of its block; what the head of a loop
declares counts in the body. Literals need no declaration, and `ILLEGAL` never has one.
-/

namespace Kernelwright.Code

/-- What a text declares: variables, and the names that come with an array or with guards. -/
inductive Ident where
  | var (x : Name)
  | metadata (array : Name)
  | dimension (array : Name)
  | deoptFlag
deriving DecidableEq, Repr

/-! ### Uses -/

/-- What has to be declared where a name is used. -/
def Name.uses : Name → List Ident
  | .literal _ => []
  | x => [.var x]

def Place.uses : Place → List Ident
  | name x => x.uses
  | field object _ => object.uses
  | cell array index => array.uses ++ index.uses
  | offsetCell array metadata index =>
    array.uses ++ [.metadata metadata, .dimension metadata] ++ index.uses

def Argument.uses : Argument → List Ident
  | name x => x.uses
  | withMetadata array => array.uses ++ [.metadata array]
  | place p => p.uses
  | deoptFlag => [.deoptFlag]

def Expr.uses : Expr → List Ident
  | place p => p.uses
  | neg x | not x | complement x | cast _ x => x.uses
  | binary _ x y | remainder x y | unsignedShift _ _ x y | compare _ x y | sign x
    y => x.uses ++ y.uses
  | select c t f => c.uses ++ t.uses ++ f.uses
  | math _ args => args.flatMap fun (_, x) => x.uses
  | builtin _ args => args.flatMap Name.uses
  | call _ args => args.flatMap Argument.uses
  | length array => [.metadata array, .dimension array]
  | firstLength array => [.metadata array]
  | globalId => []
  | minimum x _ => x.uses
  | progressionIndex _ x | progression _ _ x | linearProgression _ _ x => x.uses

def LoopHead.uses : LoopHead → List Ident
  | parallel | forever => []
  | reduction init bound => init.uses ++ bound.uses
  | counted _ bound => bound.uses

/-- What a statement uses, apart from the statements in it. -/
def Stmt.uses : Stmt → List Ident
  | mark .. | reserve .. | reserveArray .. | dimension _ | globalSize | leave | failed .. => []
  | declare _ _ value _ => value.uses
  | clearFlag | raiseFlag => [.deoptFlag]
  | guard c _ => .deoptFlag :: c.uses
  | assign target value => target.uses ++ value.uses
  | ret value => value.elim [] Name.uses
  | branch c _ _ => c.uses
  | loop head _ => head.uses

/-! ### Declarations -/

def LoopHead.declares : LoopHead → List Ident
  | parallel | forever => []
  | reduction .. => [.var .reductionIndex]
  | counted index _ => [.var index]

/-- What a statement declares for the rest of its block. -/
def Stmt.declares : Stmt → List Ident
  | declare _ x _ _ | reserve _ x | reserveArray _ x _ => [.var x]
  | dimension array => [.dimension array]
  | _ => []

def Parameter.declares : Parameter → List Ident
  | pointer _ x | byValue _ x => [.var x]
  | metadata array => [.metadata array]
  | deoptFlag => [.deoptFlag]

/-! ### Scopes -/

mutual

/-- A statement uses only what is visible where it stands. -/
def Stmt.Scoped : Stmt → (visible : List Ident) → Prop
  | branch c onTrue onFalse, visible =>
    c.uses ⊆ visible ∧ Stmt.AllScoped onTrue visible ∧ Stmt.AllScoped onFalse visible
  | loop head body, visible =>
    head.uses ⊆ visible ∧ Stmt.AllScoped body (head.declares ++ visible)
  | s, visible => s.uses ⊆ visible

/-- Each statement of a block uses only what is visible there. -/
def Stmt.AllScoped : List Stmt → (visible : List Ident) → Prop
  | [], _ => True
  | s :: ss, visible => s.Scoped visible ∧ Stmt.AllScoped ss (s.declares ++ visible)

end

/-- The text of a function is scoped. -/
def Function.Scoped (f : Function) : Prop :=
  Stmt.AllScoped f.body (f.parameters.flatMap Parameter.declares)

mutual

def Stmt.decidableScoped : (s : Stmt) → (visible : List Ident) → Decidable (s.Scoped visible)
  | branch c onTrue onFalse, visible =>
    have := Stmt.decidableAllScoped onTrue visible
    have := Stmt.decidableAllScoped onFalse visible
    inferInstanceAs
      (Decidable (c.uses ⊆ visible ∧ AllScoped onTrue visible ∧ AllScoped onFalse visible))
  | loop head body, visible =>
    have := Stmt.decidableAllScoped body (head.declares ++ visible)
    inferInstanceAs (Decidable (head.uses ⊆ visible ∧ AllScoped body (head.declares ++ visible)))
  | mark .., visible | declare .., visible | reserve .., visible | reserveArray .., visible
  | dimension _, visible | globalSize, visible | clearFlag, visible | raiseFlag, visible
  | guard .., visible | assign .., visible | ret _, visible | leave, visible | failed .., visible =>
    inferInstanceAs (Decidable (_ ⊆ visible))

def Stmt.decidableAllScoped : (ss : List Stmt) → (visible : List Ident) →
    Decidable (Stmt.AllScoped ss visible)
  | [], _ => inferInstanceAs (Decidable True)
  | s :: ss, visible =>
    have := Stmt.decidableScoped s visible
    have := Stmt.decidableAllScoped ss (s.declares ++ visible)
    inferInstanceAs (Decidable (s.Scoped visible ∧ Stmt.AllScoped ss (s.declares ++ visible)))

end

instance (f : Function) : Decidable f.Scoped :=
  Stmt.decidableAllScoped f.body (f.parameters.flatMap Parameter.declares)

namespace Stmt

variable {s : Stmt} {ss rest : List Stmt} {visible visible' : List Ident}

theorem subset_append_of_subset {l : List Ident} (h : visible ⊆ visible') :
    l ++ visible ⊆ l ++ visible' :=
  List.append_subset.2
    ⟨List.subset_append_left .., List.Subset.trans h (List.subset_append_right ..)⟩

mutual

theorem Scoped.mono {s : Stmt} {visible visible' : List Ident} (h : s.Scoped visible)
    (hsub : visible ⊆ visible') : s.Scoped visible' := by
  cases s with
  | branch c onTrue onFalse =>
    obtain ⟨hc, htrue, hfalse⟩ := h
    exact ⟨List.Subset.trans hc hsub, AllScoped.mono htrue hsub, AllScoped.mono hfalse hsub⟩
  | loop head body =>
    exact ⟨List.Subset.trans h.1 hsub, AllScoped.mono h.2 (subset_append_of_subset hsub)⟩
  | _ => exact List.Subset.trans h hsub

theorem AllScoped.mono {ss : List Stmt} {visible visible' : List Ident} (h : AllScoped ss visible)
    (hsub : visible ⊆ visible') : AllScoped ss visible' := by
  cases ss with
  | nil => trivial
  | cons s ss => exact ⟨Scoped.mono h.1 hsub, AllScoped.mono h.2 (subset_append_of_subset hsub)⟩

end

/-- What is visible behind a block is what the block declares, and what was visible before it. -/
theorem allScoped_append :
    AllScoped (ss ++ rest) visible ↔
      AllScoped ss visible ∧ AllScoped rest (ss.flatMap declares ++ visible) := by
  induction ss generalizing visible with
  | nil => simp [AllScoped]
  | cons s ss ih =>
    have hsame : AllScoped rest (ss.flatMap declares ++ (s.declares ++ visible)) ↔
        AllScoped rest ((s :: ss).flatMap declares ++ visible) := by
      constructor
      all_goals
        intro h
        apply h.mono
        intro i hi
        simp only [List.flatMap_cons, List.mem_append] at hi ⊢
        grind
    rw [List.cons_append, AllScoped, AllScoped, ih, hsame, and_assoc]

end Stmt

end Kernelwright.Code
