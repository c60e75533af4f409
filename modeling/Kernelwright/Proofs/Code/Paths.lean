import Kernelwright.Code.Statement
import Kernelwright.Graph.Basic

/-!
# Paths through kernel text

`Runs` says which ways a text can be run when nothing is known of its conditions: a branch takes
either arm, and a loop goes round as often as it likes. A run is recorded by the marks and the
statements that it passes, and may be cut short anywhere.
-/

namespace Kernelwright

namespace Code

/-- How a run of a text ends. -/
inductive Ending where
  /-- The run is not watched any further. -/
  | cut
  /-- The run gets to the end of the text. -/
  | falls
  /-- The run leaves the loop around the text. -/
  | leaves
  | returns
deriving DecidableEq, Repr

/-- Whether a statement always moves on to the next one. -/
def Stmt.isPlain : Stmt → Bool
  | ret _ | leave | branch .. | loop .. => false
  | _ => true

/-- Whether a loop ends by itself. -/
def LoopHead.isBounded : LoopHead → Bool
  | parallel | forever => false
  | reduction .. | counted .. => true

/-- A text is run along a trace. -/
inductive Runs : List Stmt → (trace : List Stmt) → Ending → Prop
  | cut {ss} : Runs ss [] .cut
  | nil : Runs [] [] .falls
  | plain {s ss trace e} : s.isPlain → Runs ss trace e → Runs (s :: ss) (s :: trace) e
  | ret {v ss} : Runs (.ret v :: ss) [.ret v] .returns
  | leave {ss} : Runs (.leave :: ss) [] .leaves
  | branch {c t f ss trace trace' e} (b : Bool) : Runs (if b then t else f) trace .falls →
      Runs ss trace' e → Runs (.branch c t f :: ss) (trace ++ trace') e
  | branchEnds {c t f ss trace e} (b : Bool) : Runs (if b then t else f) trace e → e ≠ .falls →
      Runs (.branch c t f :: ss) trace e
  /-- Without a loop, the body is run once. -/
  | once {body ss trace trace' e} : Runs body trace .falls → Runs ss trace' e →
      Runs (.loop .parallel body :: ss) (trace ++ trace') e
  | again {head body ss trace trace' e} : head ≠ .parallel → Runs body trace .falls →
      Runs (.loop head body :: ss) trace' e → Runs (.loop head body :: ss) (trace ++ trace') e
  | left {head body ss trace trace' e} : Runs body trace .leaves → Runs ss trace' e →
      Runs (.loop head body :: ss) (trace ++ trace') e
  | done {head body ss trace e} : head.isBounded → Runs ss trace e →
      Runs (.loop head body :: ss) trace e
  | loopEnds {head body ss trace e} : Runs body trace e → e = .cut ∨ e = .returns →
      Runs (.loop head body :: ss) trace e

namespace Runs

variable {ss rest trace trace' : List Stmt} {e : Ending}
variable {c : Name} {t f : List Stmt} {v : Option Name}

/-! ### Texts one after the other -/

theorem append (h : Runs ss trace .falls) (h' : Runs rest trace' e) :
    Runs (ss ++ rest) (trace ++ trace') e := by
  generalize hf : Ending.falls = f at h
  induction h with
  | cut | ret | leave => cases hf
  | nil => exact h'
  | plain hs _ ih => exact .plain hs (ih hf)
  | branch b harm _ _ ih =>
    rw [List.append_assoc]
    exact .branch b harm (ih hf)
  | branchEnds b _ hne => exact absurd hf.symm hne
  | once hbody _ _ ih =>
    rw [List.append_assoc]
    exact .once hbody (ih hf)
  | again hhead hbody _ _ ih =>
    rw [List.append_assoc]
    exact .again hhead hbody (ih hf)
  | left hbody _ _ ih =>
    rw [List.append_assoc]
    exact .left hbody (ih hf)
  | done hhead _ ih => exact .done hhead (ih hf)
  | loopEnds _ hend =>
    subst hf
    simp at hend

theorem append_of_ne (h : Runs ss trace e) (he : e ≠ .falls) : Runs (ss ++ rest) trace e := by
  induction h with
  | cut => exact .cut
  | nil => exact absurd rfl he
  | plain hs _ ih => exact .plain hs (ih he)
  | ret => exact .ret
  | leave => exact .leave
  | branch b harm _ _ ih => exact .branch b harm (ih he)
  | branchEnds b harm hne => exact .branchEnds b harm hne
  | once hbody _ _ ih => exact .once hbody (ih he)
  | again hhead hbody _ _ ih => exact .again hhead hbody (ih he)
  | left hbody _ _ ih => exact .left hbody (ih he)
  | done hhead _ ih => exact .done hhead (ih he)
  | loopEnds hbody hend => exact .loopEnds hbody hend

theorem arm (b : Bool) (h : Runs (if b then t else f) trace e) : Runs [.branch c t f] trace e := by
  by_cases he : e = .falls
  · subst he
    simpa using branch b h .nil
  · exact .branchEnds b h he

theorem of_cons {s : Stmt} (h : Runs (s :: rest) trace e) :
    (∃ trace₁ trace₂, trace = trace₁ ++ trace₂ ∧ Runs [s] trace₁ .falls ∧ Runs rest trace₂ e) ∨
      (e ≠ .falls ∧ Runs [s] trace e) := by
  generalize hss : s :: rest = ss at h
  induction h with
  | nil => cases hss
  | cut => exact .inr ⟨nofun, .cut⟩
  | plain hs hrun =>
    cases hss
    exact .inl ⟨_, _, rfl, .plain hs .nil, hrun⟩
  | ret =>
    cases hss
    exact .inr ⟨nofun, .ret⟩
  | leave =>
    cases hss
    exact .inr ⟨nofun, .leave⟩
  | branch b harm hrun =>
    cases hss
    exact .inl ⟨_, _, rfl, arm b harm, hrun⟩
  | branchEnds b harm hne =>
    cases hss
    exact .inr ⟨hne, .branchEnds b harm hne⟩
  | once hbody hrun =>
    cases hss
    exact .inl ⟨_, _, rfl, by simpa using once hbody .nil, hrun⟩
  | again hhead hbody _ _ ih =>
    -- the same loop is run again, and then what comes after it
    cases hss
    obtain ⟨trace₁, trace₂, rfl, h₁, h₂⟩ | ⟨hne, h₁⟩ := ih rfl
    · exact .inl ⟨_, trace₂, (List.append_assoc ..).symm, .again hhead hbody h₁, h₂⟩
    · exact .inr ⟨hne, .again hhead hbody h₁⟩
  | left hbody hrun =>
    cases hss
    exact .inl ⟨_, _, rfl, by simpa using left hbody .nil, hrun⟩
  | done hhead hrun =>
    cases hss
    exact .inl ⟨[], _, rfl, .done hhead .nil, hrun⟩
  | loopEnds hbody hend =>
    cases hss
    refine .inr ⟨?_, .loopEnds hbody hend⟩
    rintro rfl
    simp at hend

theorem of_append (h : Runs (ss ++ rest) trace e) :
    (∃ trace₁ trace₂, trace = trace₁ ++ trace₂ ∧ Runs ss trace₁ .falls ∧ Runs rest trace₂ e) ∨
      (e ≠ .falls ∧ Runs ss trace e) := by
  induction ss generalizing trace with
  | nil => exact .inl ⟨[], trace, rfl, .nil, h⟩
  | cons s ss ih =>
    obtain ⟨trace₁, trace₂, rfl, hs, hrun⟩ | ⟨hne, hs⟩ := of_cons h
    · obtain ⟨trace₂, trace₃, rfl, hss, hrest⟩ | ⟨hne, hss⟩ := ih hrun
      · exact .inl ⟨_, trace₃, (List.append_assoc ..).symm, hs.append hss, hrest⟩
      · exact .inr ⟨hne, hs.append hss⟩
    · exact .inr ⟨hne, hs.append_of_ne hne⟩

theorem cut_of_falls (h : Runs ss trace .falls) : Runs ss trace .cut := by
  simpa using h.append (@cut [])

/-! ### Single statements -/

theorem of_branch (h : Runs [.branch c t f] trace e) :
    ∃ b : Bool, Runs (if b then t else f) trace e := by
  cases h with
  | cut => exact ⟨true, .cut⟩
  | plain hs => cases hs
  | branchEnds b harm _ => exact ⟨b, harm⟩
  | branch b harm hrest =>
    cases hrest with
    | cut => exact ⟨b, by simpa using harm.cut_of_falls⟩
    | nil => exact ⟨b, by simpa using harm⟩

theorem of_ret (h : Runs (.ret v :: rest) trace e) : e = .cut ∨ e = .returns := by
  cases h with
  | cut => exact .inl rfl
  | plain hs => cases hs
  | ret => exact .inr rfl

/-- A text whose last statement returns does not fall through. -/
theorem ne_falls_of_last? {block : List Stmt} (hlast : Stmt.last? block = some (.ret v))
    (h : Runs block.reverse trace e) : e ≠ .falls := by
  obtain ⟨-, marks, before, rfl, -⟩ := List.find?_eq_some_iff_append.1 hlast
  rw [List.reverse_append, List.reverse_cons, List.append_assoc] at h
  rintro rfl
  obtain ⟨-, trace₂, -, -, hret⟩ | ⟨hne, -⟩ := of_append h
  · obtain he | he := of_ret hret <;> cases he
  · exact hne rfl

end Runs

/-! ### Runs along given choices -/

/-- What comes of following a text: a trace, how it ends, and the choices that are left. -/
structure Route where
  trace : List Stmt
  ending : Ending
  choices : List Bool

/-- Goes on after a route. -/
def Route.andThen (r : Route) (next : List Bool → Route) : Route :=
  let r' := next r.choices
  ⟨r.trace ++ r'.trace, r'.ending, r'.choices⟩

/-- Follows a text for some steps, at each branch into the arm that is chosen. A loop that ends by
itself is passed without a round. -/
def follow : Nat → List Stmt → List Bool → Route
  | 0, _, cs => ⟨[], .cut, cs⟩
  | _ + 1, [], cs => ⟨[], .falls, cs⟩
  | _ + 1, .ret v :: _, cs => ⟨[.ret v], .returns, cs⟩
  | _ + 1, .leave :: _, cs => ⟨[], .leaves, cs⟩
  | _ + 1, .branch .. :: _, [] => ⟨[], .cut, []⟩
  | n + 1, .branch _ t f :: ss, b :: cs =>
    let arm := follow n (if b then t else f) cs
    if arm.ending = .falls then arm.andThen (follow n ss) else arm
  | n + 1, .loop head body :: ss, cs =>
    if head.isBounded then follow n ss cs else
    let round := follow n body cs
    match round.ending with
    | .falls => round.andThen (follow n (if head = .parallel then ss else .loop head body :: ss))
    | .leaves => round.andThen (follow n ss)
    | .cut | .returns => round
  | n + 1, s :: ss, cs => Route.andThen ⟨[s], .falls, cs⟩ (follow n ss)

theorem runs_follow (n : Nat) (ss : List Stmt) (cs : List Bool) :
    Runs ss (follow n ss cs).trace (follow n ss cs).ending := by
  induction n generalizing ss cs with
  | zero => exact .cut
  | succ n ih =>
    cases ss with
    | nil => exact .nil
    | cons s ss =>
      cases s with
      | ret => exact .ret
      | leave => exact .leave
      | branch c t f =>
        cases cs with
        | nil => exact .cut
        | cons b cs =>
          have harm := ih (if b then t else f) cs
          rw [follow]
          by_cases he : (follow n (if b then t else f) cs).ending = .falls
          · rw [if_pos he]
            exact .branch b (he ▸ harm) (ih ss _)
          · rw [if_neg he]
            exact .branchEnds b harm he
      | loop head body =>
        have hround := ih body cs
        rw [follow]
        by_cases hbounded : head.isBounded
        · rw [if_pos hbounded]
          exact .done hbounded (ih ss cs)
        · rw [if_neg hbounded]
          cases he : (follow n body cs).ending with
          | cut | returns =>
            rw [he] at hround
            simp only [he]
            exact .loopEnds hround (by simp)
          | leaves =>
            rw [he] at hround
            simp only [he]
            exact .left hround (ih ss _)
          | falls =>
            rw [he] at hround
            simp only [he]
            by_cases hhead : head = .parallel
            · subst hhead
              exact .once hround (ih ss _)
            · rw [if_neg hhead]
              exact .again hhead hround (ih _ _)
      | _ => exact .plain rfl (ih ss cs)

end Code

/-! ### Control nodes on a path -/

open Code

namespace Graph

variable {g : Graph}

def marked? (g : Graph) : Stmt → Option NodeId
  | .mark _ id =>
    match g.kind? id with
    | some (.control _) => some id
    | _ => none
  | _ => none

def passed (g : Graph) (trace : List Stmt) : List NodeId := trace.filterMap g.marked?

theorem passed_append (trace trace' : List Stmt) :
    g.passed (trace ++ trace') = g.passed trace ++ g.passed trace' := List.filterMap_append

theorem passed_mark {kind : String} {id : NodeId} {c : Control}
    (hk : g.kind? id = some (.control c))
    (trace : List Stmt) : g.passed (.mark kind id :: trace) = id :: g.passed trace :=
  List.filterMap_cons_some (by simp [marked?, hk])

/-- A statement of a value: it moves on to the next one, and marks no control node. -/
inductive Quiet (g : Graph) : Stmt → Prop
  | plain {s} : s.isPlain → g.marked? s = none → Quiet g s
  | loop {index bound body} : (∀ s ∈ body, Quiet g s) → Quiet g (.loop (.counted index bound) body)

theorem Quiet.ne_ret {s : Stmt} (h : g.Quiet s) (v : Option Name) : s ≠ .ret v := by
  rintro rfl
  cases h with
  | plain hs => cases hs

end Graph

namespace Code

variable {g : Graph} {ss trace : List Stmt} {e : Ending}

theorem Runs.of_quiet (h : Runs ss trace e) (hss : ∀ s ∈ ss, g.Quiet s) :
    (e = .cut ∨ e = .falls) ∧ g.passed trace = [] := by
  induction h with
  | cut => exact ⟨.inl rfl, rfl⟩
  | nil => exact ⟨.inr rfl, rfl⟩
  | plain hs _ ih =>
    obtain ⟨he, hpassed⟩ := ih fun s hs => hss s (.tail _ hs)
    refine ⟨he, ?_⟩
    cases hss _ (.head _) with
    | plain _ hm => rw [Graph.passed, List.filterMap_cons_none hm, ← Graph.passed, hpassed]
    | loop => cases hs
  | ret | leave | branch | branchEnds | once =>
    cases hss _ (.head _) with
    | plain hs => cases hs
  | again _ _ _ ihbody ih =>
    obtain ⟨he, hpassed⟩ := ih hss
    refine ⟨he, ?_⟩
    cases hss _ (.head _) with
    | plain hs => cases hs
    | loop hbody => rw [Graph.passed_append, (ihbody hbody).2, hpassed, List.append_nil]
  | left _ _ ihbody =>
    cases hss _ (.head _) with
    | plain hs => cases hs
    | loop hbody => obtain ⟨he | he, -⟩ := ihbody hbody <;> cases he
  | done _ _ ih => exact ih fun s hs => hss s (.tail _ hs)
  | loopEnds _ _ ihbody =>
    cases hss _ (.head _) with
    | plain hs => cases hs
    | loop hbody => exact ihbody hbody

theorem exists_runs_of_quiet (hss : ∀ s ∈ ss, g.Quiet s) : ∃ trace, Runs ss trace .falls := by
  induction ss with
  | nil => exact ⟨[], .nil⟩
  | cons s ss ih =>
    obtain ⟨trace, hrun⟩ := ih fun s hs => hss s (.tail _ hs)
    cases hss s (.head _) with
    | plain hs => exact ⟨_, .plain hs hrun⟩
    | loop => exact ⟨trace, .done rfl hrun⟩

end Code

end Kernelwright
