import Kernelwright.Proofs.Code.Symbols

/-!
# Histories of symbol tables

A history is a list of operations on a table whose names are texts. Where scopes are opened and
closed in pairs it changes the innermost scope only, so a table whose scope is entered, given such a
history and left answers as before. The counter is the exception: it goes on over the whole life of
a table, and by it no fresh name is given out twice.
-/

namespace Kernelwright.Code.SymbolTable

/-- An operation on a symbol table. -/
inductive Action where
  | bind (name : String) (node : NodeId) (kind : ValueKind)
  | share (node source : NodeId)
  | fresh (role : Role)
  | enter
  | exit
deriving DecidableEq, Repr

/-- The table after an operation. -/
def after (t : SymbolTable String) : Action → SymbolTable String
  | .bind name node kind => t.bind name node kind
  | .share node source => (t.share? node source).getD t
  | .fresh _ => t.fresh.2
  | .enter => t.enter
  | .exit => t.exit

/-- The name that an operation gives out. -/
def given? (t : SymbolTable String) : Action → Option String
  | .fresh role => some (role.numbered t.fresh.1)
  | _ => none

def run (t : SymbolTable String) (history : List Action) : SymbolTable String :=
  history.foldl after t

/-- The names that a history gives out, in order. -/
def given (t : SymbolTable String) : List Action → List String
  | [] => []
  | a :: history => (t.given? a).toList ++ (t.after a).given history

/-- Scopes are opened and closed in pairs. -/
inductive Balanced : List Action → Prop
  | nil : Balanced []
  | plain {a : Action} {history : List Action} (hopen : a ≠ .enter) (hclose : a ≠ .exit) :
      Balanced history → Balanced (a :: history)
  | nested {inner history : List Action} :
      Balanced inner → Balanced history → Balanced (.enter :: (inner ++ .exit :: history))

/-- Two tables give the same answers. -/
structure Alike (t t' : SymbolTable String) : Prop where
  depth : t.depth = t'.depth
  nameOf? (node : NodeId) : t.nameOf? node = t'.nameOf? node
  nodeNamed? (name : String) : (t.meaning? name).map (·.node) = (t'.meaning? name).map (·.node)
  kindNamed? (name : String) : (t.meaning? name).map (·.kind) = (t'.meaning? name).map (·.kind)
  kindOf? (node : NodeId) : t.kindOf? node = t'.kindOf? node

variable {t : SymbolTable String} {a : Action} {history : List Action}

/-! ### Outer scopes -/

theorem share?_cases (t : SymbolTable String) (node source : NodeId) :
    (t.share? node source).getD t = t ∨ ∃ name kind, (t.share? node source).getD t = t.bind name
    node kind := by
  rw [share?]
  cases t.nameOf? source with
  | none => exact .inl rfl
  | some name => exact .inr ⟨name, _, rfl⟩

theorem tail_scopes_after (hopen : a ≠ .enter) (hclose : a ≠ .exit) :
    (t.after a).scopes.tail = t.scopes.tail := by
  cases a with
  | bind name node kind => exact tail_scopes_bind
  | share node source =>
    rw [after]
    obtain h | ⟨name, kind, h⟩ := share?_cases t node source
    · rw [h]
    · rw [h, tail_scopes_bind]
  | fresh role => rfl
  | enter => exact absurd rfl hopen
  | exit => exact absurd rfl hclose

/-- A history that opens and closes scopes in pairs leaves all scopes but the innermost as they
are. -/
theorem Balanced.tail_scopes_run (h : Balanced history) (t : SymbolTable String) :
    (t.run history).scopes.tail = t.scopes.tail := by
  induction h generalizing t with
  | nil => rfl
  | plain hopen hclose _ ih => exact (ih _).trans (tail_scopes_after hopen hclose)
  | @nested inner history _ _ hinner hrest =>
    have hexit : (t.enter.run inner).exit = { t with counter := (t.enter.run inner).counter } :=
      exit_eq (hinner t.enter)
    have hrun : t.run (.enter :: (inner ++ .exit :: history))
        = (t.enter.run inner).exit.run history := by
      simp [run, after]
    rw [hrun, hrest, hexit]
    rfl

theorem Balanced.alike (h : Balanced history) (t : SymbolTable String) :
    Alike (t.enter.run history).exit t := by
  rw [exit_eq (h.tail_scopes_run t.enter)]
  exact ⟨rfl, fun _ => rfl, fun _ => rfl, fun _ => rfl, fun _ => rfl⟩

/-! ### Fresh names -/

theorem counter_after_le (t : SymbolTable String) (a : Action) :
    t.counter ≤ (t.after a).counter := by
  cases a with
  | bind name node kind => exact Nat.le_of_eq counter_bind.symm
  | share node source =>
    rw [after]
    obtain h | ⟨name, kind, h⟩ := share?_cases t node source
    · exact Nat.le_of_eq (by rw [h])
    · exact Nat.le_of_eq (by rw [h, counter_bind])
  | fresh role => exact Nat.le_succ _
  | enter => exact Nat.le_refl _
  | exit => exact Nat.le_refl _

/-- A name that is given out has a number that the table has not used up. -/
theorem exists_of_mem_given {name : String} (h : name ∈ t.given history) :
    ∃ role n, t.counter ≤ n ∧ name = Role.numbered role n := by
  induction history generalizing t with
  | nil => cases h
  | cons a history ih =>
    rcases List.mem_append.1 h with h | h
    · cases a with
      | fresh role => exact ⟨role, t.counter, Nat.le_refl _, List.mem_singleton.1 h⟩
      | _ => cases h
    · obtain ⟨role, n, hn, hname⟩ := ih h
      exact ⟨role, n, (counter_after_le t a).trans hn, hname⟩

theorem nodup_given (t : SymbolTable String) (history : List Action) : (t.given history).Nodup := by
  induction history generalizing t with
  | nil => exact List.nodup_nil
  | cons a history ih =>
    cases a with
    | fresh role =>
      refine List.nodup_cons.2 ⟨fun hmem => ?_, ih _⟩
      -- later names are numbered from the next number on
      obtain ⟨role', n, hn, hname⟩ := exists_of_mem_given hmem
      have hnext : t.counter + 1 ≤ n := hn
      have heq : t.counter = n := (Name.text_fresh_inj hname).2
      omega
    | _ => exact ih _

/-- Leaving a scope restores every answer of the table, whatever was bound, shared, numbered and
nested inside; and over the whole life of a table no two fresh names are equal. -/
theorem scopes_restore_and_fresh_names_differ (t : SymbolTable String) (history : List Action) :
    (Balanced history → Alike (t.enter.run history).exit t) ∧ (t.given history).Nodup :=
  ⟨fun h => h.alike t, nodup_given t history⟩

/-- A name that is bound anew inside, in a scope of its own as well, has its old node and kind
behind it. -/
theorem scopes_restore_shadowed :
    let t := (empty : SymbolTable String).bind "p0" 0 (.scalar .int)
    let history : List Action :=
      [.bind "p0" 1 (.scalar .float), .enter, .share 0 1, .fresh .loop,
      .bind "loop_0" 1 .void, .exit, .fresh .loop]
    Balanced history ∧ (t.enter.run history).nameOf? 1 = some "p0" ∧
    (t.enter.run history).exit.nameOf? 1 = none ∧
    ((t.enter.run history).exit.meaning? "p0").map (·.kind) = some (.scalar .int) ∧
    t.given history = ["loop_0", "loop_1"] ∧ (t.given history).Nodup := by
  intro t history
  have hinner : Balanced [.share 0 1, .fresh .loop, .bind "loop_0" 1 .void] :=
    .plain (by decide) (by decide)
      (.plain (by decide) (by decide) (.plain (by decide) (by decide) .nil))
  have hbalanced : Balanced history :=
    .plain (by decide) (by decide) (.nested hinner (.plain (by decide) (by decide) .nil))
  have hmain := scopes_restore_and_fresh_names_differ t history
  have halike := hmain.1 hbalanced
  exact ⟨hbalanced, by decide, halike.nameOf? 1, halike.kindNamed? "p0", by decide, hmain.2⟩

end Kernelwright.Code.SymbolTable
