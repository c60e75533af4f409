import Kernelwright.Proofs.Code.Paths

/-!
# What a text holds

The statements of a text at any depth, and what is seen on them: the nodes that are marked, the
calls of lambdas, and the arrays of which an element is read. A statement is local if nothing of
that is seen on it, nothing is in it, and it moves on to the next one.
-/

namespace Kernelwright.Code

/-! ### Statements at any depth -/

mutual

/-- A statement and the statements in it. -/
def Stmt.parts : Stmt → List Stmt
  | branch c onTrue onFalse =>
    branch c onTrue onFalse :: (Stmt.allParts onTrue ++ Stmt.allParts onFalse)
  | loop head body => loop head body :: Stmt.allParts body
  | s => [s]

/-- The statements of a block and the statements in them. -/
def Stmt.allParts : List Stmt → List Stmt
  | [] => []
  | s :: ss => s.parts ++ Stmt.allParts ss

end

/-! ### Single statements -/

def Place.array? : Place → Option Name
  | cell array _ | offsetCell array _ _ => some array
  | _ => none

/-- The array of which an element is passed. -/
def Argument.read? : Argument → Option Name
  | place p => p.array?
  | _ => none

namespace Expr

def reads : Expr → List Name
  | place p => p.array?.toList
  | call _ args => args.filterMap Argument.read?
  | minimum x _ => x.reads
  | _ => []

/-- The call of a lambda, with its arguments. -/
def call? : Expr → Option (String × List Argument)
  | call f args => some (f, args)
  | minimum x _ => x.call?
  | _ => none

/-- An expression that calls no lambda and reads no element. -/
structure Local (e : Expr) : Prop where
  call : e.call? = none
  reads : e.reads = []

end Expr

namespace Stmt

def marked? : Stmt → Option NodeId
  | mark _ id => some id
  | _ => none

/-- The call of a lambda in a statement, with its arguments. -/
def call? : Stmt → Option (String × List Argument)
  | declare _ _ value _ | assign _ value => value.call?
  | _ => none

def reads : Stmt → List Name
  | declare _ _ value _ | assign _ value => value.reads
  | _ => []

/-- A statement without others in it that marks no node, calls no lambda and reads no element. -/
structure Bare (s : Stmt) : Prop where
  parts : s.parts = [s]
  marked : s.marked? = none
  call : s.call? = none
  reads : s.reads = []

/-- Such a statement that moves on to the next one. -/
structure Local (s : Stmt) : Prop extends s.Bare where
  plain : s.isPlain = true

theorem Local.declare {type : CType} {x : Name} {e : Expr} {remark : Remark} (h : e.Local) :
    (Stmt.declare type x e remark).Local := ⟨⟨rfl, rfl, h.call, h.reads⟩, rfl⟩

theorem Local.assign {target : Place} {e : Expr} (h : e.Local) : (Stmt.assign target e).Local :=
  ⟨⟨rfl, rfl, h.call, h.reads⟩, rfl⟩

end Stmt

/-! ### Whole texts -/

namespace Stmt

variable {ss rest : List Stmt}

def visited (ss : List Stmt) : List NodeId := (allParts ss).filterMap marked?

def calls (ss : List Stmt) : List (String × List Argument) := (allParts ss).filterMap call?

/-- The arrays of which elements are read in a text. -/
def elementReads (ss : List Stmt) : List Name := (allParts ss).flatMap reads

theorem allParts_append : allParts (ss ++ rest) = allParts ss ++ allParts rest := by
  induction ss with
  | nil => simp [allParts]
  | cons s ss ih => simp [allParts, ih]

theorem mem_parts_self (s : Stmt) : s ∈ s.parts := by
  cases s <;> simp [parts]

theorem mem_allParts {s : Stmt} (h : s ∈ ss) : s ∈ allParts ss := by
  obtain ⟨before, after, rfl⟩ := List.append_of_mem h
  rw [allParts_append, allParts]
  exact List.mem_append_right _ (List.mem_append_left _ s.mem_parts_self)

@[simp] theorem visited_append : visited (ss ++ rest) = visited ss ++ visited rest := by
  simp [visited, allParts_append]

@[simp] theorem allParts_nil : allParts [] = [] := by simp [allParts]

theorem allParts_singleton (s : Stmt) : allParts [s] = s.parts := by simp [allParts]

theorem mem_allParts_reverse {s : Stmt} : s ∈ allParts ss.reverse ↔ s ∈ allParts ss := by
  induction ss with
  | nil => rfl
  | cons t ss ih =>
    rw [List.reverse_cons, allParts_append, allParts_singleton, allParts, List.mem_append,
      List.mem_append, ih, or_comm]

theorem allParts_branch (c : Name) (t f : List Stmt) :
    allParts [branch c t f] = branch c t f :: (allParts t ++ allParts f) := by
  rw [allParts_singleton, parts]

theorem allParts_loop (head : LoopHead) (body : List Stmt) :
    allParts [loop head body] = loop head body :: allParts body := by
  rw [allParts_singleton, parts]

section

variable {c : Name} {t f body : List Stmt} {head : LoopHead}

@[simp] theorem visited_branch : visited [branch c t f] = visited t ++ visited f := by
  rw [visited, allParts_branch, List.filterMap_cons_none rfl, List.filterMap_append]
  rfl

@[simp] theorem visited_loop : visited [loop head body] = visited body := by
  rw [visited, allParts_loop, List.filterMap_cons_none rfl]
  rfl

end

end Stmt

namespace Function

def visited (f : Function) : List NodeId := Stmt.visited f.body

def calls (f : Function) : List (String × List Argument) := Stmt.calls f.body

def elementReads (f : Function) : List Name := Stmt.elementReads f.body

end Function

end Kernelwright.Code
