import Kernelwright.Proofs.Code.Lexemes
import Kernelwright.Proofs.Lowering.Stepwise

/-!
# Operators and their operands

The expression that is declared for an operator, cut into tokens: the operator stands before its
operand or between its operands, whatever these are, and is not read as a part of them. There is one
exception. A minus is written directly before its operand, and where this is a constant that begins
with a minus itself, C takes both for a decrement.
-/

namespace Kernelwright

open Code Lowering

variable {k : ScalarKind} {left : Option ScalarKind} {x y : Name} {xs : List Name}

/-! ### What is meant -/

def BinaryOp.sign : BinaryOp → String
  | add => "+" | sub => "-" | mul => "*" | div => "/" | rem => "%"
  | and => "&" | or => "|" | xor => "^" | shl => "<<" | shr | ushr => ">>"

def CompareOp.sign : CompareOp → String
  | eq => "==" | ne => "!=" | lt => "<" | le => "<=" | gt => ">" | ge => ">="

namespace Operation

def isOperator : Operation → Bool
  | unary .. | binary .. | compare .. => true
  | _ => false

/-- The tokens of an operator with those of its operands. The remainder of floating-point numbers is
a function, and the bits of a number are shifted unsigned behind a cast. -/
def tokens (result : ScalarKind) (left : Option ScalarKind) :
    Operation → List (List String) → List String
  | unary .neg _, [a] => "-" :: a
  | unary .not _, [a] => (if result = .boolean then "!" else "~") :: a
  | binary .ushr _ _, [a, b] =>
    "(" :: result.cName :: ")" :: "(" :: "(" :: (if left = some .long then "ulong" else "uint") ::
      ")" ::
      a ++ ">>" :: b ++ [")"]
  | binary op _ _, [a, b] =>
    if op = .rem ∧ result.isFloating then "fmod" :: "(" :: a ++ "," :: b ++ [")"] else
      a ++ op.sign :: b
  | compare op _ _, [a, b] => a ++ op.sign :: b
  | _, _ => []

/-- A minus in front of a constant that begins with one. -/
def Decrements (op : Operation) (xs : List Name) : Prop :=
  ∃ x, op = .unary .neg x ∧ ∃ v : Scalar, v.hasMinus = true ∧ xs = [.literal (.ofScalar v)]

end Operation

namespace Code

/-- A parameter, a variable, a constant, or the length of what has a name in the text. -/
inductive Name.IsOperand : Name → Prop where
  | parameter (n : Nat) : IsOperand (.parameter n)
  | fresh (role : Role) (n : Nat) : IsOperand (.fresh role n)
  | constant (v : Scalar) : IsOperand (.literal (.ofScalar v))
  | reductionIndex : IsOperand .reductionIndex
  | length {x : Name} : x.IsOperand → (∀ l, x ≠ .literal l) → IsOperand (.length x)
  | bufferLength {x : Name} : x.IsOperand → (∀ l, x ≠ .literal l) → IsOperand (.bufferLength x)

def Name.lexemes (x : Name) : List String := Code.lexemes x.text

theorem Name.IsOperand.begins (hx : x.IsOperand) : ∃ minus, Code.begins minus x.text.toList = true ∧
    (minus = true → ∃ v : Scalar, v.hasMinus = true ∧ x = .literal (.ofScalar v)) := by
  induction hx with
  | parameter n => exact ⟨false, by rw [Name.text, String.toList_append]; rfl, fun h => by cases h⟩
  | reductionIndex => exact ⟨false, rfl, fun h => by cases h⟩
  | @length x _ hx ih | @bufferLength x _ hx ih =>
    obtain ⟨minus, hbegins, hnegative⟩ := ih
    obtain rfl : minus = false :=
      Bool.eq_false_iff.2 fun h => (hnegative h).elim fun v hv => hx _ hv.2
    refine ⟨false, ?_, fun h => by cases h⟩
    rw [Name.text, String.toList_append]
    cases hcs : x.text.toList with
    | nil => rfl
    | cons c cs => rwa [hcs] at hbegins
  | fresh role n =>
    refine ⟨false, ?_, fun h => by cases h⟩
    rw [Name.text, Role.numbered, String.toList_append, String.toList_append]
    cases role <;> rfl
  | constant v => exact ⟨v.hasMinus, begins_literal v, fun hv => ⟨v, hv, rfl⟩⟩

/-! ### Expressions -/

theorem lexemes_spelled : (∀ op : BinaryOp, lexemes op.symbol = [op.sign]) ∧
    (∀ op : CompareOp, lexemes op.symbol = [op.sign]) ∧ ∀ k : ScalarKind,
    lexemes k.cName = [k.cName] := by
  refine ⟨?_, ?_, ?_⟩ <;> intro x <;> cases x <;> decide +kernel

theorem lexemes_pieces : lexemes " " = [] ∧ lexemes "(" = ["("] ∧ lexemes ")" = [")"] ∧
    lexemes ") " = [")"] ∧
    lexemes ", " = [","] ∧ lexemes ">>" = [">>"] ∧ lexemes "fmod(" = ["fmod", "("] ∧
    lexemes "((ulong) " = ["(", "(", "ulong", ")"] ∧
      lexemes "((uint) " = ["(", "(", "uint", ")"] := by
  decide +kernel

theorem lexemes_between (x y : Name) {op s : String} (hop : lexemes op = [s]) :
    lexemes (infixText x op y) = x.lexemes ++ s :: y.lexemes := by
  simp [infixText, lexemes_append, borders, List.getLast?_cons, lexemes_pieces, hop, Name.lexemes]

theorem lexemes_remainder (x y : Name) :
    lexemes (Expr.remainder x y).text = "fmod" :: "(" :: x.lexemes ++ "," ::
      y.lexemes ++ [")"] := by
  show lexemes ("fmod" ++ "(" ++ (x.text ++ ", " ++ y.text) ++ ")") = _
  simp [lexemes_append, borders, lexemes_pieces, Name.lexemes]

theorem lexemes_unsignedShift (wide : Bool) (x y : Name) :
    lexemes (Expr.unsignedShift k wide x y).text = "(" :: k.cName :: ")" :: "(" :: "(" ::
      (if wide then "ulong" else "uint") :: ")" :: x.lexemes ++ ">>" :: y.lexemes ++ [")"] := by
  cases wide <;> simp [Expr.text, castText, infixText, lexemes_append, borders, lexemes_pieces,
    lexemes_spelled.2.2 k, Name.lexemes]

/-- A sign is read before its operand as it is meant, but for a minus before a minus. -/
theorem lexemes_unaryExpr (hx : x.IsOperand) (op : UnaryOp) (id : NodeId) :
    lexemes (unaryExpr op (some k) x).text = (Operation.unary op id).tokens k left [x.lexemes] ↔
      ¬ (Operation.unary op id).Decrements [x] := by
  obtain ⟨minus, hbegins, hnegative⟩ := hx.begins
  cases op with
  | not =>
    have hnever : ¬ (Operation.unary .not id).Decrements [x] := by rintro ⟨_, ⟨⟩, _⟩
    refine iff_of_true ?_ hnever
    have hsign {c : Char} (hc : c ∈ ['!', '~']) : cut (c :: x.text.toList) = String.singleton
        c :: x.lexemes :=
      cut_sign (.tail _ hc) hbegins fun h => by subst h; exact absurd hc (by decide)
    by_cases hk : k = .boolean
    · simpa [unaryExpr, hk, Expr.text, Operation.tokens, lexemes] using hsign (c := '!') (by decide)
    · simpa [unaryExpr, hk, Expr.text, Operation.tokens, lexemes] using hsign (c := '~') (by decide)
  | neg =>
    have htext : lexemes (unaryExpr .neg (some k) x).text = cut ('-' :: x.text.toList) := by
      simp [unaryExpr, Expr.text, lexemes]
    rw [htext]
    constructor
    · rintro h ⟨-, -, v, hv, hxs⟩
      obtain rfl := List.singleton_inj.1 hxs
      have hminus := begins_literal v
      rw [hv] at hminus
      obtain ⟨cs, hcs⟩ : ∃ cs, (Literal.ofScalar v).text.toList = '-' :: cs := by
        cases hcs : (Literal.ofScalar v).text.toList <;> simp_all [begins]
      rw [Name.text, hcs] at h
      exact cut_decrement cs (congrArg List.head? h)
    · intro hno
      refine cut_sign (by decide) hbegins fun _ => Bool.eq_false_iff.2 fun h => hno ?_
      obtain ⟨v, hv, rfl⟩ := hnegative h
      exact ⟨id, rfl, v, hv, rfl⟩

theorem lexemes_binaryExpr (op : BinaryOp) (a b : NodeId) :
    lexemes (binaryExpr op k left x y).text
      = (Operation.binary op a b).tokens k left [x.lexemes, y.lexemes] := by
  have hbetween := lexemes_between x y (lexemes_spelled.1 op)
  cases op with
  | ushr =>
    refine (lexemes_unsignedShift _ x y).trans ?_
    simp only [Operation.tokens, decide_eq_true_eq]
  | rem =>
    by_cases hk : k.isFloating = true
    · simpa [Operation.tokens, binaryExpr, hk] using lexemes_remainder x y
    · simpa [Operation.tokens, binaryExpr, hk, Expr.text] using hbetween
  | _ => exact hbetween

end Code

namespace Lowering

variable {site : Site} {lambdas : List Graph} {function : Functions} {value : Values} {depth : Nat}
variable {p p₁ : Progress} {id : NodeId} {op : Operation} {ids : List NodeId}

theorem length_operands (h : operands value ids p = .ok (some xs, p₁)) :
    xs.length = ids.length := by
  induction ids generalizing p p₁ xs with
  | nil =>
    cases Step.pure_eq_ok.1 h
    rfl
  | cons a ids ih =>
    obtain ⟨x, p₂, -, h⟩ := Step.bind_eq_ok.1 h
    split at h
    · cases Step.pure_eq_ok.1 h
    · obtain ⟨r, p₃, hr, h⟩ := Step.bind_eq_ok.1 h
      cases r with
      | none => cases Step.pure_eq_ok.1 h
      | some ys =>
        cases Step.pure_eq_ok.1 h
        exact congrArg Nat.succ (ih hr)

theorem exists_declared {role : Role} {e : Expr} {m : Lower Name} {P : Expr → Prop}
    (h : m p = declare id role (.scalar k) e p₁) (he : P e) :
    ∃ name e q, m p = .ok (name, q) ∧ q.block = .declare (.scalar k) name e .none :: p₁.block ∧
      P e :=
  ⟨_, e, _, h.trans rfl, rfl, he⟩

/-- Lowering declares a variable for an operator, and C reads the operator and its operands in the
expression, exactly if it is no minus before a constant that begins with a minus. -/
theorem operator_reads_iff (hkind : site.graph.kind? id = some (.operation op))
    (hop : op.isOperator = true)
    (hvalue : site.graph.valueKind id = .scalar k) (hnew : p.symbols.nameOf? id = none)
    (hoperands : operands (lowerValue site lambdas function depth) op.inputs
      { p with block := .mark (NodeKind.operation op).name id :: p.block } = .ok (some xs, p₁))
    (hxs : ∀ x ∈ xs, x.IsOperand) :
    ∃ name e q, lowerValue site lambdas function (depth + 1) id p = .ok (name, q) ∧
      q.block = .declare (.scalar k) name e .none :: p₁.block ∧
      (lexemes e.text = op.tokens k (op.inputs.head?.bind fun a => (site.graph.valueKind a).scalar?)
          (xs.map Name.lexemes) ↔ ¬ op.Decrements xs) := by
  have hlength := length_operands hoperands
  rw [lowerValue_operation hnew hkind]
  have hrun {f : Option (List Name) → Lower Name} := Step.bind_of_ok (f := f) hoperands
  cases op with
  | unary o a =>
    obtain ⟨x, rfl⟩ := List.length_eq_one_iff.1 hlength
    exact exists_declared (hrun.trans (by rw [hvalue]; rfl))
      (lexemes_unaryExpr (hxs x (.head _)) o a)
  | binary o a b =>
    obtain ⟨x, y, rfl⟩ := List.length_eq_two.1 hlength
    refine exists_declared (hrun.trans (by rw [hvalue]; rfl))
      (iff_of_true (lexemes_binaryExpr o a b) ?_)
    rintro ⟨_, h, _⟩
    cases h
  | compare o a b =>
    obtain ⟨x, y, rfl⟩ := List.length_eq_two.1 hlength
    refine exists_declared (e := .compare o x y) (hrun.trans (by rw [hvalue]))
      (iff_of_true (lexemes_between x y (lexemes_spelled.2.1 o)) ?_)
    rintro ⟨_, h, _⟩
    cases h
  | _ => cases hop

/-- A constant below zero and an operation on it. -/
def negativeSite (op : Operation) : Site :=
  ⟨.ofKinds "negative" [.int (-5), .operation op], .function,
    false, [], [],
    none, none, []⟩

def lowerNegative (op : Operation) : Except KernelError (Name × Progress) :=
  lowerValue (negativeSite op) [] (fun _ _ => throw .endless) 2 1 (.start .empty .empty)

/-- Between two constants below zero a minus is read as one. -/
theorem operator_reads_difference :
    ∃ name e q, lowerNegative (.binary .sub 0 0) = .ok (name, q) ∧
    q.block.head? = some (.declare (.scalar .int) name e .none) ∧
    lexemes e.text = ["-", "5", "-", "-", "5"] := by
  have hxs : ∀ x ∈ List.replicate 2 (Name.literal (.ofScalar (.int (-5)))), x.IsOperand :=
    fun x hx =>
    List.eq_of_mem_replicate hx ▸ .constant _
  obtain ⟨name, e, q, hrun, hblock, hreads⟩ :=
    @operator_reads_iff .int _ (negativeSite (.binary .sub 0 0)) [] (fun _ _ => throw .endless)
      1
      (.start .empty .empty) _ 1 _ rfl rfl (by decide +kernel) rfl rfl hxs
  refine ⟨name, e, q, hrun, congrArg List.head? hblock, (hreads.2 ?_).trans (by decide +kernel)⟩
  rintro ⟨_, h, _⟩
  cases h

theorem minus_reads_decrement : ∃ name e q, lowerNegative (.unary .neg 0) = .ok (name, q) ∧
    q.block.head? = some (.declare (.scalar .int) name e .none) ∧ lexemes e.text = ["--", "5"] := by
  have hvalue : (negativeSite (.unary .neg 0)).graph.valueKind 1 = .scalar .int := by
    decide +kernel
  have hreads : lexemes (Expr.neg (.literal (.int (-5)))).text = ["--", "5"] := by decide +kernel
  obtain ⟨name, e, q, hrun, hblock, hreads⟩ :=
    exists_declared (P := fun e => lexemes e.text = ["--", "5"]) (k := .int)
      (p := .start .empty .empty)
      (m := lowerValue (negativeSite (.unary .neg 0)) [] (fun _ _ => throw .endless) 2 1)
      ((lowerValue_operation rfl rfl).trans (by rw [← hvalue]; rfl)) hreads
  exact ⟨name, e, q, hrun, congrArg List.head? hblock, hreads⟩

end Lowering

end Kernelwright
