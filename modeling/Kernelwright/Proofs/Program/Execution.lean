import Kernelwright.Proofs.Program.Meaning

/-!
# Running programs step by step

How an expression is evaluated once the values of its parts are known, and how statements are
executed once the first of them is.
-/

namespace Kernelwright.Program

variable {vars vars' : Vars} {u u' u'' : Unknown}

theorem bind_of_eq {α β : Type} {m : Eval α} {k : α → Eval β} {a : α} (h : m u = some (a, u')) :
    (m >>= k) u = k a u' := by
  simp only [Bind.bind, StateT.bind, h]
  rfl

/-! ### Expressions -/

namespace Expr

variable {a b c e t f : Expr} {v w : Val}

theorem eval_sign {op : Sign} (h : e.eval vars u = some (v, u')) :
    (sign op e).eval vars u = some (op.apply v, u') :=
  bind_of_eq h

theorem eval_cast {type : Ty} (h : e.eval vars u = some (v, u')) :
    (cast type e).eval vars u = some (v.convert type, u') :=
  bind_of_eq h

theorem eval_binary {op : Operator} (ha : a.eval vars u = some (v, u'))
    (hb : b.eval vars u' = some (w, u'')) : (binary op a b).eval vars u = op.apply v w u'' :=
  (bind_of_eq ha).trans (bind_of_eq hb)

theorem eval_select {type : Ty} (htype : (select c t f).type? vars = some type)
    (hc : c.eval vars u = some (v, u'))
    (hchosen : (if v.isTrue then t else f).eval vars u' = some (w, u'')) :
    (select c t f).eval vars u = some (w.convert type, u'') := by
  have hlift : (liftM ((select c t f).type? vars) : Eval Ty) u = some (type, u) := by
    rw [htype]
    rfl
  refine (bind_of_eq hlift).trans ((bind_of_eq hc).trans ?_)
  cases hv : v.isTrue <;> rw [hv] at hchosen <;> exact bind_of_eq hchosen

end Expr

/-! ### Statements -/

section Statements

variable {x : String} {c e : Expr} {v : Val} {type : Ty} {ss t f : List Stmt}

theorem execAll_cons_running {s : Stmt} (h : s.exec vars u = some (.running vars', u'))
    (ss : List Stmt) : execAll vars (s :: ss) u = execAll vars' ss u' :=
  bind_of_eq h

theorem execAll_cons_returned {s : Stmt} (h : s.exec vars u = some (.returned v, u'))
    (ss : List Stmt) : execAll vars (s :: ss) u = some (.returned v, u') :=
  bind_of_eq h

theorem execAll_reserve (ss : List Stmt) :
    execAll vars (.declare type x none :: ss) u
      = execAll ((x, .ofInt type (u 0)) :: vars) ss fun n => u (n + 1) :=
  execAll_cons_running rfl ss

theorem execAll_declare (h : e.eval vars u = some (v, u')) (ss : List Stmt) :
    execAll vars (.declare type x (some e) :: ss) u
      = execAll ((x, v.convert type) :: vars) ss u' :=
  execAll_cons_running (bind_of_eq h) ss

theorem execAll_assign (h : e.eval vars u = some (v, u')) (hset : vars.set? x v = some vars')
    (ss : List Stmt) : execAll vars (.assign x e :: ss) u = execAll vars' ss u' := by
  have hlift : (liftM (vars.set? x v) : Eval Vars) u' = some (vars', u') := by
    rw [hset]
    rfl
  exact execAll_cons_running ((bind_of_eq h).trans (bind_of_eq hlift)) ss

theorem execAll_ret (h : e.eval vars u = some (v, u')) (ss : List Stmt) :
    execAll vars (.ret e :: ss) u = some (.returned v, u') :=
  execAll_cons_returned (bind_of_eq h) ss

theorem execAll_branch {o : Outcome} (hc : c.eval vars u = some (v, u'))
    (harm : execAll vars (if v.isTrue then t else f) u' = some (o, u'')) :
    execAll vars [.branch c t f] u = some (match o with
      | .running inner => .running (inner.drop (inner.length - vars.length))
      | .returned r => .returned r, u'') := by
  cases o
  · refine execAll_cons_running ((bind_of_eq hc).trans ?_) []
    cases hv : v.isTrue <;> rw [hv] at harm <;> exact bind_of_eq harm
  · refine execAll_cons_returned ((bind_of_eq hc).trans ?_) []
    cases hv : v.isTrue <;> rw [hv] at harm <;> exact bind_of_eq harm

theorem execAll_append (vars : Vars) (ss t : List Stmt) :
    execAll vars (ss ++ t) = (do
      match ← execAll vars ss with
      | .running vars => execAll vars t
      | .returned v => return .returned v) := by
  induction ss generalizing vars with
  | nil => simp only [List.nil_append, execAll, pure_bind]
  | cons s ss ih =>
    simp only [List.cons_append, execAll, bind_assoc]
    refine bind_congr fun o => ?_
    cases o with
    | running vars => exact ih vars
    | returned v => simp only [pure_bind]

theorem execAll_append_running (h : execAll vars ss u = some (.running vars', u')) (t : List Stmt) :
    execAll vars (ss ++ t) u = execAll vars' t u' := by
  rw [execAll_append]
  exact bind_of_eq h

theorem execAll_append_returned (h : execAll vars ss u = some (.returned v, u')) (t : List Stmt) :
    execAll vars (ss ++ t) u = some (.returned v, u') := by
  rw [execAll_append]
  exact bind_of_eq h

theorem Function.run_eq {f : Function} {args : List Val}
    (hvars : bindParams f.params args = some vars)
    (h : execAll vars f.body u = some (.returned v, u')) :
    f.run args u = some (v.convert f.result) := by
  rw [Function.run, hvars, Option.bind_eq_bind, Option.bind_some, h]
  rfl

end Statements

end Kernelwright.Program
