import Kernelwright.Proofs.Lowering.Straight

/-!
# Lowering values

The lowering of a value adds the declarations that its name needs, and the name then holds what the
value denotes. The host evaluates a value where it is needed while a program computes all of them,
so every expression here has some value even where the host would fail.
-/

namespace Kernelwright.Lowering

open Code
open Program (Ty Val Vars Operator Sign)

variable {g : Graph} {args : List Host.Slot} {seen : List NodeId} {t : SymbolTable Name}
variable {id x y : NodeId} {a b : Name} {k : ScalarKind}

/-! ### Expressions -/

section Expressions

variable (hfit : Host.Fits g args)
include hfit

theorem computes_unary {op : UnaryOp} (hk : g.kind? id = some (.operation (.unary op x)))
    (hkind : g.valueKind id = .scalar k) (hx : t.Binds x a) :
    Computes g args t id k (.sign (.ofUnary op k) a.operand) := by
  intro vars phis u hm
  obtain ⟨w, hw, -, hdenotes⟩ := hm.holds hx
  refine ⟨_, u, Program.Expr.eval_sign (Name.eval_operand hw u), fun s hs => ?_⟩
  obtain ⟨_, ⟨r, ⟨⟩, hr⟩, hs⟩ := hs.gives hfit hm.phisFit hk
  have hop : op.valueKind r.kind = .scalar k := by
    rw [← hkind, hfit.words.valueKind_eq hk, Operation.valueKind, hr.valueKind hfit hm.phisFit]
  obtain ⟨s', hs', -, hagree⟩ := Program.unary_agrees (hr.isWord hfit hm.phisFit) hop
  rw [hs'] at hs
  cases hs
  rw [hdenotes r hr]
  exact hagree

theorem computes_binary {op : BinaryOp} (hk : g.kind? id = some (.operation (.binary op x y)))
    (hkind : g.valueKind id = .scalar k) (hop : op ≠ .ushr) (hx : t.Binds x a) (hy : t.Binds y b) :
    Computes g args t id k (.binary (.ofBinary op) a.operand b.operand) := by
  intro vars phis u hm
  obtain ⟨v, hv, -, hdenotes⟩ := hm.holds hx
  obtain ⟨w, hw, -, hdenotes'⟩ := hm.holds hy
  have heval : (Program.Expr.binary (.ofBinary op) a.operand b.operand).eval vars u
      = (Operator.ofBinary op).apply v w u :=
    Program.Expr.eval_binary (Name.eval_operand hv u) (Name.eval_operand hw u)
  obtain ⟨r, u', hr, -⟩ := Program.apply_isSome (.ofBinary op) v w u
  refine ⟨r, u', heval.trans hr, fun s hs => ?_⟩
  obtain ⟨k', _, _, v, hkind', ⟨m, ⟨⟩, hm'⟩, ⟨n, ⟨⟩, hn⟩, hs, ⟨⟩⟩ := hs.gives hfit hm.phisFit hk
  cases hkind.symm.trans hkind'
  have hrule : op.valueKind m.kind n.kind = .scalar k := by
    rw [← hkind, hfit.words.valueKind_eq hk, Operation.valueKind, hm'.valueKind hfit hm.phisFit,
      hn.valueKind hfit hm.phisFit]
  obtain ⟨s', hs', -, r', happly, hagree⟩ := Program.binary_agrees
    (hm'.isWord hfit hm.phisFit) (hn.isWord hfit hm.phisFit) hrule hop hs
  cases hs'
  rw [hdenotes m hm', hdenotes' n hn] at hr
  cases (happly u).symm.trans hr
  exact hagree

theorem computes_unsignedShift (hk : g.kind? id = some (.operation (.binary .ushr x y)))
    (hkind : g.valueKind id = .scalar k) (hx : t.Binds x a) (hy : t.Binds y b) :
    Computes g args t id k (.cast (.ofKind k) (.binary .shr
      (.cast (.unsigned ((g.valueKind x).scalar? = some .long)) a.operand) b.operand)) := by
  intro vars phis u hm
  obtain ⟨v, hv, -, hdenotes⟩ := hm.holds hx
  obtain ⟨w, hw, -, hdenotes'⟩ := hm.holds hy
  obtain ⟨r, u', hr, -⟩ := Program.apply_isSome .shr
    (v.convert (.unsigned ((g.valueKind x).scalar? = some .long))) w u
  refine ⟨_, u', Program.Expr.eval_cast ((Program.Expr.eval_binary
    (Program.Expr.eval_cast (Name.eval_operand hv u)) (Name.eval_operand hw u)).trans hr),
    fun s hs => ?_⟩
  obtain ⟨k', _, _, v, hkind', ⟨m, ⟨⟩, hm'⟩, ⟨n, ⟨⟩, hn⟩, hs, ⟨⟩⟩ := hs.gives hfit hm.phisFit hk
  cases hkind.symm.trans hkind'
  have hmkind := hm'.valueKind hfit hm.phisFit
  have hrule : BinaryOp.ushr.valueKind m.kind n.kind = .scalar k := by
    rw [← hkind, hfit.words.valueKind_eq hk, Operation.valueKind, hmkind,
      hn.valueKind hfit hm.phisFit]
  obtain ⟨s', hs', -, r', happly, hagree⟩ := Program.ushr_agrees
    (hm'.isWord hfit hm.phisFit) (hn.isWord hfit hm.phisFit) hrule hs
  cases hs'
  have hwide : decide ((g.valueKind x).scalar? = some .long) = decide (m.kind = .long) := by
    rw [hmkind, ValueKind.scalar?]
    simp
  rw [hwide, hdenotes m hm', hdenotes' n hn] at hr
  cases (happly u).symm.trans hr
  rw [← hagree]
  exact Val.convert_ofInt _ _

theorem computes_compare {op : CompareOp} (hk : g.kind? id = some (.operation (.compare op x y)))
    (hkind : g.valueKind id = .scalar k) (hx : t.Binds x a) (hy : t.Binds y b) :
    Computes g args t id k (.binary (.ofCompare op) a.operand b.operand) := by
  intro vars phis u hm
  obtain ⟨v, hv, -, hdenotes⟩ := hm.holds hx
  obtain ⟨w, hw, -, hdenotes'⟩ := hm.holds hy
  obtain ⟨r, u', hr, -⟩ := Program.apply_isSome (.ofCompare op) v w u
  refine ⟨r, u', (Program.Expr.eval_binary (Name.eval_operand hv u)
    (Name.eval_operand hw u)).trans hr, fun s hs => ?_⟩
  have hskind := hs.valueKind hfit hm.phisFit
  obtain ⟨_, _, ⟨m, ⟨⟩, hm'⟩, ⟨n, ⟨⟩, hn⟩, ⟨⟩⟩ := hs.gives hfit hm.phisFit hk
  cases hkind.symm.trans hskind
  rw [hdenotes m hm', hdenotes' n hn,
    Program.compare_agrees (hm'.isWord hfit hm.phisFit) (hn.isWord hfit hm.phisFit)] at hr
  cases hr
  cases Host.satisfies op (.scalar m) (.scalar n) <;> rfl

theorem computes_convert (hk : g.kind? id = some (.operation (.convert k x)))
    (hword : k.isWord = true) (hx : t.Binds x a) :
    Computes g args t id k (.cast (.ofKind k) a.operand) := by
  intro vars phis u hm
  obtain ⟨w, hw, -, hdenotes⟩ := hm.holds hx
  refine ⟨_, u, Program.Expr.eval_cast (Name.eval_operand hw u), fun s hs => ?_⟩
  obtain ⟨_, ⟨r, ⟨⟩, hr⟩, ⟨⟩⟩ := hs.gives hfit hm.phisFit hk
  rw [hdenotes r hr, ← Program.convert_ofScalar (hr.isWord hfit hm.phisFit) hword]
  exact Val.convert_ofInt _ _

theorem computes_conditional {c y : NodeId} {n a b : Name}
    (hk : g.kind? id = some (.operation (.conditional c x y)))
    (hkind : g.valueKind id = .scalar k) (hc : t.Binds c n) (hx : t.Binds x a) (hy : t.Binds y b) :
    Computes g args t id k (.select n.operand a.operand b.operand) := by
  intro vars phis u hm
  obtain ⟨r, hr, -, hdenotes⟩ := hm.holds hc
  obtain ⟨v, hv, hvtype, hdenotes₁⟩ := hm.holds hx
  obtain ⟨w, hw, hwtype, hdenotes₂⟩ := hm.holds hy
  have hxkind := (hfit.words.valueKind_choice hk (.head _)).trans hkind
  have hykind := (hfit.words.valueKind_choice hk (.tail _ (.head _))).trans hkind
  have htype : (Program.Expr.select n.operand a.operand b.operand).type? vars
      = some ((Ty.ofKind k).common (.ofKind k)) := by
    rw [Program.Expr.type?, Name.type?_operand hv, Name.type?_operand hw, hvtype k hxkind,
      hwtype k hykind]
    rfl
  have hchosen : (if r.isTrue then a.operand else b.operand).eval vars u
      = some (if r.isTrue then v else w, u) := by
    split
    · exact Name.eval_operand hv u
    · exact Name.eval_operand hw u
  refine ⟨_, u, Program.Expr.eval_select htype (Name.eval_operand hr u) hchosen, fun s hs => ?_⟩
  have hskind := hs.valueKind hfit hm.phisFit
  have hsword := hs.isWord hfit hm.phisFit
  cases hkind.symm.trans hskind
  obtain ⟨_, ⟨cond, ⟨⟩, hcond⟩, _, ⟨⟩, hs⟩ := hs.gives hfit hm.phisFit hk
  have hvalue : (if r.isTrue then v else w) = .ofScalar s := by
    rw [hdenotes cond hcond, Program.isTrue_ofScalar (hcond.isWord hfit hm.phisFit)]
    cases htrue : cond.asBool with
    | true => rw [Value.asBool, htrue] at hs; exact hdenotes₁ s hs
    | false => rw [Value.asBool, htrue] at hs; exact hdenotes₂ s hs
  rw [hvalue]
  exact Program.convert_common hsword

theorem computes_sign (hk : g.kind? id = some (.operation (.normalizeCompare x y)))
    (hkind : g.valueKind id = .scalar k) (hx : t.Binds x a) (hy : t.Binds y b) :
    Computes g args t id k (.select (.binary .less a.operand b.operand)
      (.sign .neg (.literal (.int 1)))
      (.select (.binary .equal a.operand b.operand) (.literal (.int 0)) (.literal (.int 1)))) := by
  intro vars phis u hm
  obtain ⟨v, hv, -, hdenotes⟩ := hm.holds hx
  obtain ⟨w, hw, -, hdenotes'⟩ := hm.holds hy
  have hoperand u := Name.eval_operand hv u
  have hoperand' u := Name.eval_operand hw u
  obtain ⟨r₁, u₁, hless, -⟩ := Program.apply_isSome .less v w u
  obtain ⟨r₂, u₂, hequal, -⟩ := Program.apply_isSome .equal v w u₁
  have hinner : (Program.Expr.select (.binary .equal a.operand b.operand) (.literal (.int 0))
      (.literal (.int 1))).eval vars u₁ = some (if r₂.isTrue then .int 0 else .int 1, u₂) := by
    have hcondition := (Program.Expr.eval_binary (hoperand u₁) (hoperand' u₁)).trans hequal
    have hchosen : (if r₂.isTrue then Program.Expr.literal (.int 0) else .literal (.int 1)).eval
      vars u₂
        = some (if r₂.isTrue then .int 0 else .int 1, u₂) := by split <;> rfl
    refine (Program.Expr.eval_select rfl hcondition hchosen).trans ?_
    split <;> rfl
  have houter : (Program.Expr.select (.binary .less a.operand b.operand)
      (.sign .neg (.literal (.int 1)))
      (.select (.binary .equal a.operand b.operand) (.literal (.int 0)) (.literal (.int 1)))).eval
        vars u = some (if r₁.isTrue then .int (-1) else if r₂.isTrue then .int 0 else .int 1,
          if r₁.isTrue then u₁ else u₂) := by
    have hcondition := (Program.Expr.eval_binary (hoperand u) (hoperand' u)).trans hless
    have hchosen : (if r₁.isTrue then Program.Expr.sign .neg (.literal (.int 1)) else
        .select (.binary .equal a.operand b.operand) (.literal (.int 0)) (.literal (.int 1))).eval
          vars u₁ = some (if r₁.isTrue then .int (-1) else if r₂.isTrue then .int 0 else .int 1,
            if r₁.isTrue then u₁ else u₂) := by
      split
      · rfl
      · exact hinner
    refine (Program.Expr.eval_select rfl hcondition hchosen).trans ?_
    cases r₁.isTrue <;> cases r₂.isTrue <;> rfl
  refine ⟨_, _, houter, fun s hs => ?_⟩
  have hskind := hs.valueKind hfit hm.phisFit
  obtain ⟨_, _, ⟨m, ⟨⟩, hm'⟩, ⟨n, ⟨⟩, hn⟩, ⟨⟩⟩ := hs.gives hfit hm.phisFit hk
  cases hkind.symm.trans hskind
  have hagrees (op : CompareOp) := @Program.compare_agrees op m n (hm'.isWord hfit hm.phisFit)
    (hn.isWord hfit hm.phisFit)
  rw [hdenotes m hm', hdenotes' n hn] at hless hequal
  cases (hagrees .lt u).symm.trans hless
  cases (hagrees .eq u).symm.trans hequal
  rw [Host.sign]
  cases Host.satisfies .lt (.scalar m) (.scalar n) <;> cases Host.satisfies .eq (.scalar m)
    (.scalar n) <;> rfl

end Expressions

/-! ### Operands -/

/-- A lowering of values is right: it gives the name that it bound the node to. -/
def LowersValues (g : Graph) (args : List Host.Slot) (value : Values) : Prop :=
  ∀ {seen id o p x p'}, g.kind? id = some (.operation o) → g.Ready seen id →
    Named g seen p.symbols → value id p = .ok (x, p') →
    p'.symbols.nameOf? id = some x ∧ ∃ ps, Adds g args seen p ps p'

theorem Named.ne_illegal (ht : Named g seen t) (hb : t.Binds id a) : a ≠ .illegal := by
  rintro rfl
  cases (ht.used hb).reads

theorem operands_eq_ok {value : Values} (hvalue : LowersValues g args value) {ids : List NodeId}
    {p p' : Progress} {r : Option (List Name)}
    (hids : ∀ y ∈ ids, g.Ready seen y ∧ ∃ o, g.kind? y = some (.operation o))
    (ht : Named g seen p.symbols) (h : operands value ids p = .ok (r, p')) :
    ∃ names ps, r = some names ∧ List.Forall₂ p'.symbols.Binds ids names ∧
      Adds g args seen p ps p' := by
  induction ids generalizing p p' r with
  | nil =>
    cases Step.pure_eq_ok.1 h
    exact ⟨[], [], rfl, .nil, .refl ht⟩
  | cons y ids ih =>
    obtain ⟨⟨hready, o, ho⟩, hids⟩ := List.forall_mem_cons.1 hids
    obtain ⟨a, p₁, ha, h⟩ := Step.bind_eq_ok.1 h
    obtain ⟨hname, ps, hadds⟩ := hvalue ho hready ht ha
    have hbinds := SymbolTable.binds_of_nameOf? hname
    rw [if_neg (hadds.named.ne_illegal hbinds)] at h
    obtain ⟨r', p₂, hr, h⟩ := Step.bind_eq_ok.1 h
    obtain ⟨names, ps', rfl, hnames, hadds'⟩ := ih hids hadds.named hr
    cases Step.pure_eq_ok.1 h
    exact ⟨a :: names, ps ++ ps', rfl, .cons (hadds'.binds hbinds) hnames, hadds.trans hadds'⟩

/-! ### Operations -/

theorem unaryExpr_reads (ha : a.Reads a.operand) (op : UnaryOp) (k : ScalarKind) :
    ∃ ts, (unaryExpr op (some k) a).Reads ts (.sign (.ofUnary op k) a.operand) := by
  cases op with
  | neg => exact ⟨_, .neg ha⟩
  | not =>
    by_cases hk : k = .boolean
    · subst hk
      exact ⟨_, .not ha⟩
    · rw [unaryExpr, Sign.ofUnary, if_neg (by simpa using hk), if_neg hk]
      exact ⟨_, .complement ha⟩

theorem binaryExpr_eq {op : BinaryOp} (hop : op ≠ .ushr) (hk : k.isWord = true)
    (left : Option ScalarKind) : binaryExpr op k left a b = .binary op a b := by
  cases op with
  | ushr => exact absurd rfl hop
  | rem => cases k <;> cases hk <;> rfl
  | _ => rfl

section Operations

variable {site : Site} {lambdas : List Graph} {value : Values} {function : Functions}
variable {p p' : Progress}

theorem literal_of_isPlain {s : Scalar} (hs : s.isPlain = true) :
    (Name.literal (.ofScalar s)).Reads (.literal (.ofScalar s)) := by
  cases s with
  | int n => exact .int (of_decide_eq_true hs)
  | long n => exact .long (of_decide_eq_true hs)
  | boolean b => exact .bool b
  | _ => cases hs

theorem share_eq (id : NodeId) (h : p.symbols.nameOf? x = some a) :
    ∃ κ, share id x p = .ok ((), { p with symbols := p.symbols.bind a id κ }) := by
  refine ⟨(p.symbols.meaning? a).elim .illegal (·.kind), ?_⟩
  have hshare : p.symbols.share? id x
      = some (p.symbols.bind a id ((p.symbols.meaning? a).elim .illegal (·.kind))) := by
    rw [SymbolTable.share?, h]
    rfl
  change Except.ok ((), { p with symbols := (p.symbols.share? id x).getD p.symbols }) = _
  rw [hshare, Option.getD_some]

variable (hfit : Host.Fits site.graph args)
include hfit

theorem lowerOperation_adds (hvalue : LowersValues site.graph args value) {o : Operation}
    (hk : site.graph.kind? id = some (.operation o)) (hready : site.graph.Ready seen id)
    (ht : Named site.graph seen p.symbols)
    (h : lowerOperation site lambdas value function id o p = .ok (a, p')) :
    p'.symbols.nameOf? id = some a ∧ ∃ ps, Adds site.graph args seen p ps p' := by
  obtain ⟨k, hkind, hword⟩ := hfit.words.valueKind_word hfit.valid hk
  have ho : o.isOnWords = true := hfit.words.isOnWords hk
  have hinputs : ∀ y ∈ o.needs, site.graph.Ready seen y ∧
      ∃ o', site.graph.kind? y = some (.operation o') := fun y hy =>
    ⟨hready.operand hk hy, hfit.words.input hfit.valid hk (Operation.mem_inputs_of_mem_needs hy)⟩
  have hphi : o.isPhi = false → ¬ site.graph.IsPhi id := Graph.not_isPhi hk
  cases o with
  | parameter | phi => cases h
  | constant v =>
    cases v with
    | tuple vs => cases ho
    | scalar s =>
      have hl := literal_of_isPlain ho
      cases h
      refine ⟨by rw [SymbolTable.nameOf?_bind, if_pos rfl], [],
        .bind (ht.bind ⟨hl.eq_operand ▸ hl, nofun⟩
        (.inr hready) (absurd · (hphi rfl)) fun q hb hq => by obtain ⟨-, _, _, ⟨⟩⟩ := ht.phi hb hq)
          fun hm => ⟨.ofScalar s, ?_, fun k' hk' => ?_, ?_⟩⟩
      · rw [Name.value?, ← hl.eq_operand]
      · rw [hfit.words.valueKind_eq hk] at hk'
        cases hk'
        exact Val.ty_ofScalar s
      · intro s' hs'
        cases hs'.gives_leaf hk ⟨rfl, rfl⟩
        rfl
  | unary op x =>
    obtain ⟨r, p₁, hr, h⟩ := Step.bind_eq_ok.1 h
    obtain ⟨names, ps, rfl, hnames, hadds⟩ := operands_eq_ok hvalue hinputs ht hr
    obtain _ | ⟨hx, ⟨⟩⟩ := hnames
    obtain ⟨ts, he⟩ := unaryExpr_reads (hadds.named.used hx).reads op k
    have hscalar : (site.graph.valueKind id).scalar? = some k := by rw [hkind]; rfl
    rw [← hscalar] at he
    exact hadds.declare hready (hphi rfl) hkind hword he (computes_unary hfit hk hkind hx) h
  | binary op x y =>
    obtain ⟨r, p₁, hr, h⟩ := Step.bind_eq_ok.1 h
    obtain ⟨names, ps, rfl, hnames, hadds⟩ := operands_eq_ok hvalue hinputs ht hr
    obtain _ | ⟨hx, _ | ⟨hy, ⟨⟩⟩⟩ := hnames
    have ha := (hadds.named.used hx).reads
    have hb := (hadds.named.used hy).reads
    have hscalar : (site.graph.valueKind id).scalar? = some k := by rw [hkind]; rfl
    simp only [hscalar] at h
    by_cases hop : op = .ushr
    · subst hop
      exact hadds.declare hready (hphi rfl) hkind hword (.unsignedShift _ hword ha hb)
        (computes_unsignedShift hfit hk hkind hx hy) h
    · rw [binaryExpr_eq hop hword] at h
      exact hadds.declare hready (hphi rfl) hkind hword (.binary op ha hb)
        (computes_binary hfit hk hkind hop hx hy) h
  | compare op x y =>
    obtain ⟨r, p₁, hr, h⟩ := Step.bind_eq_ok.1 h
    obtain ⟨names, ps, rfl, hnames, hadds⟩ := operands_eq_ok hvalue hinputs ht hr
    obtain _ | ⟨hx, _ | ⟨hy, ⟨⟩⟩⟩ := hnames
    exact hadds.declare hready (hphi rfl) hkind hword
      (.compare op (hadds.named.used hx).reads (hadds.named.used hy).reads)
      (computes_compare hfit hk hkind hx hy) h
  | normalizeCompare x y =>
    obtain ⟨r, p₁, hr, h⟩ := Step.bind_eq_ok.1 h
    obtain ⟨names, ps, rfl, hnames, hadds⟩ := operands_eq_ok hvalue hinputs ht hr
    obtain _ | ⟨hx, _ | ⟨hy, ⟨⟩⟩⟩ := hnames
    exact hadds.declare hready (hphi rfl) hkind hword
      (.sign (hadds.named.used hx).reads (hadds.named.used hy).reads)
      (computes_sign hfit hk hkind hx hy) h
  | conditional c x y =>
    obtain ⟨r, p₁, hr, h⟩ := Step.bind_eq_ok.1 h
    obtain ⟨names, ps, rfl, hnames, hadds⟩ := operands_eq_ok hvalue hinputs ht hr
    obtain _ | ⟨hc, _ | ⟨hx, _ | ⟨hy, ⟨⟩⟩⟩⟩ := hnames
    exact hadds.declare hready (hphi rfl) hkind hword
      (.select (hadds.named.used hc).reads (hadds.named.used hx).reads (hadds.named.used hy).reads)
      (computes_conditional hfit hk hkind hc hx hy) h
  | convert target x =>
    obtain ⟨r, p₁, hr, h⟩ := Step.bind_eq_ok.1 h
    obtain ⟨names, ps, rfl, hnames, hadds⟩ := operands_eq_ok hvalue hinputs ht hr
    obtain _ | ⟨hx, ⟨⟩⟩ := hnames
    obtain ⟨k', hxkind, -⟩ :=
      hfit.words.valueKind_word hfit.valid (hinputs x (.head _)).2.choose_spec
    have hkind' : site.graph.valueKind id = .scalar target := by
      rw [hfit.words.valueKind_eq hk, Operation.valueKind, hxkind]
    exact hadds.declare hready (hphi rfl) hkind' ho (.cast ho (hadds.named.used hx).reads)
      (computes_convert hfit hk ho hx) h
  | relabel op x =>
    obtain ⟨hxready, o', ho'⟩ := hinputs x (.head _)
    obtain ⟨b, p₁, hb, h⟩ := Step.bind_eq_ok.1 h
    obtain ⟨hname, ps, hadds⟩ := hvalue ho' hxready ht hb
    have hx := SymbolTable.binds_of_nameOf? hname
    rw [if_neg (hadds.named.ne_illegal hx)] at h
    obtain ⟨κ, hshare⟩ := share_eq id hname
    obtain ⟨_, p₂, hshare', h⟩ := Step.bind_eq_ok.1 h
    cases hshare.symm.trans hshare'
    cases Step.pure_eq_ok.1 h
    refine ⟨by rw [SymbolTable.nameOf?_bind, if_pos rfl], ps ++ [], hadds.trans (.bind
      (hadds.named.bind (hadds.named.used hx) (.inr hready) (absurd · (hphi rfl))
        fun q hb hq => .operand hk (.head _) (hadds.named.uses hb hq hx)) fun hm => ?_)⟩
    obtain ⟨w, hw, htype, hdenotes⟩ := hm.holds hx
    refine ⟨w, hw, ?_, fun s hs => ?_⟩
    · rw [hfit.words.valueKind_eq hk]
      exact htype
    · obtain ⟨_, ⟨⟩, hs⟩ := hs.gives hfit hm.phisFit hk
      exact hdenotes s hs
  | _ => cases ho

theorem lowerNode_adds (hvalue : LowersValues site.graph args value) :
    LowersValues site.graph args (lowerNode site lambdas value function) := by
  intro seen id o p a p' hk hready ht h
  replace h := Step.after_ok rfl h
  cases hbound : p.symbols.nameOf? id with
  | some name =>
    rw [hbound] at h
    cases Step.pure_eq_ok.1 h
    exact ⟨hbound, [], .refl ht⟩
  | none =>
    rw [hbound] at h
    obtain ⟨kind, hkind, h⟩ := Step.lift_bind_eq_ok.1 h
    cases hk.symm.trans (Graph.kind_eq_ok_iff.1 hkind)
    replace h := Step.after_ok rfl h
    have hmarked : Adds site.graph args seen p [] _ := .mark ht (.operation o) id
    obtain ⟨hname, ps, hadds⟩ := lowerOperation_adds hfit hvalue hk hready hmarked.named h
    exact ⟨hname, ps, hmarked.trans hadds⟩

/-- The lowering of values, through any number of operands, is right. -/
theorem lowerValue_adds (depth : Nat) :
    LowersValues site.graph args (lowerValue site lambdas function depth) := by
  induction depth with
  | zero =>
    intro seen id o p a p' _ _ _ h
    cases h
  | succ depth ih => exact lowerNode_adds hfit ih

end Operations

end Kernelwright.Lowering
