import Kernelwright.Lowering.Control
import Kernelwright.Proofs.Host.Evaluation
import Kernelwright.Proofs.Lowering.Values

/-!
# Assigning phis

At the end of an arm, the host assigns all phis of the merge at once, while a program assigns their
variables one after the other. The two agree because no value of a phi can depend on another phi of
the same merge: the merge has not been met yet.
-/

namespace Kernelwright

open Code
open Program (Val Vars execAll)

/-! ### Assigning a variable -/

theorem Program.Vars.set?_eq_some {vars : Vars} {x : String} {w : Val} (v : Val)
    (h : vars.lookup x = some w) :
    ∃ vars', vars.set? x v = some vars' ∧ vars'.map Prod.fst = vars.map Prod.fst ∧
      vars'.lookup x = some (v.convert w.ty) ∧ ∀ y, y ≠ x → vars'.lookup y = vars.lookup y := by
  induction vars with
  | nil => cases h
  | cons e vars ih =>
    obtain ⟨y, w'⟩ := e
    by_cases hy : y = x
    · subst hy
      rw [List.lookup_cons_self] at h
      cases h
      refine ⟨(y, v.convert w.ty) :: vars, if_pos rfl, rfl, List.lookup_cons_self, fun z hz => ?_⟩
      rw [List.lookup_cons, List.lookup_cons, beq_false_of_ne hz]
    · have hne : (x == y) = false := beq_false_of_ne (Ne.symm hy)
      rw [List.lookup_cons, hne] at h
      obtain ⟨vars', hset, hkeys, hself, hother⟩ := ih h
      refine ⟨(y, w') :: vars', ?_, congrArg (y :: ·) hkeys, ?_, fun z hz => ?_⟩
      · rw [Vars.set?, if_neg hy, hset]
        rfl
      · rw [List.lookup_cons, hne]
        exact hself
      · rw [List.lookup_cons, List.lookup_cons, hother z hz]

namespace Lowering

variable {g : Graph} {args : List Host.Slot} {seen : List NodeId} {t : SymbolTable Name}
variable {vars : Vars} {phis : Host.Table}
variable {x : Name} {vars' : Vars} {phi m id : NodeId} {vs : List NodeId} {s : Scalar}
variable {p p' : Progress}

theorem value?_of_ne {role : Role} {n : Nat} (hx : x.Reads x.operand) (hne : x ≠ .fresh role n)
    (h : ∀ z, z ≠ (Name.fresh role n).text → vars'.lookup z = vars.lookup z) :
    x.value? vars' = x.value? vars := by
  generalize hp : x.operand = p at hx
  cases hx with
  | int | long | bool => rfl
  | parameter n' => exact h _ (Name.text_parameter_ne_fresh n' n role)
  | fresh role' n' =>
    refine h _ fun heq => hne ?_
    obtain ⟨rfl, rfl⟩ := Name.text_fresh_inj heq
    rfl

/-- What is bound to a name uses a phi whose merge has not been met only if it is that phi. -/
theorem Named.eq_of_uses (ht : Named g seen t) (hphi : g.kind? phi = some (.operation (.phi m vs)))
    (hm : m ∉ seen) (hb : t.Binds id x) (huses : g.Uses phi id) : id = phi := by
  obtain hid | hready := ht.ready hb
  · exact huses.eq_of_isPhi hid
  · exact absurd (hready phi m vs hphi huses) hm

theorem Holds.insert {slot : Host.Slot} (hfit : Host.Fits g args) (h : Holds g args vars phis id x)
    (hx : x.value? vars' = x.value? vars) (huses : ¬ g.Uses phi id) :
    Holds g args vars' (phis.insert phi slot) id x := by
  obtain ⟨w, hw, htype, hdenotes⟩ := h
  refine ⟨w, hx.trans hw, htype, fun s hs => hdenotes s (hs.transfer hfit fun q hq old hold => ?_)⟩
  have hne : q ≠ phi := by
    rintro rfl
    exact huses hq
  rwa [Host.Table.get?_insert_of_ne hne] at hold

theorem PhisFit.insert (h : Host.PhisFit g phis) (hkind : g.valueKind phi = .scalar s.kind) :
    Host.PhisFit g (phis.insert phi (.value (.scalar s))) := by
  intro q slot hq
  by_cases hne : q = phi
  · subst hne
    rw [Host.Table.get?_insert_self] at hq
    cases hq
    exact ⟨s, rfl, hkind⟩
  · rw [Host.Table.get?_insert_of_ne hne] at hq
    exact h q slot hq

section

variable (hfit : Host.Fits g args)
variable (h : Models g args t vars phis)
variable (ht : Named g seen t)
variable (hphi : g.kind? phi = some (.operation (.phi m vs)))
include hfit h ht hphi

theorem Models.assign {y : Name} (hm : m ∉ seen)
    (hname : t.nameOf? phi = some y) (hkind : g.valueKind phi = .scalar s.kind) :
    ∃ vars', vars.set? y.text (.ofScalar s) = some vars' ∧
      vars'.map Prod.fst = vars.map Prod.fst ∧
      Models g args t vars' (phis.insert phi (.value (.scalar s))) := by
  have hy := SymbolTable.binds_of_nameOf? hname
  obtain ⟨-, role, n, rfl⟩ := ht.phi hy ⟨m, vs, hphi⟩
  obtain ⟨w, hw, htype, -⟩ := h.holds hy
  obtain ⟨vars', hset, hkeys, hself, hother⟩ := Program.Vars.set?_eq_some (.ofScalar s) hw
  refine ⟨vars', hset, hkeys, fun {id x} hb => ?_, PhisFit.insert h.phisFit hkind⟩
  by_cases hx : x = .fresh role n
  · -- only the phi itself has this name
    subst hx
    cases ht.eq_of_uses hphi hm hb (ht.uses hy ⟨m, vs, hphi⟩ hb)
    have hvalue : (Val.ofScalar s).convert w.ty = .ofScalar s := by
      rw [htype _ hkind, ← Val.ty_ofScalar s, Val.convert_ty]
    rw [hvalue] at hself
    refine ⟨_, hself, fun k hk => ?_, fun s' hs' => ?_⟩
    · cases hkind.symm.trans hk
      exact Val.ty_ofScalar s
    · have hs' := hs'.gives_leaf hphi ⟨rfl, rfl⟩
      simp only [Host.Gives, Host.Table.get?_insert_self] at hs'
      cases hs'
      rfl
  · refine (h.holds hb).insert hfit (value?_of_ne (ht.used hb).reads hx hother) fun huses => hx ?_
    cases ht.eq_of_uses hphi hm hb huses
    exact Option.some.inj ((ht.phi hb ⟨m, vs, hphi⟩).1.symm.trans hname)

theorem Models.assign_unnamed (hm : m ∉ seen)
    (hname : t.nameOf? phi = none) (hkind : g.valueKind phi = .scalar s.kind) :
    Models g args t vars (phis.insert phi (.value (.scalar s))) := by
  refine ⟨fun {id x} hb => (h.holds hb).insert hfit rfl fun huses => ?_,
    PhisFit.insert h.phisFit hkind⟩
  cases ht.eq_of_uses hphi hm hb huses
  cases hname.symm.trans (ht.phi hb ⟨m, vs, hphi⟩).1

end

/-! ### The phis of a merge -/

/-- The statements that assign phis, as far as they have variables. -/
def phiStatements (t : SymbolTable Name) (pairs : List (NodeId × Name)) : List Stmt :=
  pairs.filterMap fun e => (t.nameOf? e.1).map fun y => .assign (.name y) (.place (.name e.2))

/-- The same as statements of a program. -/
def phiProgram (t : SymbolTable Name) (pairs : List (NodeId × Name)) : List Program.Stmt :=
  pairs.filterMap fun e => (t.nameOf? e.1).map fun y => .assign y.text e.2.operand

def Incoming (g : Graph) (seen : List NodeId) (t : SymbolTable Name) (stop : NodeId)
    (pairs : List (NodeId × Name)) : Prop :=
  ∀ e ∈ pairs, ∃ v, g.phiValueAt e.1 stop = .ok v ∧ g.Ready seen v ∧ t.Binds v e.2

variable {pairs : List (NodeId × Name)} {stop merge : NodeId}

theorem phiStatements_reads (ht : Named g seen t) (h : Incoming g seen t stop pairs) :
    ∃ ts, Stmt.Reads (phiStatements t pairs) ts (phiProgram t pairs) := by
  induction pairs with
  | nil => exact ⟨[], .nil⟩
  | cons e pairs ih =>
    obtain ⟨⟨v, hv, -, hb⟩, hrest⟩ := List.forall_mem_cons.1 h
    obtain ⟨ts, hreads⟩ := ih hrest
    obtain ⟨m, vs, hphi, -⟩ := Graph.phiValueAt_eq_ok hv
    unfold phiStatements phiProgram at hreads ⊢
    cases hname : t.nameOf? e.1 with
    | none => simpa only [List.filterMap_cons, hname, Option.map_none] using ⟨ts, hreads⟩
    | some y =>
      obtain ⟨-, role, n, rfl⟩ := ht.phi (SymbolTable.binds_of_nameOf? hname) ⟨m, vs, hphi⟩
      simp only [List.filterMap_cons, hname, Option.map_some]
      exact ⟨_, .assign (.fresh role n) (ht.used hb).reads hreads⟩

theorem assignPhis_eq_ok {u : Unit} (ht : Named g seen p.symbols)
    (hpairs : Incoming g seen p.symbols stop pairs) (h : assignPhis pairs p = .ok (u, p')) :
    p' = { p with block := (phiStatements p.symbols pairs).reverse ++ p.block } := by
  induction pairs generalizing p with
  | nil =>
    cases Step.pure_eq_ok.1 h
    rfl
  | cons e pairs ih =>
    obtain ⟨⟨v, -, -, hb⟩, hrest⟩ := List.forall_mem_cons.1 hpairs
    replace h := Step.after_ok rfl h
    unfold phiStatements at ih ⊢
    cases hname : p.symbols.nameOf? e.1 with
    | none =>
      rw [hname] at h
      rw [List.filterMap_cons, hname]
      exact ih ht hrest h
    | some y =>
      rw [hname] at h
      rw [List.filterMap_cons, hname, Option.map_some, List.reverse_cons, List.append_assoc]
      have hlegal : e.2 ≠ .illegal ∧ y ≠ .illegal :=
        ⟨ht.ne_illegal hb, ht.ne_illegal (SymbolTable.binds_of_nameOf? hname)⟩
      simp only [if_pos hlegal] at h
      replace h := Step.after_ok rfl h
      exact ih (p := { p with block := .assign (.name y) (.place (.name e.2)) :: p.block }) ht hrest
        h

theorem phiValues_eq_ok {site : Site} {value : Values} (hvalue : LowersValues site.graph args value)
    (hfit : Host.Fits site.graph args) (ht : Named site.graph seen p.symbols)
    (hready : ∀ phi ∈ site.graph.phisOf merge, ∀ v, site.graph.phiValueAt phi stop = .ok v →
      site.graph.Ready seen v)
    (h : phiValues site value merge stop p = .ok (pairs, p')) :
    pairs.map Prod.fst = site.graph.phisOf merge ∧
      Incoming site.graph seen p'.symbols stop pairs ∧ ∃ ps, Adds site.graph args seen p ps p' := by
  unfold phiValues at h
  generalize site.graph.phisOf merge = phis at h hready ⊢
  induction phis generalizing p pairs with
  | nil =>
    cases Step.pure_eq_ok.1 h
    exact ⟨rfl, nofun, [], .refl ht⟩
  | cons phi phis ih =>
    rw [List.mapM_cons] at h
    obtain ⟨e, p₁, he, h⟩ := Step.bind_eq_ok.1 h
    obtain ⟨rest, p₂, hrest, ⟨⟩⟩ := Step.bind_pure_eq_ok.1 h
    obtain ⟨v, hv, he⟩ := Step.lift_bind_eq_ok.1 he
    obtain ⟨x, p₃, hx, ⟨⟩⟩ := Step.bind_pure_eq_ok.1 he
    obtain ⟨m, vs, hphi, hmem⟩ := Graph.phiValueAt_eq_ok hv
    obtain ⟨o, ho⟩ := hfit.words.input hfit.valid hphi hmem
    obtain ⟨hvready, hready⟩ := List.forall_mem_cons.1 hready
    obtain ⟨hname, ps, hadds⟩ := hvalue ho (hvready v hv) ht hx
    obtain ⟨hkeys, hpairs, ps', hadds'⟩ := ih hadds.named hrest hready
    refine ⟨congrArg (phi :: ·) hkeys, List.forall_mem_cons.2 ⟨⟨v, hv, hvready v hv, ?_⟩, hpairs⟩,
      ps ++ ps', hadds.trans hadds'⟩
    exact hadds'.binds (SymbolTable.binds_of_nameOf? hname)

/-- A program that assigns the variables of the phis ends with what the host assigns. -/
theorem Models.assignAll (hfit : Host.Fits g args) (ht : Named g seen t) (hmerge : merge ∉ seen)
    (hpairs : Incoming g seen t stop pairs) {values : List (NodeId × Scalar)}
    (hkeys : values.map Prod.fst = pairs.map Prod.fst)
    (hphis : ∀ e ∈ pairs, ∃ vs, g.kind? e.1 = some (.operation (.phi merge vs)))
    (hvalues : ∀ e ∈ values, ∃ v, g.phiValueAt e.1 stop = .ok v ∧ Host.Denotes g args phis v e.2)
    (h : Models g args t vars phis) (u : Program.Unknown) :
    ∃ vars', execAll vars (phiProgram t pairs) u = some (.running vars', u) ∧
      vars'.map Prod.fst = vars.map Prod.fst ∧ Models g args t vars' (phis.assign values) := by
  induction pairs generalizing values vars phis with
  | nil =>
    cases List.map_eq_nil_iff.1 hkeys
    exact ⟨vars, rfl, rfl, h⟩
  | cons e pairs ih =>
    obtain ⟨phi, x⟩ := e
    obtain ⟨⟨phi', s⟩, values, rfl, hhead, htail⟩ := List.map_eq_cons_iff.1 hkeys
    cases hhead
    obtain ⟨⟨v, hv, hready, hb⟩, hpairs⟩ := List.forall_mem_cons.1 hpairs
    obtain ⟨⟨vs, hphi⟩, hphis⟩ := List.forall_mem_cons.1 hphis
    obtain ⟨⟨v', hv', hs⟩, hvalues⟩ := List.forall_mem_cons.1 hvalues
    cases hv.symm.trans hv'
    have hkind : g.valueKind phi = .scalar s.kind := by
      obtain ⟨m, vs', hphi', hmem⟩ := Graph.phiValueAt_eq_ok hv
      rw [← hfit.words.valueKind_choice hphi' hmem]
      exact hs.valueKind hfit h.phisFit
    -- the values that are still to come do not use the phi that is assigned now
    have hvalues' : ∀ e ∈ values, ∃ v, g.phiValueAt e.1 stop = .ok v ∧
        Host.Denotes g args (phis.insert phi (.value (.scalar s))) v e.2 := by
      intro e he
      obtain ⟨v', hv', hs'⟩ := hvalues e he
      obtain ⟨pair, hpair, heq⟩ := List.mem_map.1 (htail ▸ List.mem_map_of_mem he)
      obtain ⟨v'', hv'', hready'', -⟩ := hpairs pair hpair
      rw [heq] at hv''
      cases hv'.symm.trans hv''
      refine ⟨v', hv', hs'.transfer hfit fun q hq slot hslot => ?_⟩
      have hne : q ≠ phi := by
        rintro rfl
        exact hmerge (hready'' _ _ _ hphi hq)
      rwa [Host.Table.get?_insert_of_ne hne]
    unfold phiProgram at ih ⊢
    cases hname : t.nameOf? phi with
    | none =>
      simp only [List.filterMap_cons, hname, Option.map_none]
      have hmodels := h.assign_unnamed hfit ht hphi hmerge hname hkind
      obtain ⟨vars', hexec, hkeys', hmodels⟩ := ih hpairs htail hphis hvalues' hmodels
      exact ⟨vars', hexec, hkeys', hmodels⟩
    | some y =>
      simp only [List.filterMap_cons, hname, Option.map_some]
      obtain ⟨w, hw, -, hdenotes⟩ := h.holds hb
      cases hdenotes s hs
      obtain ⟨vars₁, hset, hkeys₁, hmodels⟩ := h.assign hfit ht hphi hmerge hname hkind
      obtain ⟨vars₂, hexec, hkeys₂, hmodels⟩ := ih hpairs htail hphis hvalues' hmodels
      refine ⟨vars₂, ?_, hkeys₂.trans hkeys₁, hmodels⟩
      rw [Program.execAll_assign (Name.eval_operand hw u) hset, hexec]

end Lowering

end Kernelwright
