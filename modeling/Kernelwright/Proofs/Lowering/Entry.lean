import Kernelwright.Proofs.Lowering.FunctionSignature
import Kernelwright.Proofs.Lowering.Straight

/-!
# The start of a function

A function starts with a variable for each parameter and reserves one for each phi of a merge. The
parameters are numbered as the host numbers its arguments. A reserved variable has no value to agree
with yet, as no phi denotes anything before its merge is met.
-/

namespace Kernelwright.Lowering

open Code
open Program (Ty Val Vars execAll bindParams)

variable {g : Graph} {ss : List Scalar} {ps : List Graph.Parameter}
variable {p : Graph.Parameter} {phi : NodeId} {k : ScalarKind}

/-! ### Signatures -/

def scalarParameters (ps : List Graph.Parameter) (ss : List Scalar) : List Parameter :=
  ps.zipWith (fun p s => .byValue (.scalar s.kind) (.parameter p.index.toNat)) ss

theorem stated_scalars {blocks : List (List Parameter)} (h : List.Forall₂ Stated ps blocks)
    (htypes : ps.map (·.type) = ss.map fun a => .scalar a.kind) :
    blocks.flatten = scalarParameters ps ss ∧ dimensionsOf ps = [] := by
  induction h generalizing ss with
  | nil => exact ⟨rfl, rfl⟩
  | cons hblock _ ih =>
    cases ss with
    | nil => cases htypes
    | cons a ss =>
      obtain ⟨htype, htypes⟩ := List.cons.inj htypes
      obtain ⟨hflatten, hdimensions⟩ := ih htypes
      refine ⟨?_, ?_⟩
      · rw [List.flatten_cons, hblock.scalar _ htype, hflatten]
        rfl
      · simpa [dimensionsOf, htype, ParameterType.isArray] using hdimensions

/-! ### Variables of a call -/

def readParameters (ps : List Graph.Parameter) (ss : List Scalar) (guards : Bool) :
    List Program.Param :=
  ps.zipWith (fun p s => .value (.ofKind s.kind) (Name.parameter p.index.toNat).text) ss
    ++ if guards then [.pointer "deoptFlag"] else []

/-- The variables that a call begins with. -/
def parameterVars (ps : List Graph.Parameter) (ss : List Scalar) : Vars :=
  ps.zipWith (fun p s => ((Name.parameter p.index.toNat).text, .ofScalar s)) ss

theorem map_fst_parameterVars (hlength : ps.length = ss.length) :
    (parameterVars ps ss).map Prod.fst = ps.map fun p => (Name.parameter p.index.toNat).text := by
  induction ps generalizing ss with
  | nil => rfl
  | cons p ps ih =>
    cases ss with
    | nil => cases hlength
    | cons s ss => exact congrArg _ (ih (Nat.succ.inj hlength))

theorem lookup_of_mem {vars : Vars} (hnodup : (vars.map Prod.fst).Nodup) {x : String} {v : Val}
    (h : (x, v) ∈ vars) : vars.lookup x = some v := by
  induction vars with
  | nil => cases h
  | cons e vars ih =>
    obtain ⟨hne, hnodup⟩ := List.nodup_cons.1 hnodup
    obtain rfl | h := List.mem_cons.1 h
    · exact List.lookup_cons_self
    · have hx : (x == e.1) = false := by
        rw [beq_eq_false_iff_ne]
        rintro rfl
        exact hne (List.mem_map.2 ⟨_, h, rfl⟩)
      rw [List.lookup_cons, hx]
      exact ih hnodup h

theorem scalarParameters_reads (ps : List Graph.Parameter)
    (hwords : ∀ s ∈ ss, s.kind.isWord = true) (guards : Bool) :
    ∃ us, Parameter.Reads (scalarParameters ps ss ++ flagParameter guards) us
      (readParameters ps ss guards) := by
  have hflag : ∃ us, Parameter.Reads (flagParameter guards) us
      (if guards then [.pointer "deoptFlag"] else []) := by
    cases guards with
    | false => exact ⟨_, .nil⟩
    | true => exact ⟨_, .flag⟩
  induction ps generalizing ss with
  | nil => exact hflag
  | cons p ps ih =>
    cases ss with
    | nil => exact hflag
    | cons s ss =>
      have hs := hwords s (.head _)
      obtain ⟨us, hrest⟩ := ih fun a ha => hwords a (.tail _ ha)
      have hcons : ∀ {qs : List Parameter} {rs}, Parameter.Reads qs us rs →
          ∃ us, Parameter.Reads (.byValue (.scalar s.kind) (.parameter p.index.toNat) :: qs) us
            (.value (.ofKind s.kind) (Name.parameter p.index.toNat).text :: rs) := by
        intro qs rs hqs
        cases hqs with
        | nil => exact ⟨_, .last hs (.parameter _)⟩
        | flag => exact ⟨_, .cons hs (.parameter _) .flag⟩
        | last hk hx => exact ⟨_, .cons hs (.parameter _) (.last hk hx)⟩
        | cons hk hx h => exact ⟨_, .cons hs (.parameter _) (.cons hk hx h)⟩
      exact hcons hrest

theorem bindParams_readParameters (hlength : ps.length = ss.length) (guards : Bool) :
    bindParams (readParameters ps ss guards) (ss.map .ofScalar) = some (parameterVars ps ss) := by
  induction ps generalizing ss with
  | nil =>
    cases List.length_eq_zero_iff.1 hlength.symm
    cases guards <;> rfl
  | cons p ps ih =>
    cases ss with
    | nil => cases hlength
    | cons s ss =>
      have hconvert : (Val.ofScalar s).convert (.ofKind s.kind) = .ofScalar s := by
        rw [← Val.ty_ofScalar, Val.convert_ty]
      have hrest := ih (Nat.succ.inj hlength)
      simp only [readParameters, List.zipWith_cons_cons, List.cons_append, List.map_cons,
        bindParams, hconvert, parameterVars] at hrest ⊢
      rw [hrest]
      rfl

/-! ### Arguments -/

section Arguments

variable (hg : g.Valid) (hwords : g.OnWords)
variable (htypes : g.parameters.map (·.type) = ss.map fun a => .scalar a.kind)

include hwords htypes

theorem argument_of_mem (hp : p ∈ g.parameters) :
    ∃ s, ss[p.index.toNat]? = some s ∧ p.type = .scalar s.kind := by
  have htype : (ss.map fun a => ParameterType.scalar a.kind)[p.index.toNat]? = some p.type := by
    rw [← htypes, List.getElem?_map, hwords.getElem?_parameters hp]
    rfl
  rw [List.getElem?_map, Option.map_eq_some_iff] at htype
  obtain ⟨s, hs, htype⟩ := htype
  exact ⟨s, hs, htype.symm⟩

include hg

theorem fits_of_types : Host.Fits g (Host.scalarSlots ss) where
  valid := hg
  words := hwords
  scalar := by simp
  kind {id index type s} hk harg := by
    have hp : (⟨id, index, type⟩ : Graph.Parameter) ∈ g.parameters := hg.mem_parameters.2 hk
    obtain ⟨a, ha, htype⟩ := argument_of_mem hwords htypes hp
    rw [List.getElem?_map, ha] at harg
    cases harg
    exact htype

theorem isWord_of_types {s : Scalar} (hs : s ∈ ss) : s.kind.isWord = true := by
  have htype : ParameterType.scalar s.kind ∈ g.parameters.map (·.type) := by
    rw [htypes]
    exact List.mem_map_of_mem hs
  obtain ⟨p, hp, htype⟩ := List.mem_map.1 htype
  have hword := hwords.isOnWords (hg.mem_parameters.1 hp)
  rw [htype] at hword
  exact hword

omit hg in
theorem nodup_parameterVars : ((parameterVars g.parameters ss).map Prod.fst).Nodup := by
  have hlength : g.parameters.length = ss.length := by
    simpa using congrArg List.length htypes
  have hnames : g.parameters.map (fun p => (Name.parameter p.index.toNat).text)
      = (List.range g.parameters.length).map fun i => (Name.parameter i).text := by
    rw [← hwords.parameters, List.map_map]
    rfl
  rw [map_fst_parameterVars hlength, hnames, List.Nodup, List.pairwise_map]
  exact List.nodup_range.imp fun hne heq => hne (Name.text_parameter_inj heq)

theorem holds_parameterVars (hp : p ∈ g.parameters) (phis : Host.Table) :
    Holds g (Host.scalarSlots ss) (parameterVars g.parameters ss) phis p.node
      (.parameter p.index.toNat) := by
  have hkind := hg.mem_parameters.1 hp
  obtain ⟨s, hs, htype⟩ := argument_of_mem hwords htypes hp
  refine ⟨.ofScalar s, ?_, fun k hk => ?_, fun a ha => ?_⟩
  · refine lookup_of_mem (nodup_parameterVars hwords htypes) 
      (List.mem_of_getElem? (i := p.index.toNat) ?_)
    rw [parameterVars, List.getElem?_zipWith, hwords.getElem?_parameters hp, hs]
  · rw [hwords.valueKind_eq hkind, htype] at hk
    cases hk
    exact Val.ty_ofScalar s
  · have harg : (Host.scalarSlots ss)[p.index.toNat]?
        = some (.value (.scalar a)) := ha.gives_leaf hkind ⟨rfl, rfl⟩
    rw [List.getElem?_map, hs] at harg
    cases harg
    rfl

theorem bindParameters_binds :
    Named g [] (bindParameters .empty g.parameters) ∧
      Models g (Host.scalarSlots ss) (bindParameters .empty g.parameters)
        (parameterVars g.parameters ss) [] ∧
      ∀ {q x}, g.IsPhi q → ¬ (bindParameters .empty g.parameters).Binds q x := by
  have hnone {id : NodeId} {x : Name} : ¬ (SymbolTable.empty (ν := Name)).Binds id x := by
    simp [SymbolTable.Binds, SymbolTable.empty, SymbolTable.scopes, Scope.empty]
  refine List.foldlRecOn (motive := fun t => Named g [] t ∧ Models g _ t _ [] ∧
    ∀ {q x}, g.IsPhi q → ¬ t.Binds q x) g.parameters _ ?_ ?_
  · exact ⟨⟨fun hb => absurd hb hnone, fun hb => absurd hb hnone, fun hb => absurd hb hnone,
      fun hb => absurd hb hnone⟩, ⟨fun hb => absurd hb hnone, Host.phisFit_nil g⟩,
      fun _ => hnone⟩
  · rintro t ⟨hnamed, hmodels, hphis⟩ p hp
    have hkind := hg.mem_parameters.1 hp
    have hphi : ¬ g.IsPhi p.node := Graph.not_isPhi hkind rfl
    have hready : g.Ready [] p.node := .of_needs_eq_nil hkind rfl rfl
    refine ⟨hnamed.bind (Name.used_parameter _ _) (.inr hready) (fun h => absurd h hphi) ?_,
      hmodels.bind (holds_parameterVars hg hwords htypes hp []), fun hq hb => ?_⟩
    · exact fun q hb hq => absurd hb (hphis hq)
    · obtain ⟨rfl, -⟩ | hb := SymbolTable.binds_bind.1 hb
      · exact hphi hq
      · exact hphis hq hb

end Arguments

/-! ### Phis -/

/-- Lowering reserved variables for phis. As long as no phi has a value, the new bindings are right
whatever these hold. -/
structure Reserves (g : Graph) (args : List Host.Slot) (p : Progress) (ps : List Program.Stmt)
    (p' : Progress) : Prop extends Writes p ps p' where
  unreturned : Open p.block → Open p'.block
  merges : p'.merges = p.merges
  named : Named g [] p'.symbols
  runs : ∀ {vars} u, Models g args p.symbols vars [] →
    ∃ vars' u', execAll vars ps u = some (.running vars', u') ∧ Models g args p'.symbols vars' []

def Progress.reserve (p : Progress) (phi : NodeId) (k : ScalarKind) : Progress :=
  { p with
    symbols := { p.symbols with counter := p.symbols.counter + 1 }.bind
      (.fresh .phi p.symbols.counter) phi (.scalar k)
    block := .reserve (.scalar k) (.fresh .phi p.symbols.counter) :: p.block }

variable {args : List Host.Slot} {p p' : Progress}

theorem Reserves.cons {ps : List Program.Stmt} (hphi : g.IsPhi phi) (hk : k.isWord = true)
    (hkind : g.valueKind phi = .scalar k) (ht : Named g [] p.symbols)
    (h : Reserves g args (p.reserve phi k) ps p') :
    Reserves g args p
      (.declare (.ofKind k) (Name.fresh .phi p.symbols.counter).text none :: ps) p' where
  toWrites := by
    have hreserve : Writes p [_] (p.reserve phi k) :=
      ⟨⟨[_], _, rfl, .reserve hk (.fresh .phi _) .nil⟩, rfl, SymbolTable.tail_scopes_bind,
        by rw [Progress.reserve, SymbolTable.counter_bind]; exact Nat.le_succ _⟩
    exact hreserve.trans h.toWrites
  unreturned _ := h.unreturned nofun
  merges := h.merges
  named := h.named
  runs {vars} u hmodels := by
    rw [Program.execAll_reserve]
    refine h.runs _ (hmodels.bindFresh ht .phi (fun k' hk' => ?_) fun s hs => ?_)
    · cases hkind.symm.trans hk'
      exact Val.ty_ofInt _ _
    · obtain ⟨m, vs, hphi⟩ := hphi
      cases hs.gives_leaf hphi ⟨rfl, rfl⟩

theorem reserve_all {qs : List NodeId} {act : NodeId → Lower Unit}
    (hact : ∀ q ∈ qs, g.IsPhi q ∧ ∃ k, k.isWord = true ∧ g.valueKind q = .scalar k ∧
      ∀ p, act q p = .ok ((), p.reserve q k))
    (hnodup : qs.Nodup) (ht : Named g [] p.symbols)
    (hunbound : ∀ q ∈ qs, ∀ x, ¬ p.symbols.Binds q x) (h : qs.forM act p = .ok ((), p')) :
    ∃ ps, Reserves g args p ps p' := by
  induction qs generalizing p with
  | nil =>
    cases h
    exact ⟨[], ⟨⟨[], [], rfl, .nil⟩, rfl, rfl, Nat.le_refl _⟩, id, rfl, ht,
      fun {vars} u hm => ⟨vars, u, rfl, hm⟩⟩
  | cons q qs ih =>
    obtain ⟨hq, hnodup⟩ := List.nodup_cons.1 hnodup
    obtain ⟨hphi, k, hk, hkind, heq⟩ := hact q (.head _)
    obtain ⟨_, p₁, h₁, h⟩ := Step.bind_eq_ok.1 h
    cases (heq p).symm.trans h₁
    have ht₁ : Named g [] (p.reserve q k).symbols :=
      ht.bindFresh (.inl hphi) (fun _ => hunbound q (.head _)) .phi
    have hunbound₁ : ∀ q' ∈ qs, ∀ x, ¬ (p.reserve q k).symbols.Binds q' x := by
      intro q' hq' x hb
      obtain ⟨rfl, -⟩ | hb := SymbolTable.binds_bind.1 hb
      · exact hq hq'
      · exact hunbound q' (.tail _ hq') x hb
    obtain ⟨ps, hps⟩ := ih (fun q' hq' => hact q' (.tail _ hq')) hnodup ht₁ hunbound₁ h
    exact ⟨_, hps.cons hphi hk hkind ht⟩

theorem declareMergePhis_eq_ok (hfit : Host.Fits g args) (ht : Named g [] p.symbols)
    (hunbound : ∀ {q x}, g.IsPhi q → ¬ p.symbols.Binds q x)
    (h : declareMergePhis g p = .ok ((), p')) : ∃ ps, Reserves g args p ps p' := by
  have hphi {q : NodeId} (hq : q ∈ g.mergePhis) : g.IsPhi q := hfit.valid.phi_of_mem_mergePhis hq
  refine reserve_all (fun q hq => ⟨hphi hq, ?_⟩) hfit.valid.nodup_mergePhis ht
    (fun q hq x => hunbound (hphi hq)) h
  obtain ⟨m, vs, hk⟩ := hphi hq
  obtain ⟨k, hkind, hword⟩ := hfit.words.valueKind_word hfit.valid hk
  refine ⟨k, hword, hkind, fun p => ?_⟩
  rw [hkind]
  rfl

/-! ### Bodies -/

theorem forM_emit {α : Type} (f : α → Stmt) (xs : List α) (p : Progress) :
    xs.forM (fun x => emit (f x)) p = .ok
      ((), { p with block := (xs.map f).reverse ++ p.block }) := by
  induction xs generalizing p with
  | nil => rfl
  | cons x xs ih =>
    rw [List.map_cons, List.reverse_cons, List.append_assoc]
    exact ih { p with block := f x :: p.block }

/-- A body has the dimensions of the arrays, the variables of the merges, what opens it and the text
of the walk. -/
theorem lowerBody_eq_ok {site : Site} {lambdas : List Graph} {function : Functions}
    {dimensions : List Name} {opening : List Stmt} {p p' : Progress}
    (h : lowerBody site lambdas function dimensions opening p = .ok ((), p')) :
    ∃ p₁ start x, declareMergePhis site.graph
        { p with block := (dimensions.map Stmt.dimension).reverse ++ p.block } = .ok ((), p₁) ∧
      site.graph.start = .ok start ∧
      lowerWalk site (lowerValue site lambdas function (valueDepth site.graph))
        (walkLength site.graph)
        start { p₁ with block := opening.reverse ++ p₁.block } = .ok (x, p') := by
  obtain ⟨_, p₁, hdimensions, h⟩ := Step.bind_eq_ok.1 h
  cases (forM_emit .dimension dimensions p).symm.trans hdimensions
  obtain ⟨_, p₂, hphis, h⟩ := Step.bind_eq_ok.1 h
  obtain ⟨_, p₃, hopening, h⟩ := Step.bind_eq_ok.1 h
  have hopens := forM_emit id opening p₂
  rw [List.map_id] at hopens
  cases hopens.symm.trans hopening
  obtain ⟨start, hstart, h⟩ := Step.lift_bind_eq_ok.1 h
  obtain ⟨⟨x, p₃⟩, hwalk, h⟩ := bind_eq_ok.1 h
  cases h
  exact ⟨p₂, start, x, hphis, hstart, hwalk⟩

/-- The function of a graph has the parameters of its signature, and stands behind the functions
that its lowering gathers. -/
theorem lowerFunction_eq_ok {lambdas : List Graph} {guards : Bool}
    {function : Functions} {b : Bundle} (h : lowerFunction lambdas guards g function = .ok b) :
    ∃ result structs s p, CType.ofKind? g.returnKind = some result ∧
      Signature.ofFunction g structs guards = .ok s ∧
      lowerBody (s.site g .function guards) lambdas function s.dimensions []
        (.start s.symbols s.structs) = .ok ((), p) ∧
      b = ⟨p.functions ++ [⟨.function result (functionName g.name), s.parameters, p.body⟩],
        p.structs, p.diagnostics⟩ := by
  unfold lowerFunction at h
  split at h
  · cases h
  · next result hresult =>
    obtain ⟨s, hs, h⟩ := bind_eq_ok.1 h
    obtain ⟨⟨_, p⟩, hbody, h⟩ := bind_eq_ok.1 h
    cases h
    exact ⟨result, _, s, p, hresult, hs, hbody, rfl⟩

end Kernelwright.Lowering
