import Kernelwright.Lowering.Value
import Kernelwright.Proofs.Lowering.Naming
import Kernelwright.Proofs.Program.Execution

/-!
# Straight-line lowering

The lowering of values adds declarations to the current block and binds nodes to the declared
variables. `Adds` says what such a stretch of lowering does, to the bindings and to a program that
runs the statements; stretches follow one another.
-/

namespace Kernelwright.Lowering

open Code
open Program (Ty Val Vars execAll)

variable {g : Graph} {args : List Host.Slot} {seen : List NodeId} {p p' p'' : Progress}
variable {ps ps' : List Program.Stmt} {id : NodeId} {k : ScalarKind} {x : Name}

/-- Lowering wrote statements that are read as `ps`, and changed only the innermost scope. -/
structure Writes (p : Progress) (ps : List Program.Stmt) (p' : Progress) : Prop where
  block : ∃ ss ts, p'.block = ss.reverse ++ p.block ∧ Stmt.Reads ss ts ps
  functions : p'.functions = p.functions
  scopes : p'.symbols.scopes.tail = p.symbols.scopes.tail
  counter : p.symbols.counter ≤ p'.symbols.counter

theorem Writes.trans (h : Writes p ps p') (h' : Writes p' ps' p'') : Writes p (ps ++ ps') p'' where
  block := by
    obtain ⟨ss, ts, hblock, hreads⟩ := h.block
    obtain ⟨ss', ts', hblock', hreads'⟩ := h'.block
    exact ⟨ss ++ ss', ts ++ ts', by rw [hblock', hblock]; simp, hreads.append hreads'⟩
  functions := h'.functions.trans h.functions
  scopes := h'.scopes.trans h.scopes
  counter := Nat.le_trans h.counter h'.counter

/-- The block has not just returned. -/
def Open (block : List Stmt) : Prop := ∀ v, Stmt.last? block ≠ some (.ret v)

/-- No node lost its name, and running `ps` declares variables so that the new bindings are right as
well. -/
structure Adds (g : Graph) (args : List Host.Slot) (seen : List NodeId) (p : Progress)
    (ps : List Program.Stmt) (p' : Progress) : Prop extends Writes p ps p' where
  unreturned : Open p.block → Open p'.block
  merges : p'.merges = p.merges
  binds : ∀ {id x}, p.symbols.Binds id x → p'.symbols.Binds id x
  named : Named g seen p'.symbols
  runs : ∀ {vars phis} u, Models g args p.symbols vars phis →
    ∃ new u', execAll vars ps u = some (.running (new ++ vars), u') ∧
      Fresh p.symbols.counter new ∧ Models g args p'.symbols (new ++ vars) phis

namespace Adds

theorem refl (h : Named g seen p.symbols) : Adds g args seen p [] p where
  block := ⟨[], [], rfl, .nil⟩
  functions := rfl
  scopes := rfl
  counter := Nat.le_refl _
  unreturned h := h
  merges := rfl
  binds hb := hb
  named := h
  runs u hm := ⟨[], u, rfl, nofun, hm⟩

theorem trans (h : Adds g args seen p ps p') (h' : Adds g args seen p' ps' p'') :
    Adds g args seen p (ps ++ ps') p'' where
  toWrites := h.toWrites.trans h'.toWrites
  unreturned hp := h'.unreturned (h.unreturned hp)
  merges := h'.merges.trans h.merges
  binds hb := h'.binds (h.binds hb)
  named := h'.named
  runs u hm := by
    obtain ⟨new, u₁, hexec, hnew, hm⟩ := h.runs u hm
    obtain ⟨new', u₂, hexec', hnew', hm⟩ := h'.runs u₁ hm
    refine ⟨new' ++ new, u₂, ?_, (hnew'.mono h.counter).append hnew, by rwa [List.append_assoc]⟩
    rw [Program.execAll_append_running hexec, hexec', List.append_assoc]

theorem mark (h : Named g seen p.symbols) (kind : NodeKind) (node : NodeId) :
    Adds g args seen p [] { p with block := .mark kind.name node :: p.block } :=
  { refl h with block := ⟨[.mark kind.name node], [], rfl, .mark .nil⟩ }

theorem bind {κ : ValueKind} (h : Named g seen (p.symbols.bind x id κ))
    (hx : ∀ {vars phis}, Models g args p.symbols vars phis → Holds g args vars phis id x) :
    Adds g args seen p [] { p with symbols := p.symbols.bind x id κ } where
  block := ⟨[], [], rfl, .nil⟩
  functions := rfl
  unreturned h := h
  merges := rfl
  scopes := SymbolTable.tail_scopes_bind
  counter := Nat.le_of_eq SymbolTable.counter_bind.symm
  binds hb := SymbolTable.binds_bind.2 (.inr hb)
  named := h
  runs u hm := ⟨[], u, rfl, nofun, hm.bind (hx hm)⟩

end Adds

/-! ### Declarations -/

/-- An expression computes what a node denotes; it has some value in any case. -/
def Computes (g : Graph) (args : List Host.Slot) (t : SymbolTable Name) (id : NodeId)
    (k : ScalarKind) (e : Program.Expr) : Prop :=
  ∀ {vars phis} u, Models g args t vars phis → ∃ w u', e.eval vars u = some (w, u') ∧
    ∀ s, Host.Denotes g args phis id s → w.convert (.ofKind k) = .ofScalar s

theorem Adds.declare (hadds : Adds g args seen p ps p') (hready : g.Ready seen id)
    (hphi : ¬ g.IsPhi id) (hkind : g.valueKind id = .scalar k) (hk : k.isWord = true) {role : Role}
    {e : Expr} {es : List Program.Token} {q : Program.Expr} (he : e.Reads es q)
    (hq : Computes g args p'.symbols id k q)
    (h : declare id role (g.valueKind id) e p' = .ok (x, p'')) :
    p''.symbols.nameOf? id = some x ∧ ∃ ps, Adds g args seen p ps p'' := by
  rw [hkind] at h
  cases h
  have ht := hadds.named
  refine ⟨by rw [SymbolTable.nameOf?_bind, if_pos rfl], ps ++
    [.declare (.ofKind k) (Name.fresh role p'.symbols.counter).text (some q)], hadds.trans ?_⟩
  exact {
    block := ⟨[_], _, rfl, .declare hk (.fresh role _) he .nil⟩
    functions := rfl
    unreturned := fun _ => nofun
    merges := rfl
    scopes := SymbolTable.tail_scopes_bind
    counter := by rw [SymbolTable.counter_bind]; exact Nat.le_succ _
    binds := fun hb => SymbolTable.binds_bind.2 (.inr hb)
    named := ht.bindFresh (.inr hready) (fun h => absurd h hphi) role
    runs := by
      intro vars phis u hm
      obtain ⟨w, u', heval, hw⟩ := hq u hm
      refine ⟨[_], u', Program.execAll_declare heval [], ?_, hm.bindFresh ht role ?_ hw⟩
      · intro y hy
        cases List.mem_singleton.1 hy
        exact ⟨role, _, Nat.le_refl _, rfl⟩
      · intro k' hk'
        cases hkind.symm.trans hk'
        exact Val.ty_convert _ _ }

end Kernelwright.Lowering
