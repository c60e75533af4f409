import Kernelwright.Proofs.Code.Symbols
import Kernelwright.Proofs.Host.Denotation

/-!
# Names and what they hold

Lowering binds the nodes of a graph to names. `Named` is what it keeps true of the bindings,
whatever values there are. `Models` relates bindings to the variables of a running program: a name
holds the value that its node denotes, if the node denotes one, since a program computes both sides
of a choice.
-/

namespace Kernelwright

open Code
open Program (Ty Val Vars)

variable {p : Program.Expr} {w : Val} {c c' : Nat} {new : Vars}

/-! ### Operands -/

def Code.Name.operand : Name → Program.Expr
  | .literal (.int n) => .literal (.int (.ofInt n))
  | .literal (.long n) => .literal (.long n)
  | .literal (.bool b) => .literal (.bool b)
  | x => .var x.text

namespace Code.Name

variable {x : Name} {vars : Vars}

theorem Reads.eq_operand (h : x.Reads p) : p = x.operand := by
  cases h with
  | int h => rw [operand, Int32.ofInt_toInt]
  | _ => rfl

def value? (vars : Vars) (x : Name) : Option Val :=
  match x.operand with
  | .literal v => some v
  | .var y => vars.lookup y
  | _ => none

theorem eval_operand (h : x.value? vars = some w) (u : Program.Unknown) :
    x.operand.eval vars u = some (w, u) := by
  unfold value? at h
  split at h
  · rename_i heq
    cases h
    rw [heq]
    rfl
  · rename_i y heq
    rw [heq, Program.Expr.eval, h]
    rfl
  · cases h

theorem type?_operand (h : x.value? vars = some w) : x.operand.type? vars = some w.ty := by
  unfold value? at h
  split at h
  · rename_i heq
    cases h
    rw [heq]
    rfl
  · rename_i y heq
    rw [heq, Program.Expr.type?, h]
    rfl
  · cases h

/-- A name is in use when the next fresh number is `c`: it can be read, and was made before. -/
structure Used (c : Nat) (x : Name) : Prop where
  reads : x.Reads x.operand
  below : ∀ role n, x = .fresh role n → n < c

theorem Used.mono (h : c ≤ c') (hx : x.Used c) : x.Used c' :=
  ⟨hx.reads, fun role n hn => Nat.lt_of_lt_of_le (hx.below role n hn) h⟩

theorem used_parameter (c n : Nat) : (parameter n).Used c :=
  ⟨.parameter n, nofun⟩

end Code.Name

/-- Variables that were declared when the next fresh number was `c` or a later one. -/
def Fresh (c : Nat) (vars : Vars) : Prop :=
  ∀ y ∈ vars.map Prod.fst, ∃ role n, c ≤ n ∧ y = (Name.fresh role n).text

theorem Fresh.append {vars vars' : Vars} (h : Fresh c vars) (h' : Fresh c vars') :
    Fresh c (vars ++ vars') := by
  intro y hy
  rw [List.map_append, List.mem_append] at hy
  exact hy.elim (h y) (h' y)

theorem Fresh.mono {vars : Vars} (hc : c ≤ c') (h : Fresh c' vars) : Fresh c vars := by
  intro y hy
  obtain ⟨role, n, hn, rfl⟩ := h y hy
  exact ⟨role, n, Nat.le_trans hc hn, rfl⟩

theorem lookup_eq_none {vars : Vars} {y : String} (h : y ∉ vars.map Prod.fst) :
    vars.lookup y = none := by
  rw [List.lookup_eq_none_iff]
  intro e he
  have hne : y ≠ e.1 := by
    rintro rfl
    exact h (List.mem_map_of_mem he)
  simpa using hne

theorem Code.Name.Used.value?_append {x : Name} (hx : x.Used c) (hnew : Fresh c new) (vars : Vars) :
    x.value? (new ++ vars) = x.value? vars := by
  have hlookup (y : String) (hy : y ∉ new.map Prod.fst) : (new ++ vars).lookup
      y = vars.lookup y := by
    rw [List.lookup_append, lookup_eq_none hy, Option.none_or]
  obtain ⟨hreads, hbelow⟩ := hx
  generalize hp : x.operand = p at hreads
  cases hreads with
  | parameter n =>
    refine hlookup _ fun hy => ?_
    obtain ⟨role, n', -, heq⟩ := hnew _ hy
    exact Name.text_parameter_ne_fresh n n' role heq
  | fresh role n =>
    refine hlookup _ fun hy => ?_
    obtain ⟨role', n', hn', heq⟩ := hnew _ hy
    have hn := hbelow role n rfl
    rw [(Name.text_fresh_inj heq).2] at hn
    exact absurd hn' (Nat.not_le_of_lt hn)
  | int | long | bool => rfl

namespace Lowering

variable {g : Graph} {args : List Host.Slot} {seen seen' : List NodeId} {t t' : SymbolTable Name}
variable {phis : Host.Table} {vars : Vars} {id : NodeId} {x : Name} {κ : ValueKind}

/-! ### Bindings -/

/-- What lowering keeps true of its bindings, after the merges `seen`. A value is bound only once
the phis that it uses have their merges behind them, and a phi has one name, a variable. -/
structure Named (g : Graph) (seen : List NodeId) (t : SymbolTable Name) : Prop where
  used : ∀ {id x}, t.Binds id x → x.Used t.counter
  ready : ∀ {id x}, t.Binds id x → g.IsPhi id ∨ g.Ready seen id
  phi : ∀ {q x}, t.Binds q x → g.IsPhi q → t.nameOf? q = some x ∧ ∃ role n, x = .fresh role n
  uses : ∀ {q id x}, t.Binds q x → g.IsPhi q → t.Binds id x → g.Uses q id

namespace Named

theorem mono (h : seen ⊆ seen') (ht : Named g seen t) : Named g seen' t :=
  ⟨ht.used, fun hb => (ht.ready hb).imp_right (.mono h), ht.phi, ht.uses⟩

variable (ht : Named g seen t)
include ht

theorem congr (hbinds : ∀ {id x}, t'.Binds id x → t.Binds id x)
    (hname : ∀ id, t'.nameOf? id = t.nameOf? id) (hcounter : t.counter ≤ t'.counter) :
    Named g seen t' where
  used hb := (ht.used (hbinds hb)).mono hcounter
  ready hb := ht.ready (hbinds hb)
  phi hb hq := by rw [hname]; exact ht.phi (hbinds hb) hq
  uses hq hphi hb := ht.uses (hbinds hq) hphi (hbinds hb)

theorem enter : Named g seen t.enter :=
  ht.congr SymbolTable.binds_enter.1 (fun _ => SymbolTable.nameOf?_enter) (Nat.le_refl _)

theorem withCounter (hc : t.counter ≤ c) : Named g seen { t with counter := c } :=
  ht.congr (fun hb => hb) (fun _ => rfl) hc

/-- Bind a node to a name. A phi may only be bound once, and to a variable that is not in use. -/
theorem bind (hx : x.Used t.counter) (hid : g.IsPhi id ∨ g.Ready seen id) (hphi : g.IsPhi id →
      (∀ y, ¬ t.Binds id y) ∧ (∃ role n, x = .fresh role n) ∧ ∀ other, ¬ t.Binds other x)
    (huses : ∀ q, t.Binds q x → g.IsPhi q → g.Uses q id) : Named g seen (t.bind x id κ) := by
  refine ⟨fun hb => ?_, fun hb => ?_, fun {q y} hb hq => ?_, fun {q other y} hq hphi' hb => ?_⟩
  · rw [SymbolTable.counter_bind]
    obtain ⟨-, rfl⟩ | hb := SymbolTable.binds_bind.1 hb
    · exact hx
    · exact ht.used hb
  · obtain ⟨rfl, -⟩ | hb := SymbolTable.binds_bind.1 hb
    · exact hid
    · exact ht.ready hb
  · rw [SymbolTable.nameOf?_bind]
    obtain ⟨rfl, rfl⟩ | hold := SymbolTable.binds_bind.1 hb
    · exact ⟨if_pos rfl, (hphi hq).2.1⟩
    · have hne : q ≠ id := by
        rintro rfl
        exact (hphi hq).1 y hold
      rw [if_neg hne]
      exact ht.phi hold hq
  · obtain ⟨rfl, rfl⟩ | hold := SymbolTable.binds_bind.1 hq
    · obtain ⟨rfl, -⟩ | hb := SymbolTable.binds_bind.1 hb
      · exact .self hphi'
      · exact absurd hb ((hphi hphi').2.2 other)
    · obtain ⟨rfl, rfl⟩ | hb := SymbolTable.binds_bind.1 hb
      · exact huses q hold hphi'
      · exact ht.uses hold hphi' hb

theorem not_binds_fresh (role : Role) : ¬ t.Binds id (.fresh role t.counter) :=
  fun hb => Nat.lt_irrefl _ ((ht.used hb).below role _ rfl)

theorem bindFresh (hid : g.IsPhi id ∨ g.Ready seen id)
    (hphi : g.IsPhi id → ∀ y, ¬ t.Binds id y) (role : Role) :
    Named g seen ({ t with counter := t.counter + 1 }.bind (.fresh role t.counter) id κ) := by
  have hused : (Name.fresh role t.counter).Used (t.counter + 1) :=
    ⟨.fresh role _, fun _ n hn => by cases hn; exact Nat.lt_succ_self _⟩
  have ht' := ht.withCounter (Nat.le_succ t.counter)
  exact ht'.bind hused hid
    (fun h => ⟨hphi h, ⟨role, _, rfl⟩, fun _ hb => ht.not_binds_fresh role hb⟩)
    fun _ hb => absurd hb (ht.not_binds_fresh role)

end Named

/-! ### Values -/

/-- A name holds the value of a node: one of the node's type, which is what the node denotes if it
denotes anything. -/
def Holds (g : Graph) (args : List Host.Slot) (vars : Vars) (phis : Host.Table) (id : NodeId)
    (x : Name) : Prop :=
  ∃ w, x.value? vars = some w ∧ (∀ k, g.valueKind id = .scalar k → w.ty = .ofKind k) ∧
    ∀ s, Host.Denotes g args phis id s → w = .ofScalar s

theorem holds_append_iff (hx : x.Used c) (hnew : Fresh c new) :
    Holds g args (new ++ vars) phis id x ↔ Holds g args vars phis id x := by
  rw [Holds, Holds, hx.value?_append hnew]

/-- The variables of a running program are what the bindings say. -/
structure Models (g : Graph) (args : List Host.Slot) (t : SymbolTable Name) (vars : Vars)
    (phis : Host.Table) : Prop where
  holds : ∀ {id x}, t.Binds id x → Holds g args vars phis id x
  phisFit : Host.PhisFit g phis

namespace Models

theorem congr (h : Models g args t vars phis) (hbinds : ∀ {id x}, t'.Binds id x → t.Binds id x) :
    Models g args t' vars phis :=
  ⟨fun hb => h.holds (hbinds hb), h.phisFit⟩

theorem append_iff (ht : Named g seen t) (hc : t.counter ≤ c) (hnew : Fresh c new) :
    Models g args t (new ++ vars) phis ↔ Models g args t vars phis :=
  ⟨fun h => ⟨fun hb => (holds_append_iff ((ht.used hb).mono hc) hnew).1 (h.holds hb), h.phisFit⟩,
    fun h => ⟨fun hb => (holds_append_iff ((ht.used hb).mono hc) hnew).2 (h.holds hb), h.phisFit⟩⟩

theorem bind (h : Models g args t vars phis) (hx : Holds g args vars phis id x) :
    Models g args (t.bind x id κ) vars phis := by
  refine ⟨fun hb => ?_, h.phisFit⟩
  obtain ⟨rfl, rfl⟩ | hb := SymbolTable.binds_bind.1 hb
  · exact hx
  · exact h.holds hb

theorem bindFresh (h : Models g args t vars phis) (ht : Named g seen t) (role : Role)
    (htype : ∀ k, g.valueKind id = .scalar k → w.ty = .ofKind k)
    (hdenotes : ∀ s, Host.Denotes g args phis id s → w = .ofScalar s) :
    Models g args ({ t with counter := t.counter + 1 }.bind (.fresh role t.counter) id κ)
      (((Name.fresh role t.counter).text, w) :: vars) phis := by
  have hnew : Fresh t.counter [((Name.fresh role t.counter).text, w)] := by
    intro y hy
    cases List.mem_singleton.1 hy
    exact ⟨role, t.counter, Nat.le_refl _, rfl⟩
  have hold := (append_iff ht (Nat.le_refl _) hnew).2 h
  refine bind (t := { t with counter := t.counter + 1 }) (hold.congr fun hb => hb)
    ⟨w, ?_, htype, hdenotes⟩
  exact List.lookup_cons_self

end Models

end Lowering

end Kernelwright
