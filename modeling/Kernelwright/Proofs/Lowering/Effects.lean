import Kernelwright.Lowering.Bundle
import Kernelwright.Proofs.Code.Symbols
import Kernelwright.Proofs.Graph.Shelter

/-!
# What lowering does

`Effect` lists everything that lowering can do to the text and to what it carries along, each with
the reason for it, and `Work` is a piece of lowering: effects one after the other, nodes that are
visited in between, and blocks and scopes inside of it. What holds of every piece of work holds of
whatever is lowered.
-/

namespace Kernelwright

open Code

def NodeKind.lambda? : NodeKind → Option String
  | .operation (.invoke (.lambda name) _ _) => some name
  | .operation (.mapChain name _ _ _) => some name
  | _ => none

/-- The words that a node brings into the text. -/
def NodeKind.words : NodeKind → List String
  | .operation (.invoke (.lambda name) ..) | .operation (.mapChain name ..) => [functionName name]
  | .operation (.invoke (.builtin name) ..) => [name]
  | .unsupported name .. => [name]
  | _ => []

def Graph.lambdaAt? (g : Graph) (id : NodeId) : Option String := (g.kind? id).bind NodeKind.lambda?

/-- A phi of a loop starts from the value. -/
def Graph.IsEntry (g : Graph) (id : NodeId) : Prop :=
  ∃ head phi merge rest, g.isLoopHead head = true ∧ phi ∈ g.phisOf head ∧
    g.kind? phi = some (.operation (.phi merge (id :: rest)))

/-- A diagnostic is about the node. -/
def Reported (ds : List Diagnostic) (id : NodeId) : Prop := ∃ d ∈ ds, d.node = some id

instance (ds : List Diagnostic) (id : NodeId) : Decidable (Reported ds id) :=
  inferInstanceAs (Decidable (∃ d ∈ ds, d.node = some id))

theorem Reported.mono {ds ds' : List Diagnostic} {id : NodeId} (h : Reported ds id)
    (hsub : ds ⊆ ds') :
    Reported ds' id := by
  obtain ⟨d, hd, hnode⟩ := h
  exact ⟨d, hsub hd, hnode⟩

/-- Whether a name is made for a value in the text, and is not that of a parameter. -/
def Code.Name.isMade : Name → Bool
  | .parameter _ | .illegal => false
  | _ => true

/-- A statement that declares `x` to be an element of a field of a sequence. -/
inductive Code.Stmt.Decodes (layout : SequenceLayout) (field : Nat) (x : Name) : Stmt → Prop
  | linear {p kind start stride} (index : Name) : layout.fields[field]? = some p →
      Lowering.indexRule? p = none →
      p.start.kind? = some kind → Literal.ofValue? p.start = some start →
      Literal.ofValue? (p.stride.cast kind) = some stride →
      Decodes layout field x
        (.declare (.scalar kind) x (.linearProgression start stride index) .none)
  | indexed {p rule kind start stride} (index : Name) : layout.fields[field]? = some p →
      Lowering.indexRule? p = some rule →
      p.start.kind? = some kind → Literal.ofValue? p.start = some start →
      Literal.ofValue? (p.stride.cast kind) = some stride →
      Decodes layout field x (.declare (.scalar kind) x (.progression start stride index) .none)

def Code.Stmt.inner : Stmt → List Ident
  | loop head _ => head.declares
  | _ => []

namespace Lowering

/-- The sites of functions: nothing is passed field by field. -/
structure Site.IsFunction (site : Site) : Prop where
  mode : site.mode = .function
  splitInput : site.splitInput = none
  splitOutput : site.splitOutput = none

/-- The arguments of a call behind the operands. -/
def flagArguments (guards : Bool) : List Argument := if guards then [.deoptFlag] else []

theorem eq_deoptFlag_of_mem {guards : Bool} {a : Argument} (h : a ∈ flagArguments guards) :
    guards = true ∧ a = .deoptFlag := by
  cases guards with
  | false => cases h
  | true => exact ⟨rfl, List.mem_singleton.1 h⟩

theorem mem_arguments {scope : List Argument} {names : List Name} {guards : Bool} {a : Argument}
    (h : a ∈ scope ++ names.map .name ++ flagArguments guards) :
    a ∈ scope ∨ (∃ y ∈ names, a = .name y) ∨ guards = true ∧ a = .deoptFlag := by
  obtain h | h := List.mem_append.1 h
  · refine (List.mem_append.1 h).imp_right fun h => .inl ?_
    obtain ⟨y, hy, rfl⟩ := List.mem_map.1 h
    exact ⟨y, hy, rfl⟩
  · exact .inr (.inr (eq_deoptFlag_of_mem h))

/-- What the lowering of a graph works with; `walks` says whether control nodes are walked or only
values lowered. -/
structure Bench where
  site : Site
  lambdas : List Graph
  callers : List String
  lower : Graph → List String → Except KernelError Bundle
  walks : Bool

def Bench.function (w : Bench) : Functions := functionFor w.lambdas w.callers w.lower

def Progress.declared (p : Progress) : List Ident := p.block.flatMap Stmt.declares

/-- A function of the name has been lowered. -/
def Progress.Lists (p : Progress) (name : String) : Prop := ∃ f ∈ p.functions, f.name = name

namespace Bench

variable (w : Bench)

abbrev kind? (id : NodeId) : Option NodeKind := w.site.graph.kind? id

/-- The arguments of a call ahead of the operands. -/
def scope : List Argument := if w.site.mode.isKernel then w.site.scope else []

/-- The layout by which the elements that a node loads from an array are computed, and the fields
that it needs. -/
def decoding? (id array : NodeId) : Option (SequenceLayout × List Nat) :=
  match w.site.mode.sequence? with
  | none => none
  | some layout =>
    if w.site.splitInput.map Prod.fst = some array then some
      (layout, w.site.inputs.map FieldPointer.field)
    else if w.site.splitOutput = some array then none
    else if isInput w.site.graph array ∧ (w.site.graph.valueKind id).scalar?.isSome then
      some (layout, [0])
    else none

/-! ### What can be said in a function -/

/-- What can be used in the text of a function: the name of a node, what the block declares, and
what comes with an array that has a name. -/
inductive Usable (p : Progress) : Ident → Prop
  | name {id x i} : p.symbols.Binds id x → x ≠ .illegal → i ∈ x.uses → Usable p i
  | declared {x} : x.isLegal = true → .var x ∈ p.declared → Usable p (.var x)
  /-- The length of an array, once it stands for something. -/
  | known {id x} : p.symbols.Binds id x → x ≠ .illegal →
      .var (.length x) ∈ p.declared ∨ (p.symbols.meaning? (.length x)).isSome →
        Usable p (.var (.length x))
  | length {id x y i} : p.symbols.Binds id x → (x, y) ∈ p.buffers → i ∈ y.uses → Usable p i
  /-- The metadata of an array that has no buffer. -/
  | data {id x i} : p.symbols.Binds id x → x ≠ .illegal → p.buffers.lookup x = none →
      (w.site.graph.ArraysTyped → (w.site.graph.valueKind id).isArray = true) →
      i ∈ [Ident.metadata x, .dimension x] → Usable p i
  | flag : w.site.guards = true → Usable p .deoptFlag

/-- What can be declared, where names have been given out up to a number. -/
inductive Declarable (p : Progress) (counter : Nat) : Ident → Prop
  | fresh {role n} :
    p.symbols.counter ≤ n → n < counter → Declarable p counter (.var (.fresh role n))
  | legal {i} : i.isLegal = true → (∀ role n, i ≠ .var (.fresh role n)) → Declarable p counter i
  | length {id x} : p.symbols.Binds id x → x ≠ .illegal → Declarable p counter (.var (.length x))

/-- What a statement says in a function at a node: it uses what can be used, unless it declares a
loop variable that starts from an illegal value, and its words are those of the node. -/
structure Allows (n : Option NodeId) (p : Progress) (counter : Nat) (s : Stmt) : Prop where
  uses : ∀ t ∈ s.parts, ∀ i ∈ t.uses, t ≠ s ∧ i ∈ s.inner ∨ w.Usable p i ∨
    i = .var .illegal ∧ t.isBlind = true ∧ ∃ id, w.site.graph.IsEntry id ∧
      p.symbols.Binds id .illegal
  declares : ∀ t ∈ s.parts, ∀ i ∈ t.declares ++ t.inner, Declarable p counter i
  words : ∀ t ∈ s.parts, ∀ u ∈ t.words, ∃ id kind, n = some id ∧ w.kind? id = some kind ∧
    u ∈ kind.words

/-- The name can be used for the node. An array has a buffer, as it needs no metadata then. -/
structure Offers (p : Progress) (id : NodeId) (x : Name) : Prop where
  uses : ∀ i ∈ x.uses, w.Usable p i
  array : (w.site.graph.valueKind id).isArray = true → (p.buffers.lookup x).isSome

/-! ### Effects -/

/-- Which nodes are given a name at a node: the node itself, and phis at a loop or ahead of
everything. -/
inductive Names : Option NodeId → NodeId → Prop
  | here {id} : Names (some id) id
  | loop {head id merge values} : w.site.graph.isLoopHead head = true →
      w.kind? id = some (.operation (.phi merge values)) → Names (some head) id
  | merge {id} : id ∈ w.site.graph.mergePhis → Names none id

/-- Why a node may have the name of another. -/
inductive Shares (p : Progress) (id source : NodeId) : Prop
  | relabel {op} : w.kind? id = some (.operation (.relabel op source)) → Shares p id source
  | scalar {kind} : p.symbols.kindOf? source = some (.scalar kind) → Shares p id source

/-- Why an element is read at a node. -/
inductive Reads (p : Progress) (id : NodeId) : Place → Prop
  | element {array index x place} : w.kind? id = some (.operation (.loadIndexed array index)) →
      p.symbols.Binds array x → place.array? = some x → w.decoding? id array = none →
      w.site.splitInput.map Prod.fst ≠ some array → Reads p id place
  | splitInput {array index metadata q i} :
    w.kind? id = some (.operation (.loadIndexed array index)) →
      w.site.splitInput = some (array, metadata) → w.site.mode.sequence? = none →
        q ∈ w.site.inputs → Reads p id (.offsetCell q.name metadata i)
  | splitOutput {array index q i} : w.kind? id = some (.operation (.loadIndexed array index)) →
      w.site.splitOutput = some array → q ∈ w.site.outputs → Reads p id (.cell q.name i)
  /-- A component of an element that was loaded before is read again. -/
  | component {arity part object rest result metadata q i} :
      w.kind? id = some (.operation (.invoke (.tupleField arity part) (object :: rest) result)) →
      (object, i) ∈ p.elements → w.site.splitInput.map Prod.snd = some metadata →
      q ∈ w.site.inputs → Reads p id (.offsetCell q.name metadata i)

/-- Why a statement is written at a node. -/
inductive Cause (p : Progress) : Option NodeId → Stmt → Prop
  | bare {n s} : s.Bare → w.walks = true ∨ s.isPlain = true → Cause p n s
  | read {id place} (type : CType) (x : Name) : w.Reads p id place →
      Cause p (some id) (.declare type x (.place place) .none)
  | call {id lambda args result names} (type : CType) (x : Name) :
      w.kind? id = some (.operation (.invoke (.lambda lambda) args result)) →
      List.Forall₂ p.symbols.Binds args names → Cause p (some id)
        (.declare type x (.call (functionName lambda)
          (w.scope ++ names.map .name ++ flagArguments w.site.guards)) .none)
  | fused {id lambda array capacity element inner x place} (buffer i length : Name) :
      w.kind? id = some (.operation (.mapChain lambda array capacity element)) →
      w.lambdas.find? (·.name == lambda) = some inner → inner.parameters.length = 1 →
      p.symbols.Binds array x → place.array? = some x → Cause p (some id)
        (.loop (.counted i length) [.assign (.cell buffer i)
          (.call (functionName lambda) (.place place :: flagArguments w.site.guards))])

/-- Why a node gets a name: the name is made, it is the length of a buffer, or it is illegal and the
node has been reported. -/
inductive Given (p : Progress) (id : NodeId) (x : Name) : Prop
  | made : x.isMade = true → (w.site.IsFunction → w.Offers p id x) → Given p id x
  | length {a} : (a, x) ∈ p.buffers → (w.site.IsFunction → w.Offers p id x) → Given p id x
  | suppressed : x = .illegal → Reported p.diagnostics id → Given p id x

/-- The length of a buffer is a literal or a variable that the block declares. -/
inductive Measures (p : Progress) (buffer : Name) : Name → Prop
  | literal (l : Literal) : Measures p buffer (.literal l)
  | variable : .var (.bufferLength buffer) ∈ p.declared → Measures p buffer (.bufferLength buffer)

/-- One thing that lowering does, at a node if there is one. -/
inductive Effect : Option NodeId → Progress → Progress → Prop
  /-- Something is noted that does not show in the text of the function. -/
  | note {n p counter structs diagnostics} : p.symbols.counter ≤ counter →
      p.diagnostics <+: diagnostics → Effect n p { p with
        symbols := { p.symbols with counter := counter }
        structs := structs
        diagnostics := diagnostics }
  | meet {n p} (merges : List NodeId) : w.walks = true → Effect n p { p with merges := merges }
  /-- A statement is written, after the names in it have been given out. -/
  | write {n p s counter} : w.Cause p n s → p.symbols.counter ≤ counter →
      (w.site.IsFunction → w.Allows n p counter s) → Effect n p { p with
        symbols := { p.symbols with counter := counter }
        block := s :: p.block }
  | name {n p id x} (k : ValueKind) : w.Names n id → w.Given p id x →
      Effect n p { p with symbols := p.symbols.bind x id k }
  | share {p id source x} : p.symbols.nameOf? source = some x → x ≠ .illegal →
      w.Shares p id source →
      ((w.site.graph.valueKind id).isArray = true →
        (w.site.graph.valueKind source).isArray = true) →
      Effect (some id) p { p with
        symbols := p.symbols.bind x id ((p.symbols.meaning? x).elim .illegal (·.kind)) }
  | buffer {n p role m length} : .var (.fresh role m) ∈ p.declared →
      Measures p (.fresh role m) length →
      Effect n p { p with buffers := (.fresh role m, length) :: p.buffers }
  | element {p id array index} (i : Name) : w.kind? id = some
      (.operation (.loadIndexed array index)) →
      w.site.splitInput.map Prod.fst = some array →
      Effect (some id) p { p with elements := (id, i) :: p.elements }
  /-- The lambda of a node is lowered, unless its function is there or it is being lowered. -/
  | absorb {p id lambda g b} : w.site.graph.lambdaAt? id = some lambda →
      ¬ p.Lists (functionName lambda) → lambda ∉ w.callers →
      w.lambdas.find? (·.name == lambda) = some g → w.lower g (w.callers ++ [lambda]) = .ok b →
      Effect (some id) p (p.absorb b)

/-! ### Work -/

end Bench

/-- The statements are among those that have been written in the meantime. -/
def Inserts (ss : List Stmt) (p p' : Progress) : Prop := ∃ new, p'.block = new ++ p.block ∧ ss ⊆ new

/-- Lowering the load of an element binds the node to the name, and writes the statements. -/
def Site.Loads (site : Site) (id array index : NodeId) (x : Name) (ss : List Stmt) : Prop :=
  ∃ value p p', lowerLoad site value id array index p = .ok (x, p') ∧
    p'.symbols.nameOf? id = some x ∧ p'.block = ss ++ p.block

/-- The statements that set the fields of a struct, from a position on. -/
def settings (object : Name) (position : Nat) (vs : List Name) : List Stmt :=
  (vs.zipIdx position).map fun (v, j) => .assign (.field object j) (.place (.name v))

/-- Among the statements each field of a sequence is declared under its name. -/
def Declares (layout : SequenceLayout) (ss : List Stmt) : List Nat → List Name → Prop :=
  List.Forall₂ fun field v => ∃ s ∈ ss, s.Decodes layout field v

/-- The statements compute an element of a sequence: all fields are declared, and the element is the
first of them or a struct to which they are assigned. -/
def Composes (layout : SequenceLayout) (fields : List Nat) (x : Name) (ss : List Stmt) : Prop :=
  ∃ vs, Declares layout ss fields vs ∧ (vs.head? = some x ∨ settings x 1 vs ⊆ ss)

namespace Bench

variable (w : Bench)

/-- If the node loads an element of a sequence, its text computes the element. -/
def Performs (id : NodeId) (kind : NodeKind) (ss : List Stmt) : Prop :=
  ∀ array index layout fields, kind = .operation (.loadIndexed array index) →
    w.decoding? id array = some (layout, fields) →
    ∃ x, w.site.Loads id array index x ss ∧ Composes layout fields x ss

/-- What has been done when a visit of a node is over. Unless control nodes are walked, it was none
of them and had no name. Its lambda has a function, and unless something was reported, its text
does what it should. -/
structure Done (id : NodeId) (kind : NodeKind) (p p' : Progress) : Prop where
  value : w.walks = true ∨ (∀ c, kind ≠ .control c) ∧ p.symbols.nameOf? id = none
  work : ∀ index type, kind ≠ .operation (.parameter index type)
  listed : ∀ lambda, kind.lambda? = some lambda → p'.Lists (functionName lambda)
  performed : p'.diagnostics = p.diagnostics → ∀ ss,
    p'.block = ss ++ .mark kind.name id :: p.block → w.Performs id kind ss

/-- A piece of lowering, at a node if there is one. -/
inductive Work : Option NodeId → Progress → Progress → Prop
  | done {n p} : Work n p p
  | effect {n p p' p''} : w.Effect n p p' → Work n p' p'' → Work n p p''
  | visit {n id kind p p' p''} : w.kind? id = some kind →
      Work (some id) { p with block := .mark kind.name id :: p.block } p' → w.Done id kind p p' →
      Work n p' p'' → Work n p p''
  | branch {n p p₁ p₂ p'} (c : Name) : w.walks = true →
      (w.site.IsFunction → ∀ i ∈ c.uses, w.Usable p i) → Work n { p with block := [] } p₁ →
      Work n { p₁ with block := [] } p₂ →
      Work n { p₂ with block := .branch c p₁.block.reverse p₂.block.reverse :: p.block } p' →
        Work n p p'
  | loop {n p p₁ p'} (head : LoopHead) (loops : List LoopFrame) : w.walks = true →
      (w.site.IsFunction → head = .forever) →
      Work n { p with block := [], loops := loops, symbols := p.symbols.enter } p₁ →
      Work n { p₁ with
        block := .loop head p₁.block.reverse :: p.block
        loops := p.loops
        symbols := p₁.symbols.exit } p' → Work n p p'
  | scope {n p p₁ p'} : w.walks = true → Work n { p with symbols := p.symbols.enter } p₁ →
      Work n { p₁ with symbols := p₁.symbols.exit } p' → Work n p p'

end Bench

/-! ### What work keeps -/

/-- What is kept while lowering goes on in a block. -/
structure Keeps (p p' : Progress) : Prop where
  block : p.block <:+ p'.block
  loops : p'.loops = p.loops
  tail : p'.symbols.scopes.tail = p.symbols.scopes.tail
  counter : p.symbols.counter ≤ p'.symbols.counter
  names : ∀ id x, p.symbols.Binds id x → p'.symbols.Binds id x
  buffers : p.buffers ⊆ p'.buffers
  elements : p.elements ⊆ p'.elements
  functions : ∀ name, p.Lists name → p'.Lists name
  diagnostics : p.diagnostics <+: p'.diagnostics

section

variable {w : Bench} {n : Option NodeId} {p p' p'' : Progress}
variable {f : Code.Function} {fs new : List Code.Function} {block : List Stmt}

theorem Keeps.refl (p : Progress) : Keeps p p :=
  ⟨List.suffix_refl _, rfl, rfl, Nat.le_refl _, fun _ _ h => h, List.Subset.refl _,
    List.Subset.refl _, fun _ h => h,
    List.prefix_refl _⟩

theorem Keeps.trans (h : Keeps p p') (h' : Keeps p' p'') : Keeps p p'' where
  block := h.block.trans h'.block
  loops := h'.loops.trans h.loops
  tail := h'.tail.trans h.tail
  counter := h.counter.trans h'.counter
  names id x hx := h'.names id x (h.names id x hx)
  buffers := List.Subset.trans h.buffers h'.buffers
  elements := List.Subset.trans h.elements h'.elements
  functions name hname := h'.functions name (h.functions name hname)
  diagnostics := h.diagnostics.trans h'.diagnostics

theorem Keeps.unreported (h : Keeps p p') (hnone : p'.diagnostics = []) : p.diagnostics = [] :=
  List.prefix_nil.1 (hnone ▸ h.diagnostics)

theorem mem_addFunctions_of_mem (h : f ∈ fs) : f ∈ addFunctions fs new := by
  induction new generalizing fs with
  | nil => exact h
  | cons f' new ih =>
    apply ih
    split
    · exact h
    · exact List.mem_append_left _ h

theorem mem_addFunctions (h : f ∈ addFunctions fs new) : f ∈ fs ∨ f ∈ new := by
  induction new generalizing fs with
  | nil => exact .inl h
  | cons f' new ih =>
    rcases ih h with h | h
    · split at h
      · exact .inl h
      · rcases List.mem_append.1 h with h | h
        · exact .inl h
        · cases List.mem_singleton.1 h
          exact .inr (.head _)
    · exact .inr (.tail _ h)

theorem Keeps.of_bind (x : Name) (id : NodeId) (k : ValueKind) :
    Keeps p { p with symbols := p.symbols.bind x id k } :=
  { Keeps.refl p with
    tail := SymbolTable.tail_scopes_bind
    counter := Nat.le_of_eq SymbolTable.counter_bind.symm
    names := fun _ _ hx => SymbolTable.binds_bind.2 (.inr hx) }

theorem Keeps.of_element (e : NodeId × Name) : Keeps p { p with elements := e :: p.elements } :=
  { Keeps.refl p with elements := List.subset_cons_self .. }

theorem Keeps.of_write (s : Stmt) : Keeps p { p with block := s :: p.block } :=
  { Keeps.refl p with block := List.suffix_cons .. }

theorem Keeps.inBlock {block' outer : List Stmt} (h : Keeps { p with block := block } p')
    (hblock : outer <:+ block') : Keeps { p with block := outer } { p' with block := block' } :=
  { h with block := hblock }

theorem Bench.Effect.keeps (h : w.Effect n p p') : Keeps p p' := by
  cases h with
  | note hcounter hdiagnostics =>
    exact { Keeps.refl p with counter := hcounter, diagnostics := hdiagnostics }
  | meet => exact { Keeps.refl p with }
  | write _ hcounter =>
    exact { Keeps.refl p with block := List.suffix_cons .., counter := hcounter }
  | name | share => exact .of_bind _ _ _
  | buffer => exact { Keeps.refl p with buffers := List.subset_cons_self .. }
  | element => exact .of_element _
  | absorb =>
    exact { Keeps.refl p with
      functions := fun _ ⟨f, hf, hname⟩ => ⟨f, mem_addFunctions_of_mem hf, hname⟩
      diagnostics := List.prefix_append .. }

theorem Keeps.exit {loops : List LoopFrame}
    (h : Keeps { p with block := block, loops := loops, symbols := p.symbols.enter } p') :
    Keeps { p with block := block, loops := loops } { p' with symbols := p'.symbols.exit } := by
  have hexit : p'.symbols.exit = { p.symbols with counter := p'.symbols.counter } :=
    SymbolTable.exit_eq h.tail
  refine { h with tail := ?_, names := fun id x hx => ?_ }
  · rw [hexit]
    rfl
  · rw [hexit]
    exact hx

theorem Bench.Work.keeps (h : w.Work n p p') : Keeps p p' := by
  induction h with
  | done => exact .refl _
  | effect heffect _ ih => exact heffect.keeps.trans ih
  | visit _ _ _ _ ihvisit ih => exact ((Keeps.of_write _).trans ihvisit).trans ih
  | branch c _ _ _ _ _ iht ihf ih =>
    refine .trans ?_ ih
    have harms := Keeps.trans (iht.inBlock (List.suffix_refl [])) ihf
    exact harms.inBlock (List.suffix_cons ..)
  | loop head loops _ _ _ _ ihbody ih =>
    refine .trans ?_ ih
    have hbody := ihbody.exit
    exact { hbody with block := List.suffix_cons .., loops := rfl }
  | scope _ _ _ ihbody ih => exact ihbody.exit.trans ih

theorem Bench.Work.trans (h : w.Work n p p') (h' : w.Work n p' p'') : w.Work n p p'' := by
  induction h with
  | done => exact h'
  | effect heffect _ ih => exact .effect heffect (ih h')
  | visit hkind hvisit hdone _ _ ih => exact .visit hkind hvisit hdone (ih h')
  | branch c hwalks hc ht hf _ _ _ ih => exact .branch c hwalks hc ht hf (ih h')
  | loop head loops hwalks hhead hbody _ _ ih => exact .loop head loops hwalks hhead hbody (ih h')
  | scope hwalks hbody _ _ ih => exact .scope hwalks hbody (ih h')

theorem Bench.Effect.work (h : w.Effect n p p') : w.Work n p p' := .effect h .done

end

end Lowering

end Kernelwright
