import Kernelwright.Code.Symbols
import Kernelwright.Proofs.Code.Reading
import Kernelwright.Proofs.Steps

/-!
# Bindings and spellings

`SymbolTable.Binds` says that a visible scope binds a node to a name, shadowed or not. Bindings are
never taken back while their scope is open. Variables are told apart by their spelling.
-/

namespace Kernelwright.Code

open Grammar (isDigit)
open Text

/-! ### Bindings -/

namespace SymbolTable

variable {ν : Type} {t : SymbolTable ν} {x y : ν} {id other : NodeId} {k : ValueKind}

/-- A visible scope binds the node to the name. -/
def Binds (t : SymbolTable ν) (id : NodeId) (x : ν) : Prop := ∃ s ∈ t.scopes, (id, x) ∈ s.nodes

theorem binds_of_nameOf? (h : t.nameOf? id = some x) : t.Binds id x := by
  obtain ⟨s, hs, hx⟩ := List.exists_of_findSome?_eq_some h
  exact ⟨s, hs, mem_of_lookup hx⟩

theorem scopes_bind (t : SymbolTable ν) (x : ν) (id : NodeId) (k : ValueKind) :
    ∃ s ss, t.scopes = s :: ss ∧ (t.bind x id k).scopes = s.bind x id k :: ss := by
  unfold bind scopes
  cases t.inner with
  | nil => exact ⟨_, _, rfl, rfl⟩
  | cons s ss => exact ⟨_, _, rfl, rfl⟩

@[simp] theorem counter_bind : (t.bind x id k).counter = t.counter := by
  unfold bind
  split <;> rfl

theorem binds_bind : (t.bind x id k).Binds other y ↔ (other = id ∧ y = x) ∨ t.Binds other y := by
  obtain ⟨s, ss, hs, hbind⟩ := scopes_bind t x id k
  simp [Binds, hs, hbind, Scope.bind, or_assoc]

theorem nameOf?_bind :
    (t.bind x id k).nameOf? other = if other = id then some x else t.nameOf? other := by
  obtain ⟨s, ss, hs, hbind⟩ := scopes_bind t x id k
  rw [nameOf?, nameOf?, hs, hbind, List.findSome?_cons, List.findSome?_cons, Scope.bind,
    List.lookup_cons]
  by_cases h : other = id
  · simp [h]
  · simp only [beq_false_of_ne h, if_neg h]

theorem meaning?_bind [DecidableEq ν] :
    (t.bind x id k).meaning? y = if y = x then some ⟨id, k⟩ else t.meaning? y := by
  obtain ⟨s, ss, hs, hbind⟩ := scopes_bind t x id k
  rw [meaning?, meaning?, hs, hbind, List.findSome?_cons, List.findSome?_cons, Scope.bind,
    List.lookup_cons]
  by_cases h : y = x
  · simp [h]
  · simp only [beq_false_of_ne h, if_neg h]

theorem tail_scopes_bind : (t.bind x id k).scopes.tail = t.scopes.tail := by
  obtain ⟨s, ss, hs, hbind⟩ := scopes_bind t x id k
  rw [hs, hbind, List.tail_cons, List.tail_cons]

theorem binds_enter : t.enter.Binds id x ↔ t.Binds id x := by
  simp [Binds, enter, scopes, Scope.empty]

theorem binds_of_exit (h : t.exit.Binds id x) : t.Binds id x := by
  obtain ⟨s, hs, hx⟩ := h
  refine ⟨s, ?_, hx⟩
  simp only [scopes, exit, List.mem_append] at hs ⊢
  exact hs.imp_left List.mem_of_mem_tail

theorem nameOf?_enter : t.enter.nameOf? id = t.nameOf? id := rfl

/-- Leaving a scope gives the table back that there was when it was entered, but for the counter. -/
theorem exit_eq {t' : SymbolTable ν} (h : t'.scopes.tail = t.enter.scopes.tail) :
    t'.exit = { t with counter := t'.counter } := by
  obtain ⟨inner, root, counter⟩ := t'
  cases inner with
  | nil => simp [scopes, enter] at h
  | cons s ss =>
    obtain ⟨hinner, hroot⟩ := List.append_inj' (show ss ++ [root] = t.inner ++ [t.root] from h) rfl
    simp only [exit, List.tail_cons, hinner, (List.cons.inj hroot).1]

/-- The names of each scope are those that its nodes are bound to. -/
def Paired (t : SymbolTable ν) : Prop := ∀ s ∈ t.scopes, s.names.map Prod.fst = s.nodes.map Prod.snd

theorem paired_empty : (empty : SymbolTable ν).Paired := by
  intro s hs
  cases List.mem_singleton.1 hs
  rfl

theorem Paired.bind (h : t.Paired) : (t.bind x id k).Paired := by
  obtain ⟨s, ss, hs, hbind⟩ := scopes_bind t x id k
  intro s' hs'
  rw [hbind] at hs'
  rcases List.mem_cons.1 hs' with rfl | hs'
  · simp [Scope.bind, h s (hs ▸ List.mem_cons_self)]
  · exact h s' (hs ▸ List.mem_cons_of_mem _ hs')

theorem Paired.enter (h : t.Paired) : t.enter.Paired := by
  intro s hs
  rcases List.mem_cons.1 hs with rfl | hs
  · rfl
  · exact h s hs

theorem Paired.exists_binds [DecidableEq ν] (h : t.Paired) {m : Meaning}
    (hx : t.meaning? x = some m) :
    ∃ id, t.Binds id x := by
  obtain ⟨s, hs, hm⟩ := List.exists_of_findSome?_eq_some hx
  obtain ⟨before, rest, hnames, -⟩ := List.lookup_eq_some_iff.1 hm
  have hmem : x ∈ s.nodes.map Prod.snd := by simp [← h s hs, hnames]
  obtain ⟨⟨id, y⟩, hid, rfl⟩ := List.mem_map.1 hmem
  exact ⟨id, s, hs, hid⟩

end SymbolTable

/-! ### Spellings -/

theorem eq_of_numbered {w w' : List Char} {c c' : Char} {n n' : Nat} (hc : isDigit c = false)
    (hc' : isDigit c' = false)
    (h : w ++ c :: (toString n).toList = w' ++ c' :: (toString n').toList) :
    w = w' ∧ c = c' ∧ n = n' := by
  -- read backwards, a numbered word is a run of digits and the rest
  have hdigits (n : Nat) : ∀ d ∈ (toString n).toList.reverse, isDigit d = true :=
    fun d hd => isDigit_of_mem_toString (List.mem_reverse.1 hd)
  have h := congrArg List.reverse h
  simp only [List.reverse_append, List.reverse_cons, List.append_assoc, List.singleton_append] at h
  have hnumber := congrArg (List.takeWhile isDigit) h
  rw [takeWhile_append_of_stops (hdigits n) (stops_cons hc),
    takeWhile_append_of_stops (hdigits n') (stops_cons hc'), List.reverse_inj] at hnumber
  have hrest := congrArg (List.dropWhile isDigit) h
  rw [dropWhile_append_of_stops (hdigits n) (stops_cons hc),
    dropWhile_append_of_stops (hdigits n') (stops_cons hc'), List.cons.injEq,
    List.reverse_inj] at hrest
  refine ⟨hrest.2, hrest.1, ?_⟩
  rw [← decimalValue_toString n, hnumber, decimalValue_toString]

theorem Role.eq_of_text {r r' : Role} (h : r.text = r'.text) : r = r' := by
  cases r <;> cases r' <;> simp [Role.text] at h ⊢

namespace Name

theorem toList_text_parameter (n : Nat) :
    (parameter n).text.toList = [] ++ 'p' :: (toString n).toList := by
  simp [text]

theorem toList_text_fresh (role : Role) (n : Nat) :
    (fresh role n).text.toList = role.text.toList ++ '_' :: (toString n).toList := by
  simp [text, Role.numbered]

theorem text_fresh_inj {role role' : Role} {n n' : Nat}
    (h : (fresh role n).text = (fresh role' n').text) : role = role' ∧ n = n' := by
  have h := congrArg String.toList h
  rw [toList_text_fresh, toList_text_fresh] at h
  obtain ⟨hrole, -, hn⟩ := eq_of_numbered rfl rfl h
  exact ⟨Role.eq_of_text (String.toList_inj.1 hrole), hn⟩

theorem text_parameter_inj {n n' : Nat} (h : (parameter n).text = (parameter n').text) :
    n = n' := by
  have h := congrArg String.toList h
  rw [toList_text_parameter, toList_text_parameter] at h
  exact (eq_of_numbered rfl rfl h).2.2

theorem text_parameter_ne_fresh (n n' : Nat) (role : Role) :
    (parameter n).text ≠ (fresh role n').text := by
  intro h
  have h := congrArg String.toList h
  rw [toList_text_parameter, toList_text_fresh] at h
  exact absurd (eq_of_numbered rfl rfl h).2.1 (by decide)

end Name

end Kernelwright.Code
