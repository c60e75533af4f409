import Mathlib.Data.List.Nodup
import Kernelwright.Proofs.Code.Structs

/-!
# Repeated declarations

Lists of struct declarations are asked for types and take over one another, in any order. Each list
declares a name once and finds it. Fields are declared before records, so taking over a list adds
just the names that were missing.
-/

namespace Kernelwright.Code.Structs

open ElementType

variable {among : ElementType → Prop} {s s' other : Structs} {t : ElementType} {name : String}

/-! ### One list -/

theorem Grows.types_isPrefix (h : Grows among s s') : s.types <+: s'.types := by
  induction h with
  | refl => exact List.prefix_rfl
  | declare _ _ _ _ ih => exact ih.trans (List.prefix_append _ _)

theorem register_eq_self (hs : s.InStep) (h : t.needsStruct = true → t.cName ∈ s.names) :
    s.register t = s := by
  rw [register.eq_def, if_pos]
  cases hstruct : t.needsStruct with
  | false => rfl
  | true => exact (hs.contains_iff _).2 (h hstruct)

theorem registerAll_eq_self {ts : List ElementType} (hs : s.InStep)
    (h : ∀ t ∈ ts, t.needsStruct = true → t.cName ∈ s.names) : s.registerAll ts = s := by
  induction ts with
  | nil => rw [registerAll]
  | cons t ts ih =>
    obtain ⟨ht, hts⟩ := List.forall_mem_cons.1 h
    rw [registerAll, register_eq_self hs ht, ih hts]

theorem registerAll_append (s : Structs) (ts us : List ElementType) :
    s.registerAll (ts ++ us) = (s.registerAll ts).registerAll us := by
  induction ts generalizing s with
  | nil => rw [registerAll, List.nil_append]
  | cons t ts ih => rw [List.cons_append, registerAll, registerAll, ih]

theorem mem_names_register (hs : s.InStep) (hstruct : t.needsStruct = true)
    (hfields : ∀ f ∈ t.fields, f.needsStruct = true → f.cName ∈ s.names) :
    name ∈ (s.register t).names ↔ name ∈ s.names ∨ name = t.cName := by
  by_cases hdone : t.cName ∈ s.names
  · rw [register_eq_self hs fun _ => hdone]
    refine ⟨.inl, ?_⟩
    rintro (hname | rfl)
    · exact hname
    · exact hdone
  · cases t with
    | scalar k => cases hstruct
    | record ts =>
      have hopen : ¬ (!(record ts).needsStruct || s.contains (record ts).cName) = true := by
        simpa [hstruct, hs.contains_iff] using hdone
      have hself : s.registerAll ts = s := registerAll_eq_self hs hfields
      rw [register, if_neg hopen, hself, names_declare, List.mem_append, List.mem_singleton]

/-- Taking over a list adds the names that were missing. -/
theorem Grows.mem_names_merge (hs : s.InStep) (h : Grows among .empty other) :
    name ∈ (s.merge other).names ↔ name ∈ s.names ∨ name ∈ other.names := by
  induction h generalizing name with
  | refl => simp [merge, empty, registerAll, names]
  | @declare other t _ _ hstruct hfields ih =>
    have hdeclared (f : ElementType) (hf : f ∈ t.fields) (hneeds : f.needsStruct = true) :
        f.cName ∈ (s.merge other).names := ih.2 (.inr (hfields f hf hneeds))
    have hstep : s.merge (other.declare t) = (s.merge other).register t := by
      rw [merge, Structs.declare, registerAll_append, registerAll, registerAll, merge]
    have hmerged : (s.merge other).InStep := (grows_register.2 s _ hs).2.1
    rw [hstep, mem_names_register hmerged hstruct hdeclared, ih, or_assoc]
    simp [names_declare]

theorem InStep.nodup (h : s.InStep) : s.names.Nodup := by
  refine List.nodup_iff_getElem?_ne_getElem?.2 fun i j hij hj heq => ?_
  have hname := List.getElem?_eq_getElem hj
  have hi := (h _ i).2 (heq.trans hname)
  rw [(h _ j).2 hname] at hi
  exact Nat.ne_of_gt hij (Option.some.inj hi)

theorem InStep.get?_eq_some_iff (h : s.InStep) :
    s.get? name = some t ↔ t ∈ s.types ∧ t.cName = name := by
  rw [get?, Option.bind_eq_some_iff]
  constructor
  · rintro ⟨i, hi, ht⟩
    have hname := (h name i).1 hi
    rw [names, List.getElem?_map, ht] at hname
    exact ⟨List.mem_of_getElem? ht, Option.some.inj hname⟩
  · rintro ⟨ht, rfl⟩
    obtain ⟨i, hi⟩ := List.mem_iff_getElem?.1 ht
    exact ⟨i, (h _ i).2 (by rw [names, List.getElem?_map, hi]; rfl), hi⟩

/-! ### Several lists -/

/-- A call for a type, or one to take over the declarations of another list. -/
inductive Call where
  | register (list : Nat) (type : ElementType)
  | merge (list other : Nat)

def Call.run (lists : Nat → Structs) : Call → Nat → Structs
  | register i t => fun k => if k = i then (lists i).register t else lists k
  | merge i j => fun k => if k = i then (lists i).merge (lists j) else lists k

/-- What calls make of the lists, one call after the other. -/
def runAll (lists : Nat → Structs) (calls : List Call) : Nat → Structs := calls.foldl Call.run lists

variable {lists : Nat → Structs} {calls : List Call} {i : Nat}

theorem Call.run_cases (lists : Nat → Structs) (call : Call) (i : Nat) :
    call.run lists i = lists i ∨ (∃ t, call.run lists i = (lists i).register t) ∨
      ∃ j, call.run lists i = (lists i).merge (lists j) := by
  cases call with
  | register k t =>
    by_cases hi : i = k
    · subst hi
      exact .inr (.inl ⟨t, if_pos rfl⟩)
    · exact .inl (if_neg hi)
  | merge k j =>
    by_cases hi : i = k
    · subst hi
      exact .inr (.inr ⟨j, if_pos rfl⟩)
    · exact .inl (if_neg hi)

theorem assembled_runAll (h : ∀ i, Assembled (fun _ => True) (lists i)) (calls : List Call) :
    ∀ i, Assembled (fun _ => True) (runAll lists calls i) := by
  induction calls generalizing lists with
  | nil => exact h
  | cons call calls ih =>
    refine ih fun i => ?_
    rcases call.run_cases lists i with heq | ⟨t, heq⟩ | ⟨j, heq⟩ <;> rw [heq]
    · exact h i
    · exact (h i).register trivial
    · exact (h i).merge (h j)

theorem prefix_runAll (h : ∀ i, Assembled (fun _ => True) (lists i)) (calls : List Call) (i : Nat) :
    (lists i).types <+: (runAll lists calls i).types := by
  induction calls generalizing lists with
  | nil => exact List.prefix_rfl
  | cons call calls ih =>
    refine List.IsPrefix.trans ?_ (ih (assembled_runAll h [call]))
    rcases call.run_cases lists i with heq | ⟨t, heq⟩ | ⟨j, heq⟩
    · exact heq ▸ List.prefix_rfl
    · exact heq ▸ (grows_register.1 _ t (h i).inStep).1.types_isPrefix
    · exact heq ▸ (grows_register.2 _ _ (h i).inStep).1.types_isPrefix

theorem mem_names_runAll (h : ∀ i, Assembled (fun _ => True) (lists i))
    (hcall : .register i t ∈ calls)
    (hstruct : t.needsStruct = true) : t.cName ∈ (runAll lists calls i).names := by
  induction calls generalizing lists with
  | nil => cases hcall
  | cons call calls ih =>
    have hnext := assembled_runAll h [call]
    rcases List.mem_cons.1 hcall with rfl | hcall
    · have hnow : t.cName ∈ (Call.run lists (.register i t) i).names := by
        simp only [Call.run, if_true]
        exact (grows_register.1 _ t (h i).inStep).2.2 hstruct
      exact List.map_subset _ (prefix_runAll hnext calls i).subset hnow
    · exact ih hnext hcall

end Kernelwright.Code.Structs
