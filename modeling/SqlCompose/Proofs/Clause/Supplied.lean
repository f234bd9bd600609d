import SqlCompose.Proofs.Clause.Log

/-!
What a filter supplies: the key of its condition and the parameters for the values that are present.
-/
namespace SqlCompose

namespace Filter

variable {f : Filter} {p : Predicate} {q : Param} {k : String}

/-- The names that a filter is given for its values. -/
def names : Filter → List String
  | .compare _ _ name _ => [name]
  | .between _ _ lowName _ highName _ => [lowName, highName]
  | .member _ _ name _ => [name]
  | .pattern _ _ _ name _ => [name]

/-- The parameters for the values that are present, in order: bounds from low to high, and the values
of a list under the name with their number behind it, counted from one. -/
def supplied : Filter → List Param
  | .compare _ _ name value => value.toList.map (·.toParam name)
  | .between _ _ lowName low highName high =>
    low.toList.map (·.toParam lowName) ++ high.toList.map (·.toParam highName)
  | .member _ _ name values =>
    (values.getD []).mapIdx fun i v => v.toParam (name ++ toString (i + 1))
  | .pattern _ anchor _ name value =>
    (value.toList.filter fun s => !s.isEmpty).map fun s =>
      (Typed.ofText (.ofList (anchor.pattern s.toList))).toParam name

/-- The key of the condition that a filter asks for. -/
def key? (f : Filter) : Option String := f.predicate?.map Predicate.key

/-- The condition that a filter asks for in words. -/
def text? (f : Filter) : Option String := f.predicate?.map Predicate.text

def isMember : Filter → Bool
  | .member _ _ _ _ => true
  | _ => false

theorem numbered_eq_mapIdx (name : String) (n : Nat) (vs : List Typed) :
    numbered name n vs = vs.mapIdx fun i v => v.toParam (name ++ toString (i + n)) := by
  induction vs generalizing n with
  | nil => rfl
  | cons v vs ih =>
    rw [numbered, ih, List.mapIdx_cons, Nat.zero_add]
    simp only [Nat.add_right_comm, Nat.add_assoc]

/-- What a filter supplies is what its condition binds, none if it asks for no condition. -/
theorem supplied_eq (f : Filter) : f.supplied = (f.predicate?.map Predicate.params).getD [] := by
  cases f with
  | compare column op name value => cases value <;> rfl
  | between negated column lowName low highName high => cases low <;> cases high <;> rfl
  | member negated column name values =>
    rcases values with - | - | ⟨v, vs⟩
    · rfl
    · rfl
    · exact (numbered_eq_mapIdx name 1 (v :: vs)).symm
  | pattern negated anchor column name value =>
    cases value with
    | none => rfl
    | some s =>
      rw [supplied, predicate?]
      by_cases hs : s.isEmpty = true
      · simp [hs, Option.filter]
      · simp [hs, Option.filter, Predicate.params]

theorem exists_predicate?_of_mem_supplied (hq : q ∈ f.supplied) :
    ∃ p, f.predicate? = some p := by
  rw [supplied_eq] at hq
  cases hf : f.predicate? with
  | none =>
    rw [hf] at hq
    cases hq
  | some p => exact ⟨p, rfl⟩

theorem supplied_of_predicate? (h : f.predicate? = some p) : f.supplied = p.params := by
  rw [supplied_eq, h]
  rfl

theorem key?_of_predicate? (h : f.predicate? = some p) : f.key? = some p.key := by
  rw [key?, h]
  rfl

theorem text?_of_predicate? (h : f.predicate? = some p) : f.text? = some p.text := by
  rw [text?, h]
  rfl

theorem exists_predicate?_of_key? (h : f.key? = some k) :
    ∃ p, f.predicate? = some p ∧ p.key = k :=
  Option.map_eq_some_iff.mp h

/-- A condition on a list of values binds its key with a number behind it; every other one binds its
key itself. -/
theorem exists_mem_supplied (h : f.key? = some k) :
    ∃ q ∈ f.supplied, q.name = if f.isMember then k ++ "1" else k := by
  cases f with
  | compare column op name value =>
    cases value with
    | none => cases h
    | some v => exact ⟨_, List.mem_singleton.mpr rfl, Option.some.inj h⟩
  | between negated column lowName low highName high =>
    cases low <;> cases high
    · cases h
    all_goals exact ⟨_, List.mem_cons_self, Option.some.inj h⟩
  | member negated column name values =>
    rcases values with - | - | ⟨v, vs⟩
    · cases h
    · cases h
    · obtain rfl : name = k := Option.some.inj h
      refine ⟨v.toParam (name ++ "1"), ?_, rfl⟩
      rw [supplied, Option.getD_some, List.mapIdx_cons]
      exact List.mem_cons_self
  | pattern negated anchor column name value =>
    obtain ⟨p, hp, hk⟩ := exists_predicate?_of_key? h
    obtain ⟨s, -, hs⟩ := Option.map_eq_some_iff.mp hp
    subst hs
    rw [supplied_of_predicate? hp]
    exact ⟨_, List.mem_singleton.mpr rfl, hk⟩

theorem isVacuous_of_predicate? (h : f.predicate? = some p) : p.isVacuous = false := by
  obtain ⟨q, hq, -⟩ := exists_mem_supplied (key?_of_predicate? h)
  rw [supplied_of_predicate? h] at hq
  rw [Predicate.isVacuous, List.isEmpty_eq_false_iff]
  exact List.ne_nil_of_mem hq

/-- What a filter supplies goes under a name that it is given, in a list with a number behind it. -/
theorem name_of_mem_supplied (hq : q ∈ f.supplied) :
    q.name ∈ f.names ∨ ∃ n ∈ f.names, ∃ i : Nat, q.name = n ++ toString i := by
  cases f with
  | compare column op name value =>
    obtain ⟨v, -, rfl⟩ := List.mem_map.mp hq
    exact .inl (List.mem_singleton.mpr rfl)
  | between negated column lowName low highName high =>
    rcases List.mem_append.mp hq with hq | hq
    · obtain ⟨v, -, rfl⟩ := List.mem_map.mp hq
      exact .inl List.mem_cons_self
    · obtain ⟨v, -, rfl⟩ := List.mem_map.mp hq
      exact .inl (List.mem_cons_of_mem lowName List.mem_cons_self)
  | member negated column name values =>
    obtain ⟨i, hi, rfl⟩ := List.mem_mapIdx.mp hq
    exact .inr ⟨name, List.mem_singleton.mpr rfl, i + 1, rfl⟩
  | pattern negated anchor column name value =>
    obtain ⟨s, -, rfl⟩ := List.mem_map.mp hq
    exact .inl (List.mem_singleton.mpr rfl)

/-- A filter that is given names binds nothing without one. -/
theorem name_ne_of_mem_supplied (h : ∀ n ∈ f.names, n ≠ "") (hq : q ∈ f.supplied) :
    q.name ≠ "" := by
  rcases name_of_mem_supplied hq with hn | ⟨n, hn, i, hi⟩
  · exact h _ hn
  · have hname : n ≠ "" := h n hn
    simp [hi, hname]

end Filter

namespace Clause

variable {c : Clause} {f : Filter} {p : Predicate} {k : String}

/-- A filter that has names for what it supplies is never refused. -/
theorem fault_addFilter (h : ∀ q ∈ f.supplied, q.name ≠ "") : (c.addFilter f).fault = none := by
  have hchecked : ∀ q ∈ c.checked (.addFilter f), q.name ≠ "" := by
    intro q hq
    rw [checked] at hq
    cases hf : f.predicate? with
    | none =>
      rw [hf] at hq
      cases hq
    | some p =>
      rw [hf, Option.map_some, Option.getD_some, checkedOf] at hq
      rw [Filter.supplied_of_predicate? hf] at h
      split at hq
      · cases hq
      · exact h q hq
  exact fault_apply_eq_none_iff.mpr hchecked

/-- What is left to decide about a filter that has names is whether its key is there. -/
theorem takes_iff_of_named (hf : f.predicate? = some p) (h : ∀ q ∈ f.supplied, q.name ≠ "") :
    c.takes p = true ↔ ¬ c.containsExpression p.key = true := by
  rw [Filter.supplied_of_predicate? hf] at h
  simp [takes, Filter.isVacuous_of_predicate? hf, allNamed_iff.mpr h]

/-- A filter that has names and whose key is new is accepted, and its condition is taken. -/
theorem addFilter_of_new (hf : f.predicate? = some p) (h : ∀ q ∈ f.supplied, q.name ≠ "")
    (hkey : c.containsExpression p.key = false) :
    (c.addFilter f).fault = none ∧ (c.addFilter f).state = c.withPredicate p := by
  have htakes : c.takes p = true := (takes_iff_of_named hf h).mpr (Bool.eq_false_iff.mp hkey)
  exact ⟨fault_addFilter h, state_addFilter_of_takes hf htakes⟩

theorem containsExpression_state_addFilter (hf : f.predicate? = some p) (htakes : c.takes p = true) :
    (c.addFilter f).state.containsExpression k = true ↔
      k = p.key ∨ c.containsExpression k = true := by
  rw [state_addFilter_of_takes hf htakes]
  exact KeyedSeq.containsKey_insert

theorem containsParam_state_addFilter (hf : f.predicate? = some p) (htakes : c.takes p = true) :
    (c.addFilter f).state.containsParam k = true ↔
      k ∈ p.params.map Param.name ∨ c.containsParam k = true := by
  rw [state_addFilter_of_takes hf htakes]
  exact KeyedSeq.containsKey_insertAll

end Clause

end SqlCompose
