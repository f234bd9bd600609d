import SqlCompose.Proofs.Clause.Membership

/-!
Filters that are given the empty name for a value, where the names of what is bound are checked and
not the names that are given.
-/
namespace SqlCompose

namespace Filter

variable {f : Filter}

/-- Whether a value is present for which the filter is given the empty name. -/
def IsUnnamed : Filter → Prop
  | .compare _ _ name value => name = "" ∧ value.isSome
  | .between _ _ lowName low highName high =>
    (lowName = "" ∧ low.isSome) ∨ (highName = "" ∧ high.isSome)
  | .member _ _ name values => name = "" ∧ values.getD [] ≠ []
  | .pattern _ _ _ name value => name = "" ∧ value.getD "" ≠ ""

/-- Apart from lists the name given for a value is the one that it is bound under. -/
theorem exists_unnamed_supplied (h : f.IsUnnamed) (hf : f.isMember = false) :
    ∃ q ∈ f.supplied, q.name = "" := by
  cases f with
  | compare column op name value =>
    obtain ⟨rfl, hvalue⟩ := h
    obtain ⟨v, rfl⟩ := Option.isSome_iff_exists.mp hvalue
    exact ⟨v.toParam "", List.mem_singleton.mpr rfl, rfl⟩
  | between negated column lowName low highName high =>
    rcases h with ⟨rfl, hlow⟩ | ⟨rfl, hhigh⟩
    · obtain ⟨v, rfl⟩ := Option.isSome_iff_exists.mp hlow
      exact ⟨v.toParam "", List.mem_append_left _ (List.mem_singleton.mpr rfl), rfl⟩
    · obtain ⟨v, rfl⟩ := Option.isSome_iff_exists.mp hhigh
      exact ⟨v.toParam "", List.mem_append_right _ (List.mem_singleton.mpr rfl), rfl⟩
  | member negated column name values => cases hf
  | pattern negated anchor column name value =>
    obtain ⟨rfl, hvalue⟩ := h
    cases value with
    | none => exact absurd rfl hvalue
    | some s =>
      have hs : s ≠ "" := hvalue
      refine ⟨(Typed.ofText (.ofList (anchor.pattern s.toList))).toParam "", ?_, rfl⟩
      simp [supplied, hs]

theorem name_ne_of_isMember (h : f.isMember = true) : ∀ q ∈ f.supplied, q.name ≠ "" := by
  cases f with
  | member negated column name values =>
    intro q hq
    obtain ⟨i, v, -, rfl⟩ := mem_placed.mp hq
    exact placeholder_ne_empty name i
  | _ => cases h

theorem exists_predicate?_of_isUnnamed (h : f.IsUnnamed) : ∃ p, f.predicate? = some p := by
  cases hf : f.isMember with
  | false =>
    obtain ⟨q, hq, -⟩ := exists_unnamed_supplied h hf
    exact exists_predicate?_of_mem_supplied hq
  | true =>
    cases f with
    | member negated column name values =>
      rcases values with - | - | ⟨v, vs⟩
      · exact absurd rfl h.2
      · exact absurd rfl h.2
      · exact ⟨_, rfl⟩
    | _ => cases hf

end Filter

namespace Clause

variable {c : Clause} {f : Filter} {p : Predicate}

/-- A filter whose key is new is refused exactly if something that it supplies has no name. -/
theorem addFilter_eq_refuse_iff (hf : f.predicate? = some p)
    (hkey : c.containsExpression p.key = false) :
    c.addFilter f = .refuse c .unnamedParam ↔ ∃ q ∈ f.supplied, q.name = "" := by
  constructor
  · intro hrefused
    by_contra hnone
    have hnamed : ∀ q ∈ f.supplied, q.name ≠ "" := by
      intro q hq hname
      exact hnone ⟨q, hq, hname⟩
    have hfault := fault_addFilter (c := c) hnamed
    rw [hrefused] at hfault
    cases hfault
  · rintro ⟨q, hq, hname⟩
    have hchecked : q ∈ c.checked (.addFilter f) := by
      simp only [checked, checkedOf, hf, hkey, Option.map_some, Option.getD_some]
      rwa [← Filter.supplied_of_predicate? hf]
    cases hfault : (c.apply (.addFilter f)).fault with
    | none => exact absurd hname (fault_apply_eq_none_iff.mp hfault q hchecked)
    | some e => exact apply_of_fault hfault

/-- The empty name for a value that is present is refused by every filter whose key is new, and leaves no
trace, unless it is the name of a list: such a list is accepted and its condition appended. -/
theorem unnamed_filter_refused_iff (h : f.IsUnnamed)
    (hkey : ∀ k, f.key? = some k → c.containsExpression k = false) :
    (c.addFilter f = .refuse c .unnamedParam ↔ f.isMember = false) ∧
      (f.isMember = true → (c.addFilter f).fault = none ∧
        ∃ text, (c.addFilter f).state.expressions.toList = c.expressions.toList ++ [text]) := by
  obtain ⟨p, hp⟩ := Filter.exists_predicate?_of_isUnnamed h
  have hnew : c.containsExpression p.key = false := hkey p.key (Filter.key?_of_predicate? hp)
  refine ⟨⟨fun hrefused => ?_, fun hf => ?_⟩, fun hlist => ?_⟩
  · obtain ⟨q, hq, hname⟩ := (addFilter_eq_refuse_iff hp hnew).mp hrefused
    cases hlist : f.isMember with
    | false => rfl
    | true => exact absurd hname (Filter.name_ne_of_isMember hlist q hq)
  · exact (addFilter_eq_refuse_iff hp hnew).mpr (Filter.exists_unnamed_supplied h hf)
  · obtain ⟨hfault, hstate⟩ := addFilter_of_new hp (Filter.name_ne_of_isMember hlist) hnew
    exact ⟨hfault, p.text, hstate ▸ toList_withPredicate hnew⟩

/-- A range whose upper end has no name. -/
theorem unnamed_filter_refused_iff_range :
    let c := whereList .and
    let range : Filter :=
      .between false "age" "@low" (some ⟨.int32, (18 : Int32)⟩) "" (some ⟨.int32, (65 : Int32)⟩)
    range.IsUnnamed ∧ (∀ k, range.key? = some k → c.containsExpression k = false) ∧
      range.isMember = false ∧ c.addFilter range = .refuse c .unnamedParam := by
  intro c range
  have hunnamed : range.IsUnnamed := .inr ⟨rfl, rfl⟩
  have hkey : ∀ k, range.key? = some k → c.containsExpression k = false := fun _ _ => rfl
  exact ⟨hunnamed, hkey, rfl, (unnamed_filter_refused_iff hunnamed hkey).1.mpr rfl⟩

/-- A list without a name is taken for one whose placeholders are its numbers, so that its condition
compares with these numbers and not with the values. -/
theorem unnamed_list_accepted :
    let ids : Filter := .memberOf false "id" "" [⟨.int32, (7 : Int32)⟩, ⟨.int32, (8 : Int32)⟩]
    let o := empty.addFilter ids
    empty.Reachable ∧ ids.IsUnnamed ∧ ids.key? = some "" ∧ empty.containsExpression "" = false ∧
      o ≠ .refuse empty .unnamedParam ∧ o.fault = none ∧
      o.state.expressions.toList = ["id in (1, 2)"] ∧
      o.state.paramList = [.ofValue "1" (.int32 7), .ofValue "2" (.int32 8)] := by
  intro ids o
  have hreach : empty.Reachable := ⟨[.create .empty], .clause 0, rfl⟩
  have haccepted : o.fault = none := rfl
  refine ⟨hreach, ⟨rfl, List.cons_ne_nil _ _⟩, rfl, rfl, fun hrefused => ?_, haccepted, rfl, rfl⟩
  rw [hrefused] at haccepted
  cases haccepted

end Clause

end SqlCompose
