import SqlCompose.Proofs.Clause.Condition
import SqlCompose.Proofs.Select.Opened

/-!
Filters whose values are absent may be left out of every run, together with the opening of the part
that they were meant for.
-/
namespace SqlCompose

namespace Filter

/-- Whether no value is there to filter by; an empty list or text counts as absent. -/
def isAbsent : Filter → Bool
  | .compare _ _ _ value => value.isNone
  | .between _ _ _ low _ high => low.isNone && high.isNone
  | .member _ _ _ values => values.all List.isEmpty
  | .pattern _ _ _ _ value => value.all String.isEmpty

/-- A filter asks for no condition exactly if its values are absent. -/
theorem predicate?_eq_none_iff {f : Filter} : f.predicate? = none ↔ f.isAbsent = true := by
  cases f with
  | compare column op name value => cases value <;> simp [predicate?, isAbsent]
  | between negated column lowName low highName high =>
    cases low <;> cases high <;> simp [predicate?, isAbsent]
  | member negated column name values =>
    rcases values with - | - | ⟨v, vs⟩ <;> simp [predicate?, isAbsent]
  | pattern negated anchor column name value =>
    cases value <;> simp [predicate?, isAbsent, Option.filter]

end Filter

namespace Clause

variable {c : Clause} {f : Filter} {fs : List Filter}

theorem addFilter_of_isAbsent (h : f.isAbsent = true) : c.addFilter f = .accept c := by
  rw [addFilter, Filter.predicate?_eq_none_iff.mpr h]

/-- Each filter of a run with the fault that it ends with. -/
def answers (c : Clause) : List Filter → List (Filter × Option Fault)
  | [] => []
  | f :: fs => (f, (c.addFilter f).fault) :: (c.addFilter f).state.answers fs

theorem addFilters_filter_isAbsent (c : Clause) (fs : List Filter) :
    c.addFilters (fs.filter fun f => !f.isAbsent) = c.addFilters fs := by
  induction fs generalizing c with
  | nil => rfl
  | cons f fs ih =>
    cases hf : f.isAbsent with
    | true =>
      rw [List.filter_cons_of_neg (by simp [hf]), ih, addFilters_cons, addFilter_of_isAbsent hf]
      rfl
    | false =>
      rw [List.filter_cons_of_pos (by simp [hf]), addFilters_cons, ih, addFilters_cons]

theorem answers_filter_isAbsent (c : Clause) (fs : List Filter) :
    c.answers (fs.filter fun f => !f.isAbsent) =
      (c.answers fs).filter fun answer => !answer.1.isAbsent := by
  induction fs generalizing c with
  | nil => rfl
  | cons f fs ih =>
    cases hf : f.isAbsent with
    | true =>
      rw [List.filter_cons_of_neg (by simp [hf]), ih, answers, addFilter_of_isAbsent hf,
        List.filter_cons_of_neg (by simp [hf])]
      rfl
    | false =>
      rw [List.filter_cons_of_pos (by simp [hf]), answers, ih, answers,
        List.filter_cons_of_pos (by simp [hf])]

theorem fault_of_mem_answers {o : Option Fault} (h : (f, o) ∈ c.answers fs)
    (hf : f.isAbsent = true) : o = none := by
  induction fs generalizing c with
  | nil => cases h
  | cons g gs ih =>
    rw [answers, List.mem_cons] at h
    rcases h with h | h
    · obtain ⟨rfl, rfl⟩ := Prod.mk.inj h
      rw [addFilter_of_isAbsent hf]
      rfl
    · exact ih h

end Clause

namespace Select

variable {t : Select} {op : Op}

/-- Whether an operation can do no more than bring a part into being: an absent filter, the bare
opening of a part, or a limit without a value. -/
def Op.isIdle {ρ : Type} : Op ρ → Bool
  | .edit _ (.addFilter f) => f.isAbsent
  | .openPart _ => true
  | .top value _ => value.isNone
  | _ => false

theorem opened_apply_of_isIdle (h : op.isIdle = true) : (t.apply op).state.opened = t.opened := by
  cases op with
  | edit p op =>
    cases op with
    | addFilter f =>
      have hopen : (t.apply (.edit p (.addFilter f))).state = t.openPart p := by
        simp only [apply, edit, Clause.apply, Outcome.state_map]
        rw [Clause.addFilter_of_isAbsent h]
        rfl
      rw [hopen, opened_openPart]
    | _ => cases h
  | openPart p => exact opened_openPart t p
  | top value name =>
    obtain rfl : value = none := Option.isNone_iff_eq_none.mp h
    rfl
  | whereJoiner j => cases h
  | havingJoiner j => cases h
  | build => cases h

theorem built_of_isIdle (h : op.isIdle = true) : t.built [op] = [] := by
  cases op with
  | build => cases h
  | _ => rfl

theorem built_filter_isIdle (t : Select) (ops : List Op) :
    t.built (ops.filter fun op => !op.isIdle) = t.built ops := by
  induction ops generalizing t with
  | nil => rfl
  | cons op ops ih =>
    cases hop : op.isIdle with
    | true =>
      rw [List.filter_cons_of_neg (by simp [hop]), ih, built_cons, built_of_isIdle hop,
        List.nil_append, built_eq_of_opened_eq (opened_apply_of_isIdle hop)]
    | false =>
      rw [List.filter_cons_of_pos (by simp [hop]), built_cons, ih, ← built_cons]

end Select

/-- Absent filters leave no mark. Without them a run of filters ends with the same clause and the
other filters end as before, while each of them is accepted. And two runs on a select statement build
the same if they differ in absent filters, bare openings of parts and limits without a value only. -/
theorem absent_filters_leave_no_mark :
    (∀ (c : Clause) (fs : List Filter),
      c.addFilters (fs.filter fun f => !f.isAbsent) = c.addFilters fs ∧
        c.answers (fs.filter fun f => !f.isAbsent) =
          ((c.answers fs).filter fun answer => !answer.1.isAbsent) ∧
        ∀ f o, (f, o) ∈ c.answers fs → f.isAbsent = true → o = none) ∧
    ∀ (t : Select) (ops ops' : List Select.Op),
      (ops.filter fun op => !op.isIdle) = (ops'.filter fun op => !op.isIdle) →
        t.built ops = t.built ops' := by
  refine ⟨fun c fs => ⟨c.addFilters_filter_isAbsent fs, c.answers_filter_isAbsent fs,
    fun f o => Clause.fault_of_mem_answers⟩, fun t ops ops' h => ?_⟩
  rw [← Select.built_filter_isIdle t ops, h, Select.built_filter_isIdle]

/-- An absent pattern under no name, which a present one could not have, and a statement whose where
list comes into being for an absent range only. -/
theorem absent_filters_leave_no_mark_people :
    (let c := Clause.whereList .and
      let absent : Filter := .pattern false .atStart "name" "" (some "")
      let unnamed : Filter := .pattern false .atStart "name" "" (some "ann")
      c.answers [absent, unnamed] = [(absent, none), (unnamed, some .unnamedParam)] ∧
        absent.isAbsent = true ∧
        ∀ o, (absent, o) ∈ c.answers [absent, unnamed] → o = none) ∧
    (let range : Filter := .between true "age" "@low" none "@high" none
      let ops : List Select.Op :=
        [.openPart .whereList, .edit .whereList (.addFilter range), .top none "@top",
          .whereJoiner .or, .build, .edit .selectList (.add "name"), .build]
      let kept : List Select.Op := [.whereJoiner .or, .build, .edit .selectList (.add "name"), .build]
      (ops.filter fun op => !op.isIdle) = kept ∧
        ((Select.ofTable "people").run ops).whereList.isSome = true ∧
        ((Select.ofTable "people").run kept).whereList.isSome = false ∧
        (Select.ofTable "people").built ops = (Select.ofTable "people").built kept) := by
  refine ⟨⟨rfl, rfl, fun o ho => ?_⟩, rfl, rfl, rfl, ?_⟩
  · exact (absent_filters_leave_no_mark.1 _ _).2.2 _ o ho rfl
  · exact absent_filters_leave_no_mark.2 _ _ _ rfl

end SqlCompose
