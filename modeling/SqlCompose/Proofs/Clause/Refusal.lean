import SqlCompose.Proofs.Clause.Statement
import SqlCompose.Select.Basic

/-! When an operation is refused, and that a refused one leaves everything as it was. -/
namespace SqlCompose

variable {c : Clause} {t : Select} {f : Fault}

/-- A condition has a text whatever the column and the names are. -/
theorem Predicate.isEmpty_text (p : Predicate) : p.text.isEmpty = false := by
  cases p <;> simp [text]

namespace Clause

/-- The parameters that a condition is about to bind. -/
def checkedOf (c : Clause) (p : Predicate) : List Param :=
  if c.containsExpression p.key then [] else p.params

/-- The parameters that an operation checks for names: those that it is about to bind, except the
ones that it takes over from another clause. -/
def checked (c : Clause) : Op → List Param
  | .addKeyedWithParams key text ps overwrite =>
    if text.isEmpty || !c.expressions.accepts key overwrite then [] else ps
  | .addParam p => [p]
  | .addParams ps => ps
  | .addPredicate p => c.checkedOf p
  | .addFilter filter => (filter.predicate?.map c.checkedOf).getD []
  | _ => []

/-- The outcome of an operation is a refusal that changes and reports nothing if one of the given
parameters has no name, and no refusal otherwise. -/
def Checks (c : Clause) (ps : List Param) (o : Outcome Clause) : Prop :=
  if allNamed ps then o.fault = none else o = .refuse c .unnamedParam

theorem checks_nil {o : Outcome Clause} (h : o.fault = none) : c.Checks [] o := h

theorem checks_addParams (c : Clause) (ps : List Param) : c.Checks ps (c.addParams ps) := by
  rw [Checks, addParams]
  split <;> rfl

theorem checks_addKeyedWithParams (c : Clause) (key text : String) (ps : List Param)
    (overwrite : Bool) :
    c.Checks (c.checked (.addKeyedWithParams key text ps overwrite))
      (c.addKeyedWithParams key text ps overwrite) := by
  rw [checked, addKeyedWithParams]
  split
  · exact checks_nil rfl
  · rw [Checks]
    split <;> rfl

/-- What is checked of a condition is what is checked of its text and its parameters under its key. -/
theorem checked_addKeyedWithParams_predicate (c : Clause) (p : Predicate) :
    c.checked (.addKeyedWithParams p.key p.text p.params false) = c.checkedOf p := by
  cases hk : c.containsExpression p.key <;>
    simp_all [checked, checkedOf, p.isEmpty_text, KeyedSeq.accepts, containsExpression]

theorem checks_addPredicate (c : Clause) (p : Predicate) :
    c.Checks (c.checkedOf p) (c.addPredicate p) := by
  rw [addPredicate]
  split
  · rename_i hp
    have : c.checkedOf p = [] := by
      rw [checkedOf, List.isEmpty_iff.mp hp, ite_self]
    rw [this]
    exact checks_nil rfl
  · have h := checks_addKeyedWithParams c p.key p.text p.params false
    rwa [checked_addKeyedWithParams_predicate] at h

theorem checks_addFilter (c : Clause) (filter : Filter) :
    c.Checks (c.checked (.addFilter filter)) (c.addFilter filter) := by
  rw [checked, addFilter]
  cases filter.predicate? with
  | none => exact checks_nil rfl
  | some p => exact checks_addPredicate c p

theorem checks_apply (c : Clause) (op : Op) : c.Checks (c.checked op) (c.apply op) := by
  cases op with
  | addKeyedWithParams key text ps overwrite =>
    exact checks_addKeyedWithParams c key text ps overwrite
  | addParam p => exact checks_addParams c [p]
  | addParams ps => exact checks_addParams c ps
  | addPredicate p => exact checks_addPredicate c p
  | addFilter filter => exact checks_addFilter c filter
  | _ => exact checks_nil rfl

theorem apply_of_fault {op : Op} (h : (c.apply op).fault = some f) :
    c.apply op = .refuse c .unnamedParam := by
  have hc := checks_apply c op
  rw [Checks] at hc
  split at hc
  · rw [hc] at h
    cases h
  · exact hc

theorem fault_apply (c : Clause) (op : Op) :
    (c.apply op).fault = if allNamed (c.checked op) then none else some .unnamedParam := by
  have hc := checks_apply c op
  rw [Checks] at hc
  split at hc
  · rename_i hp
    rw [hc, if_pos hp]
  · rename_i hp
    rw [hc, if_neg hp]
    rfl

/-- An operation is refused exactly if a parameter that it is about to bind has no name. -/
theorem fault_apply_eq_none_iff {op : Op} :
    (c.apply op).fault = none ↔ ∀ p ∈ c.checked op, p.name ≠ "" := by
  rw [fault_apply, ← allNamed_iff]
  split
  · rename_i hp
    simp [hp]
  · rename_i hp
    simp [hp]

variable {d : Clause}

theorem accepts_congr (h : c.containsExpression = d.containsExpression) (key : String)
    (overwrite : Bool) :
    c.expressions.accepts key overwrite = d.expressions.accepts key overwrite :=
  congrArg (overwrite || !·) (congrFun h key)

/-- What is checked depends on the keys of the expressions that are there and on nothing else. -/
theorem checked_congr (h : c.containsExpression = d.containsExpression) (op : Op) :
    c.checked op = d.checked op := by
  have hconditions : c.checkedOf = d.checkedOf := by
    funext p
    rw [checkedOf, checkedOf, h]
  cases op with
  | addKeyedWithParams key text ps overwrite => rw [checked, checked, accepts_congr h]
  | addPredicate p => exact congrFun hconditions p
  | addFilter f => rw [checked, checked, hconditions]
  | _ => rfl

theorem fault_congr (h : c.containsExpression = d.containsExpression) (op : Op) :
    (c.apply op).fault = (d.apply op).fault := by
  rw [fault_apply, fault_apply, checked_congr h]

end Clause

namespace Select

/-- A refused change of a part brings the part into being and does nothing else. -/
theorem edit_of_fault {p : Part} {op : Clause.Op} (h : (t.edit p op).fault = some f) :
    t.edit p op = .refuse (t.openPart p) .unnamedParam := by
  rw [edit, Clause.apply_of_fault h]
  rfl

/-- Only the name of a limit can be refused: the change of the head that follows never is. -/
theorem top_of_fault {value : Option Typed} {name : String}
    (h : (t.top value name).fault = some f) :
    t.top value name = .refuse t .unnamedParam := by
  cases value with
  | none => cases h
  | some v =>
    rw [top, Outcome.andThen] at h ⊢
    split at h
    · rename_i g hg
      rw [edit_of_fault hg]
      rfl
    · cases h

end Select

theorem Outcome.untouched_of_eq_refuse {σ : Type} {o : Outcome σ} {s : σ}
    (ho : o = .refuse s .unnamedParam) (h : o.fault = some f) :
    f.isInvalidArgument = true ∧ o.state = s ∧ o.events = [] := by
  subst ho
  obtain rfl : Fault.unnamedParam = f := Option.some.inj h
  exact ⟨rfl, rfl, rfl⟩

/-- A refused operation leaves no trace: the clause stays as it was, and so does the whole select
statement when a limit is refused. -/
theorem refused_changes_nothing :
    (∀ (c : Clause) (op : Clause.Op) (f : Fault), (c.apply op).fault = some f →
      f.isInvalidArgument = true ∧ (c.apply op).state = c ∧ (c.apply op).events = []) ∧
    ∀ (t : Select) (value : Option Typed) (name : String) (f : Fault),
      (t.top value name).fault = some f →
        f.isInvalidArgument = true ∧ (t.top value name).state = t ∧
          (t.top value name).events = [] := by
  constructor
  · intro c op f h
    exact Outcome.untouched_of_eq_refuse (Clause.apply_of_fault h) h
  · intro t value name f h
    exact Outcome.untouched_of_eq_refuse (Select.top_of_fault h) h

/-- The name that is missing is that of the last parameter of a list, or of a limit. -/
theorem refused_changes_nothing_unnamed :
    (let c := Clause.ofText "select * from people where age > @age"
      let o := c.apply (.addParams [.ofValue "@age" (.int32 18), .ofValue "" (.bool true)])
      o.fault = some .unnamedParam ∧ o.state = c ∧ o.events = []) ∧
    (let t := Select.ofTable "people"
      let o := t.top (some ⟨.int32, 10⟩) ""
      o.fault = some .unnamedParam ∧ o.state = t ∧ o.events = []) :=
  ⟨⟨rfl, (refused_changes_nothing.1 _ _ _ rfl).2⟩, ⟨rfl, (refused_changes_nothing.2 _ _ _ _ rfl).2⟩⟩

end SqlCompose
