import SqlCompose.Proofs.Clause.Refusal

/-!
What the addition of a condition comes to: one more expression with its parameters bound, or nothing
at all, be it ignored or refused.
-/
namespace SqlCompose.Clause

variable {c : Clause} {p : Predicate} {key : String}

/-- Whether a condition is taken: it compares with something, its key is new, and all of its
parameters have names. -/
def takes (c : Clause) (p : Predicate) : Bool :=
  !p.isVacuous && !c.containsExpression p.key && allNamed p.params

/-- The clause with a condition behind its expressions, and with the parameters of the condition. -/
def withPredicate (c : Clause) (p : Predicate) : Clause :=
  { c with
    expressions := c.expressions.insert p.key p.text false
    params := c.params.insertAll Param.name p.params }

theorem accepts_false (c : Clause) (key : String) :
    c.expressions.accepts key false = !c.containsExpression key := rfl

/-- A condition whose key is present is ignored, whatever it binds. -/
theorem addPredicate_of_containsExpression (h : c.containsExpression p.key = true) :
    c.addPredicate p = .accept c := by
  have hignored : (p.text.isEmpty || !c.expressions.accepts p.key false) = true := by
    rw [accepts_false, h, Bool.not_not, Bool.or_true]
  rw [addPredicate, addKeyedWithParams, if_pos hignored, ite_self]

theorem state_addPredicate (c : Clause) (p : Predicate) :
    (c.addPredicate p).state = if c.takes p then c.withPredicate p else c := by
  cases hkey : c.containsExpression p.key with
  | true =>
    have htakes : c.takes p = false := by simp [takes, hkey]
    rw [addPredicate_of_containsExpression hkey, htakes]
    rfl
  | false =>
    have haccepted : (p.text.isEmpty || !c.expressions.accepts p.key false) = false := by
      rw [accepts_false, hkey, p.isEmpty_text]
      rfl
    have htakes : c.takes p = (!p.isVacuous && allNamed p.params) := by simp [takes, hkey]
    rw [addPredicate, addKeyedWithParams, haccepted, htakes]
    cases p.isVacuous with
    | true => rfl
    | false =>
      cases allNamed p.params with
      | true => exact value_insertParams _ _
      | false => rfl

/-- What a filter adds is what its condition adds, if it asks for one. -/
theorem addFilter_of_predicate? {f : Filter} (h : f.predicate? = some p) :
    c.addFilter f = c.addPredicate p := by
  rw [addFilter, h]

theorem state_addFilter_of_takes {f : Filter} (hf : f.predicate? = some p)
    (htakes : c.takes p = true) :
    (c.addFilter f).state = c.withPredicate p := by
  rw [addFilter_of_predicate? hf, state_addPredicate, if_pos htakes]

theorem toList_withPredicate (h : c.containsExpression p.key = false) :
    (c.withPredicate p).expressions.toList = c.expressions.toList ++ [p.text] := by
  have hkey : c.expressions.indexOf? p.key = none :=
    KeyedSeq.indexOf?_eq_none_iff.mpr h
  rw [withPredicate, KeyedSeq.insert_absent hkey]
  rfl

/-- The conditions that are taken are those whose text becomes one more expression. -/
theorem takes_iff_appended {f : Filter} (hf : f.predicate? = some p) :
    c.takes p = true ↔
      (c.addFilter f).state.expressions.toList = c.expressions.toList ++ [p.text] := by
  constructor
  · intro htakes
    have habsent : c.containsExpression p.key = false := by
      simp only [takes, Bool.and_eq_true, Bool.not_eq_true'] at htakes
      exact htakes.1.2
    rw [state_addFilter_of_takes hf htakes, toList_withPredicate habsent]
  · intro happended
    rw [addFilter_of_predicate? hf, state_addPredicate] at happended
    cases htakes : c.takes p with
    | true => rfl
    | false =>
      rw [htakes] at happended
      simp at happended

theorem containsExpression_withPredicate (h : c.containsExpression key = true) (p : Predicate) :
    (c.withPredicate p).containsExpression key = true :=
  KeyedSeq.containsKey_insert_of_containsKey h _ _ _

theorem containsExpression_key_withPredicate (c : Clause) (p : Predicate) :
    (c.withPredicate p).containsExpression p.key = true :=
  KeyedSeq.containsKey_insert_self _ _ _ _

/-- A key that is present stays so. -/
theorem containsExpression_addFilter (h : c.containsExpression key = true) (f : Filter) :
    (c.addFilter f).state.containsExpression key = true := by
  cases hf : f.predicate? with
  | none =>
    rw [addFilter, hf]
    exact h
  | some p =>
    rw [addFilter_of_predicate? hf, state_addPredicate]
    split
    · exact containsExpression_withPredicate h p
    · exact h

/-- The clause after a run of filters, refused ones among them. -/
def addFilters (c : Clause) (fs : List Filter) : Clause := c.run (fs.map .addFilter)

@[simp] theorem addFilters_cons (f : Filter) (fs : List Filter) :
    c.addFilters (f :: fs) = (c.addFilter f).state.addFilters fs := rfl

theorem containsExpression_addFilters (h : c.containsExpression key = true) (fs : List Filter) :
    (c.addFilters fs).containsExpression key = true := by
  induction fs generalizing c with
  | nil => exact h
  | cons f fs ih => exact ih (containsExpression_addFilter h f)

end SqlCompose.Clause
