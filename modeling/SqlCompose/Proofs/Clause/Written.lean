import SqlCompose.Proofs.Clause.Condition
import SqlCompose.Proofs.KeyedSeq.Surplus

/-! What operations write into the expressions and into the decoration of a clause. -/
namespace SqlCompose.Clause

variable {c : Clause} {op : Op} {key text : String} {overwrite : Bool}

/-- The empty text is no expression. -/
def ifText (text : String) (op : KeyedSeq.Op String String) : List (KeyedSeq.Op String String) :=
  if text.isEmpty then [] else [op]

def writesOf (p : Predicate) : List (KeyedSeq.Op String String) :=
  if p.isVacuous then [] else [.insert p.key p.text false]

/-- What an operation does to the expressions of a clause unless it is refused. -/
def Op.writes : Op → List (KeyedSeq.Op String String)
  | .add text => ifText text (.push text)
  | .addKeyed key text overwrite => ifText text (.insert key text overwrite)
  | .addKeyedWithParams key text _ overwrite => ifText text (.insert key text overwrite)
  | .addClause other => ifText other.sql (.push other.sql)
  | .addKeyedClause key other overwrite => ifText other.sql (.insert key other.sql overwrite)
  | .addPredicate p => writesOf p
  | .addFilter f => (f.predicate?.map writesOf).getD []
  | .addParam _ | .addParams _ | .decorate _ | .reformat _ => []

/-- What an operation does to the expressions of a clause, which is nothing if it is refused. -/
def written (c : Clause) (op : Op) : List (KeyedSeq.Op String String) :=
  if (c.apply op).fault.isSome then [] else op.writes

/-- The decoration after an operation. -/
def Op.restyle : Op → Format → Format
  | .decorate s, f => f.set s
  | .reformat f, _ => f
  | _, f => f

/-- Whether an operation chooses a decoration by hand. -/
def Op.decorates {ρ : Type} : Op ρ → Bool
  | .decorate _ | .reformat _ => true
  | _ => false

theorem mem_ifText {o o' : KeyedSeq.Op String String} :
    o ∈ ifText text o' ↔ text ≠ "" ∧ o = o' := by
  rw [ifText]
  split
  · rename_i h
    simp [String.isEmpty_iff.mp h]
  · rename_i h
    simp [mt String.isEmpty_iff.mpr h]

theorem mem_writesOf {o : KeyedSeq.Op String String} {p : Predicate} :
    o ∈ writesOf p ↔ p.isVacuous = false ∧ o = .insert p.key p.text false := by
  rw [writesOf]
  cases p.isVacuous <;> simp

/-- No other value than the text is written. -/
theorem eq_of_mem_ifText {o o' : KeyedSeq.Op String String} {e : String} (hvalues : o'.values = [text])
    (ho : o ∈ ifText text o') (he : e ∈ o.values) : e = text := by
  rw [(mem_ifText.mp ho).2, hvalues] at he
  exact List.mem_singleton.mp he

theorem eq_of_mem_writesOf {o : KeyedSeq.Op String String} {p : Predicate} {e : String}
    (ho : o ∈ writesOf p) (he : e ∈ o.values) : e = p.text := by
  rw [(mem_writesOf.mp ho).2] at he
  exact List.mem_singleton.mp he

theorem mem_writes_addFilter {o : KeyedSeq.Op String String} {f : Filter} :
    o ∈ (Op.addFilter f).writes ↔ ∃ p, f.predicate? = some p ∧ o ∈ writesOf p := by
  rw [Op.writes]
  cases f.predicate? <;> simp

/-- What is there stays in front of what is written. -/
theorem isRestart_of_mem_writes {o : KeyedSeq.Op String String} (h : o ∈ op.writes) :
    o.isRestart = false := by
  cases op with
  | add text => rw [(mem_ifText.mp h).2]; rfl
  | addKeyed key text overwrite => rw [(mem_ifText.mp h).2]; rfl
  | addKeyedWithParams key text ps overwrite => rw [(mem_ifText.mp h).2]; rfl
  | addClause other => rw [(mem_ifText.mp h).2]; rfl
  | addKeyedClause key other overwrite => rw [(mem_ifText.mp h).2]; rfl
  | addPredicate p => rw [(mem_writesOf.mp h).2]; rfl
  | addFilter f =>
    obtain ⟨p, -, hp⟩ := mem_writes_addFilter.mp h
    rw [(mem_writesOf.mp hp).2]
    rfl
  | _ => cases h

theorem mem_writes_of_mem_written {o : KeyedSeq.Op String String} (h : o ∈ c.written op) :
    o ∈ op.writes := by
  rw [written] at h
  split at h
  · cases h
  · exact h

theorem written_of_fault_eq_none (hf : (c.apply op).fault = none) : c.written op = op.writes := by
  rw [written, hf]
  rfl

theorem written_congr {d : Clause} (h : c.containsExpression = d.containsExpression) (op : Op) :
    c.written op = d.written op := by
  rw [written, written, fault_congr h]

theorem insert_of_not_accepts {s : KeyedSeq String String} (h : s.accepts key overwrite = false) :
    s.insert key text overwrite = s := by
  simp only [KeyedSeq.accepts, Bool.or_eq_false_iff, Bool.not_eq_false'] at h
  obtain ⟨rfl, hkey⟩ := h
  obtain ⟨i, hi⟩ := KeyedSeq.containsKey_iff.mp hkey
  exact KeyedSeq.insert_ignored hi text

theorem expressions_add (c : Clause) (text : String) :
    (c.add text).expressions = c.expressions.run (ifText text (.push text)) := by
  rw [add, ifText]
  split <;> rfl

theorem expressions_addKeyed (c : Clause) (key text : String) (overwrite : Bool) :
    (c.addKeyed key text overwrite).value.expressions =
      c.expressions.run (ifText text (.insert key text overwrite)) := by
  rw [value_addKeyed, ifText]
  split <;> rfl

theorem expressions_insertParams (c : Clause) (ps : List Param) :
    (c.insertParams ps).value.expressions = c.expressions := by
  rw [value_insertParams]

theorem expressions_addParams (c : Clause) (ps : List Param) :
    (c.addParams ps).state.expressions = c.expressions := by
  rw [addParams]
  split
  · exact expressions_insertParams c ps
  · rfl

theorem expressions_addKeyedWithParams {ps : List Param}
    (h : allNamed (c.checked (.addKeyedWithParams key text ps overwrite)) = true) :
    (c.addKeyedWithParams key text ps overwrite).state.expressions =
      c.expressions.run (ifText text (.insert key text overwrite)) := by
  rw [checked] at h
  rw [addKeyedWithParams, ifText]
  cases htext : text.isEmpty with
  | true => rfl
  | false =>
    cases haccepts : c.expressions.accepts key overwrite with
    | false => exact (insert_of_not_accepts haccepts).symm
    | true =>
      have hnamed : allNamed ps = true := by simpa [htext, haccepts] using h
      simp only [Bool.not_true, Bool.or_false, Bool.false_eq_true, if_false, hnamed, if_true]
      exact expressions_insertParams _ ps

theorem expressions_addPredicate {p : Predicate} (h : allNamed (c.checkedOf p) = true) :
    (c.addPredicate p).state.expressions = c.expressions.run (writesOf p) := by
  rw [state_addPredicate, writesOf]
  cases hvacuous : p.isVacuous with
  | true => simp [takes, hvacuous]; rfl
  | false =>
    cases hkey : c.containsExpression p.key with
    | true =>
      have htakes : c.takes p = false := by simp [takes, hkey]
      have haccepts : c.expressions.accepts p.key false = false := by
        rw [accepts_false, hkey, Bool.not_true]
      rw [htakes]
      exact (insert_of_not_accepts haccepts).symm
    | false =>
      rw [checkedOf, hkey] at h
      have htakes : c.takes p = true := by simpa [takes, hvacuous, hkey] using h
      rw [htakes]
      rfl

theorem expressions_addKeyedClause (c : Clause) (key : String) (other : Clause) (overwrite : Bool) :
    (c.addKeyedClause key other overwrite).value.expressions =
      c.expressions.run (ifText other.sql (.insert key other.sql overwrite)) := by
  rw [value_addKeyedClause]
  split
  · rw [expressions_insertParams, expressions_addKeyed]
  · rename_i haccepts
    rw [ifText]
    split
    · rfl
    · exact (insert_of_not_accepts (by simpa using haccepts)).symm

/-- Every operation writes what it is said to write, and nothing else. -/
theorem expressions_apply (c : Clause) (op : Op) :
    (c.apply op).state.expressions = c.expressions.run (c.written op) := by
  cases hf : (c.apply op).fault with
  | some f =>
    rw [written, hf, apply_of_fault hf]
    rfl
  | none =>
    have hnamed : allNamed (c.checked op) = true :=
      allNamed_iff.mpr (fault_apply_eq_none_iff.mp hf)
    rw [written_of_fault_eq_none hf]
    cases op with
    | add text => exact expressions_add c text
    | addKeyed key text overwrite => exact expressions_addKeyed c key text overwrite
    | addKeyedWithParams key text ps overwrite => exact expressions_addKeyedWithParams hnamed
    | addParam p => exact expressions_addParams c [p]
    | addParams ps => exact expressions_addParams c ps
    | addClause other => exact (expressions_insertParams _ _).trans (expressions_add c other.sql)
    | addKeyedClause key other overwrite => exact expressions_addKeyedClause c key other overwrite
    | addPredicate p => exact expressions_addPredicate hnamed
    | addFilter f =>
      simp only [apply, Op.writes]
      cases hp : f.predicate? with
      | none =>
        rw [addFilter, hp]
        rfl
      | some p =>
        rw [checked, hp] at hnamed
        rw [addFilter_of_predicate? hp]
        exact expressions_addPredicate hnamed
    | decorate s => rfl
    | reformat f => rfl

theorem format_insertParams (c : Clause) (ps : List Param) :
    (c.insertParams ps).value.format = c.format := by
  rw [value_insertParams]

theorem format_addKeyed (c : Clause) (key text : String) (overwrite : Bool) :
    (c.addKeyed key text overwrite).value.format = c.format := by
  rw [value_addKeyed]
  split <;> rfl

theorem format_addParams (c : Clause) (ps : List Param) :
    (c.addParams ps).state.format = c.format := by
  rw [addParams]
  split
  · exact format_insertParams c ps
  · rfl

theorem format_addKeyedWithParams (c : Clause) (key text : String) (ps : List Param)
    (overwrite : Bool) : (c.addKeyedWithParams key text ps overwrite).state.format = c.format := by
  rw [addKeyedWithParams]
  split
  · rfl
  · split
    · exact format_insertParams _ ps
    · rfl

theorem format_addPredicate (c : Clause) (p : Predicate) :
    (c.addPredicate p).state.format = c.format := by
  rw [state_addPredicate]
  split <;> rfl

/-- Only the operations that are there for it change the decoration. -/
theorem format_apply (c : Clause) (op : Op) : (c.apply op).state.format = op.restyle c.format := by
  cases op with
  | add text => exact format_add c text
  | addKeyed key text overwrite => exact format_addKeyed c key text overwrite
  | addKeyedWithParams key text ps overwrite =>
    exact format_addKeyedWithParams c key text ps overwrite
  | addParam p => exact format_addParams c [p]
  | addParams ps => exact format_addParams c ps
  | addClause other => exact (format_insertParams _ _).trans (format_add c other.sql)
  | addKeyedClause key other overwrite =>
    simp only [apply, Outcome.state_ofTraced, value_addKeyedClause]
    split
    · rw [format_insertParams, format_addKeyed]
      rfl
    · rfl
  | addPredicate p => exact format_addPredicate c p
  | addFilter f =>
    simp only [apply, addFilter]
    split
    · rfl
    · exact format_addPredicate c _
  | decorate s => rfl
  | reformat f => rfl

theorem format_apply_of_not_decorates {op : Op} (h : op.decorates = false) :
    (c.apply op).state.format = c.format := by
  rw [format_apply]
  cases op with
  | decorate s => cases h
  | reformat f => cases h
  | _ => rfl

theorem format_run {ops : List Op} (h : ∀ op ∈ ops, op.decorates = false) :
    (c.run ops).format = c.format := by
  induction ops generalizing c with
  | nil => rfl
  | cons op ops ih =>
    rw [List.forall_mem_cons] at h
    exact (ih h.2).trans (format_apply_of_not_decorates h.1)

/-- Keys stay in step with positions, whatever the other clauses are that are read. -/
theorem wellKeyed_expressions_apply (h : c.expressions.WellKeyed) (op : Op) :
    (c.apply op).state.expressions.WellKeyed := by
  rw [expressions_apply]
  exact h.run _

end SqlCompose.Clause
