import SqlCompose.Proofs.Select.Building

/-!
Select statements with all parts in being, from which a run builds the same as from the parts that
exist.
-/
namespace SqlCompose.Select

variable {t u : Select} {p : Part} {op : Op} {ops : List Op}

/-- The statement with every part in being. -/
def opened (t : Select) : Select :=
  { t with
    whereList := some (t.part .whereList)
    groupByList := some (t.part .groupByList)
    havingList := some (t.part .havingList)
    orderByList := some (t.part .orderByList) }

theorem part?_opened (t : Select) (p : Part) : t.opened.part? p = some (t.part p) := by
  cases p <;> rfl

theorem part_opened (t : Select) (p : Part) : t.opened.part p = t.part p := by
  cases p <;> rfl

theorem opened_setPart (t : Select) (p : Part) (c : Clause) :
    (t.setPart p c).opened = t.opened.setPart p c := by
  cases p <;> rfl

theorem opened_openPart (t : Select) (p : Part) : (t.openPart p).opened = t.opened := by
  cases p <;> rfl

theorem openPart_opened (t : Select) (p : Part) : t.opened.openPart p = t.opened := by
  cases p <;> rfl

theorem opened_edit (t : Select) (p : Part) (op : Clause.Op) :
    (t.edit p op).map opened = t.opened.edit p op := by
  rw [edit, edit, part_opened, Outcome.map_map]
  exact congrArg (Outcome.map · _) (funext (opened_setPart t p))

theorem opened_top (t : Select) (value : Option Typed) (name : String) :
    (t.top value name).map opened = t.opened.top value name := by
  cases value with
  | none => rfl
  | some v =>
    rw [top, top, ← opened_edit]
    exact Outcome.map_andThen _ (fun u => opened_edit u _ _) _

/-- A list that comes into being takes the joiner chosen before, as one that exists takes the joiner
chosen now. -/
theorem opened_setWhereJoiner (t : Select) (j : Joiner) :
    (t.setWhereJoiner j).opened = t.opened.setWhereJoiner j := by
  obtain ⟨selectList, fromTable, whereList, _, _, _, _, _⟩ := t
  cases whereList <;> rfl

theorem opened_setHavingJoiner (t : Select) (j : Joiner) :
    (t.setHavingJoiner j).opened = t.opened.setHavingJoiner j := by
  obtain ⟨selectList, fromTable, _, _, havingList, _, _, _⟩ := t
  cases havingList <;> rfl

theorem opened_withColumns (t : Select) : t.withColumns.opened = t.opened.withColumns := by
  have hempty : t.opened.selectList.isEmpty = t.selectList.isEmpty := rfl
  rw [withColumns, withColumns, hempty]
  split <;> rfl

/-- The parts may be opened before an operation or after it. -/
theorem opened_apply (t : Select) (op : Op) :
    (t.apply op).state.opened = (t.opened.apply op).state := by
  cases op with
  | edit p op => exact congrArg Outcome.state (opened_edit t p op)
  | openPart p => exact (opened_openPart t p).trans (openPart_opened t p).symm
  | top value name => exact congrArg Outcome.state (opened_top t value name)
  | whereJoiner j => exact opened_setWhereJoiner t j
  | havingJoiner j => exact opened_setHavingJoiner t j
  | build => exact opened_withColumns t

/-- What a part comes into being as has neither text nor parameters. -/
theorem sql_part_of_none (h : t.part? p = none) :
    (t.part p).sql = "" ∧ (t.part p).paramList = [] := by
  rw [part_eq_getD, h, Option.getD_none]
  cases p <;> exact ⟨rfl, rfl⟩

theorem addClause_part_of_none (h : t.part? p = none) (c : Clause) :
    (c.addClause (t.part p)).value = c := by
  obtain ⟨hsql, hparams⟩ := sql_part_of_none h
  rw [Clause.value_addClause, hsql, hparams]
  rfl

theorem foldl_addClause_part? (t : Select) (c : Clause) (ps : List Part) :
    (ps.filterMap t.opened.part?).foldl (fun c d => (c.addClause d).value) c =
      (ps.filterMap t.part?).foldl (fun c d => (c.addClause d).value) c := by
  induction ps generalizing c with
  | nil => rfl
  | cons p ps ih =>
    rw [List.filterMap_cons_some (part?_opened t p), List.foldl_cons]
    cases hp : t.part? p with
    | none => rw [addClause_part_of_none hp, List.filterMap_cons_none hp, ih]
    | some d =>
      have hd : t.part p = d := by rw [part_eq_getD, hp, Option.getD_some]
      rw [List.filterMap_cons_some hp, List.foldl_cons, hd, ih]

theorem statement_parts_opened (t : Select) :
    (Clause.statement t.opened.parts).value = (Clause.statement t.parts).value := by
  rw [Clause.value_statement, Clause.value_statement, parts, parts, foldl_addClause_part?]

theorem run_cons (t : Select) (op : Op) (ops : List Op) :
    t.run (op :: ops) = (t.apply op).state.run ops := rfl

theorem run_append (t : Select) (ops ops' : List Op) : t.run (ops ++ ops') = (t.run ops).run ops' :=
  List.foldl_append

theorem built_cons (t : Select) (op : Op) (ops : List Op) :
    t.built (op :: ops) = t.built [op] ++ (t.apply op).state.built ops := by
  cases op <;> rfl

theorem built_cons_of_ne (h : op ≠ .build) : t.built (op :: ops) = (t.apply op).state.built ops := by
  cases op with
  | build => exact absurd rfl h
  | _ => rfl

theorem built_eq_nil (h : ∀ op ∈ ops, op ≠ .build) : t.built ops = [] := by
  induction ops generalizing t with
  | nil => rfl
  | cons op ops ih =>
    rw [List.forall_mem_cons] at h
    rw [built_cons_of_ne h.1]
    exact ih h.2

theorem built_append (t : Select) (ops ops' : List Op) :
    t.built (ops ++ ops') = t.built ops ++ (t.run ops).built ops' := by
  induction ops generalizing t with
  | nil => rfl
  | cons op ops ih =>
    rw [List.cons_append, built_cons, ih, ← List.append_assoc, ← built_cons]
    rfl

theorem built_singleton_opened (t : Select) (op : Op) : t.opened.built [op] = t.built [op] := by
  cases op with
  | build =>
    have hstatement := statement_parts_opened t.withColumns
    rw [opened_withColumns] at hstatement
    exact congrArg (fun c => [c]) hstatement
  | _ => rfl

theorem built_opened (t : Select) (ops : List Op) : t.opened.built ops = t.built ops := by
  induction ops generalizing t with
  | nil => rfl
  | cons op ops ih =>
    rw [built_cons, built_cons t, built_singleton_opened, ← opened_apply, ih]

/-- Statements that are the same when opened build the same in every run. -/
theorem built_eq_of_opened_eq (h : t.opened = u.opened) (ops : List Op) :
    t.built ops = u.built ops := by
  rw [← built_opened t, h, built_opened]

end SqlCompose.Select
