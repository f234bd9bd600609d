import SqlCompose.Proofs.Clause.Statement
import SqlCompose.Select.Basic

/-!
The parts of a select statement after a change of one of them, and the statement that is built from
them, in closed form.
-/
namespace SqlCompose.Select

variable {t : Select} {c : Clause}

/-- What a part comes into being as. The select list and the table are there from the start. -/
def origin (t : Select) : Part → Clause.Origin
  | .selectList => .selectList []
  | .fromTable => .empty
  | .whereList => .whereList t.whereJoiner
  | .groupByList => .groupByList []
  | .havingList => .havingList t.havingJoiner
  | .orderByList => .orderByList []

theorem part_eq_getD (t : Select) (p : Part) :
    t.part p = (t.part? p).getD (t.origin p).clause := by
  cases p <;> rfl

theorem part?_setPart (t : Select) (p q : Part) (c : Clause) :
    (t.setPart p c).part? q = if q = p then some c else t.part? q := by
  cases p <;> cases q <;> rfl

theorem part_setPart (t : Select) (p : Part) (c : Clause) : (t.setPart p c).part p = c := by
  cases p <;> rfl

theorem part?_setWhereJoiner (t : Select) (j : Joiner) (p : Part) :
    (t.setWhereJoiner j).part? p =
      if p = .whereList then (t.part? p).map fun c => { c with format := .whereList j }
      else t.part? p := by
  cases p <;> rfl

theorem part?_setHavingJoiner (t : Select) (j : Joiner) (p : Part) :
    (t.setHavingJoiner j).part? p =
      if p = .havingList then (t.part? p).map fun c => { c with format := .havingList j }
      else t.part? p := by
  cases p <;> rfl

theorem mem_parts : c ∈ t.parts → ∃ p, t.part? p = some c := by
  intro hc
  obtain ⟨p, -, hp⟩ := List.mem_filterMap.mp hc
  exact ⟨p, hp⟩

/-- Only a building operation builds a clause. -/
theorem mem_built {op : Select.Op} (h : c ∈ t.built [op]) :
    op = .build ∧ c = (Clause.statement t.withColumns.parts).value := by
  cases op with
  | build => exact ⟨rfl, List.mem_singleton.mp h⟩
  | _ => cases h

/-- The select list as it is shown: without any expression it asks for all columns, whatever its
decoration and its parameters. -/
def columnList (t : Select) : Clause :=
  if t.selectList.expressions.toList = [] then
    { t.selectList with expressions := t.selectList.expressions.push "*" }
  else t.selectList

/-- What a statement consists of, in the order of the grammar. The lists that nobody opened are
missing. -/
def sections (t : Select) : List Clause :=
  [t.columnList, t.fromTable] ++ t.whereList.toList ++ t.groupByList.toList ++
    t.havingList.toList ++ t.orderByList.toList

theorem withColumns_eq (t : Select) : t.withColumns = { t with selectList := t.columnList } := by
  have hempty : t.selectList.isEmpty = true ↔ t.selectList.expressions.toList = [] :=
    List.isEmpty_iff
  rw [withColumns, columnList]
  by_cases h : t.selectList.expressions.toList = []
  · rw [if_pos (hempty.mpr h), if_pos h]
    rfl
  · rw [if_neg (mt hempty.mp h), if_neg h]

theorem parts_withColumns (t : Select) : t.withColumns.parts = t.sections := by
  rw [withColumns_eq, sections]
  obtain ⟨selectList, fromTable, whereList, groupByList, havingList, orderByList, _, _⟩ := t
  cases whereList <;> cases groupByList <;> cases havingList <;> cases orderByList <;> rfl

theorem value_build (t : Select) : t.build.value.1 = (Clause.statement t.sections).value := by
  rw [← parts_withColumns]
  rfl

theorem columnList_ne_nil (t : Select) : t.columnList.expressions.toList ≠ [] := by
  rw [columnList]
  split
  · simp
  · assumption

/-- The star is put in once. -/
theorem withColumns_withColumns (t : Select) : t.withColumns.withColumns = t.withColumns := by
  have hshown : t.withColumns.selectList.expressions.toList ≠ [] := by
    rw [withColumns_eq]
    exact t.columnList_ne_nil
  rw [withColumns_eq t.withColumns, columnList, if_neg hshown]

/-- What is built is the statement of the sections: their texts in order, those that are empty being
no expressions, and their parameters merged in the same order, each name where it first occurs and
with the last parameter that carries it. The builder keeps the star of an empty select list and
nothing besides, and when it builds again it gives the same and does not change any more. -/
theorem build_eq_statement (t : Select) :
    let c := t.build.value.1
    let u := t.build.value.2
    let handed := t.sections.flatMap Clause.paramList
    c = (Clause.statement t.sections).value ∧
      c.sql = String.join (t.sections.map Clause.sql) ∧
      c.expressions.toList = (t.sections.map Clause.sql).filter (fun e => !e.isEmpty) ∧
      c.paramList =
        (handed.map Param.name).eraseDups.filterMap (KeyedSeq.latest? Param.name handed) ∧
      (∀ n, c.param? n = KeyedSeq.latest? Param.name handed n) ∧
      u = { t with selectList := t.columnList } ∧
      u.build.value = (c, u) := by
  intro c u handed
  have hbuilt : c = (Clause.statement t.sections).value := by
    rw [← parts_withColumns]
    rfl
  have hparams : c.params = (∅ : KeyedSeq String Param).insertAll Param.name handed := by
    rw [hbuilt, Clause.params_statement]
  have hleft : u = t.withColumns := rfl
  refine ⟨hbuilt, ?_, ?_, ?_, fun n => ?_, ?_, ?_⟩
  · rw [hbuilt, Clause.sql_statement]
  · rw [hbuilt, Clause.toList_statement]
  · rw [Clause.paramList, hparams, KeyedSeq.toList_insertAll]
  · rw [Clause.param?, hparams, KeyedSeq.find?_insertAll_empty]
  · rw [hleft, withColumns_eq]
  · have hagain : u.withColumns = t.withColumns := withColumns_withColumns t
    rw [build, hagain]
    rfl

end SqlCompose.Select
