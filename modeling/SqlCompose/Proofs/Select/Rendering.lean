import SqlCompose.Proofs.Clause.Log
import SqlCompose.Proofs.Clause.Written
import SqlCompose.Proofs.KeyedSeq.Permanence
import SqlCompose.Proofs.Select.Limit
import SqlCompose.Proofs.Select.Opened

/-!
What it means for a run that a statement is built on the way, which leaves a star in an empty select
list.
-/
namespace SqlCompose

namespace Clause

variable {c : Clause} {op : Op} {e : String}

/-- The clause with an expression in front of the others. -/
def prepend (e : String) (c : Clause) : Clause := { c with expressions := c.expressions.cons e }

theorem containsExpression_prepend (e : String) (c : Clause) :
    (c.prepend e).containsExpression = c.containsExpression :=
  funext (KeyedSeq.containsKey_cons e c.expressions)

/-- The expression may be put in front before an operation or after it. -/
theorem prepend_apply (e : String) (c : Clause) (op : Op) :
    ((c.prepend e).apply op).state = (c.apply op).state.prepend e := by
  have hexpressions : ((c.prepend e).apply op).state.expressions =
      (c.apply op).state.expressions.cons e := by
    rw [expressions_apply, expressions_apply, written_congr (containsExpression_prepend e c)]
    exact KeyedSeq.run_cons fun o ho => isRestart_of_mem_writes (mem_writes_of_mem_written ho)
  have hparams : ((c.prepend e).apply op).state.params = (c.apply op).state.params := by
    rw [params_apply, params_apply, handed_congr (containsExpression_prepend e c)]
    rfl
  have hformat : ((c.prepend e).apply op).state.format = (c.apply op).state.format := by
    rw [format_apply, format_apply]
    rfl
  exact Clause.ext hexpressions hparams hformat

/-- An operation takes no expression away. -/
theorem isEmpty_apply (h : c.isEmpty = false) (op : Op) : (c.apply op).state.isEmpty = false := by
  have hgrows : (c.apply op).state.expressions.Extends c.expressions := by
    rw [expressions_apply]
    exact .run _ fun o ho => isRestart_of_mem_writes (mem_writes_of_mem_written ho)
  have hlength : c.expressions.values.length ≤ (c.apply op).state.expressions.values.length :=
    hgrows.length_le
  rw [isEmpty, KeyedSeq.isEmpty, List.isEmpty_eq_false_iff_exists_mem, ← List.length_pos_iff_exists_mem]
    at h ⊢
  omega

/-- The text of a clause that has one grows by an expression in front of the others. -/
theorem length_sql_prepend (hc : c.isEmpty = false) (he : e ≠ "") :
    c.sql.length < (c.prepend e).sql.length := by
  obtain ⟨⟨values, positions⟩, params, format⟩ := c
  cases values with
  | nil => cases hc
  | cons x xs =>
    have hpos : 0 < e.length := by
      rw [Nat.pos_iff_ne_zero]
      exact fun h => he (String.length_eq_zero_iff.mp h)
    simp only [sql, prepend, KeyedSeq.toList, KeyedSeq.cons, Format.render, Format.followers,
      String.length_append]
    omega

end Clause

namespace Select

variable {t : Select} {op : Op} {ops : List Op}

/-- The statement that asks for all columns in front of those in its select list. -/
def starred (t : Select) : Select := { t with selectList := t.selectList.prepend "*" }

theorem starred_edit (t : Select) (p : Part) (op : Clause.Op) :
    (t.starred.edit p op).state = (t.edit p op).state.starred := by
  cases p with
  | selectList => exact congrArg (t.setPart .selectList) (Clause.prepend_apply "*" t.selectList op)
  | _ => rfl

theorem starred_top (t : Select) (value : Option Typed) (name : String) :
    (t.starred.top value name).state = (t.top value name).state.starred := by
  cases value with
  | none => rfl
  | some v =>
    rw [state_top, state_top]
    split <;> rfl

/-- Whether all columns are asked for makes no difference to what an operation does, unless it builds
the statement. -/
theorem starred_apply (h : op ≠ .build) :
    (t.starred.apply op).state = (t.apply op).state.starred := by
  cases op with
  | edit p op => exact starred_edit t p op
  | openPart p => cases p <;> rfl
  | top value name => exact starred_top t value name
  | whereJoiner j => rfl
  | havingJoiner j => rfl
  | build => exact absurd rfl h

theorem withColumns_of_isEmpty (ht : t.selectList.expressions.WellKeyed)
    (h : t.selectList.isEmpty = true) : t.withColumns = t.starred := by
  have hempty : t.selectList.expressions = ∅ := ht.eq_empty (List.isEmpty_iff.mp h)
  have hadd : t.selectList.add "*" = t.selectList.prepend "*" := by
    have hstar : ("*" : String).isEmpty = false := by decide
    rw [Clause.add, hstar, Clause.prepend, hempty]
    rfl
  rw [withColumns, if_pos h, hadd, starred]

theorem withColumns_of_not_isEmpty (h : t.selectList.isEmpty = false) : t.withColumns = t := by
  rw [withColumns, h]
  rfl

theorem withColumns_starred (t : Select) : t.starred.withColumns = t.starred := rfl

/-- The select list keeps what every operation on a clause keeps. -/
theorem selectList_apply_of {P : Clause → Prop} (hP : ∀ c op, P c → P (c.apply op).state)
    (h : P t.selectList) (op : Op) : P (t.apply op).state.selectList := by
  cases op with
  | edit p op =>
    cases p with
    | selectList => exact hP _ op h
    | _ => exact h
  | openPart p => cases p <;> exact h
  | top value name =>
    cases value with
    | none => exact h
    | some v =>
      have hparam : P (t.edit .selectList (.addParam (v.toParam name))).state.selectList :=
        hP _ _ h
      simp only [apply, top, Outcome.andThen]
      split
      · exact hparam
      · exact hP _ _ hparam
  | whereJoiner j => exact h
  | havingJoiner j => exact h
  | build =>
    have hstate : (t.apply .build).state = t.withColumns := rfl
    rw [hstate, withColumns]
    split
    · exact hP _ (.add "*") h
    · exact h

theorem wellKeyed_selectList_apply (ht : t.selectList.expressions.WellKeyed) (op : Op) :
    (t.apply op).state.selectList.expressions.WellKeyed :=
  selectList_apply_of (P := fun c => c.expressions.WellKeyed)
    (fun _ op h => Clause.wellKeyed_expressions_apply h op) ht op

theorem wellKeyed_selectList_run (ht : t.selectList.expressions.WellKeyed) (ops : List Op) :
    (t.run ops).selectList.expressions.WellKeyed := by
  induction ops generalizing t with
  | nil => exact ht
  | cons op ops ih => exact ih (wellKeyed_selectList_apply ht op)

theorem isEmpty_selectList_apply (h : t.selectList.isEmpty = false) (op : Op) :
    (t.apply op).state.selectList.isEmpty = false :=
  selectList_apply_of (P := fun c => c.isEmpty = false) (fun _ op h => Clause.isEmpty_apply h op) h op

/-- A star in front of a list that has columns stays there, whatever else is done. -/
theorem starred_run (h : t.selectList.isEmpty = false) (ops : List Op) :
    t.starred.run ops = (t.run ops).starred := by
  induction ops generalizing t with
  | nil => rfl
  | cons op ops ih =>
    have hop : (t.starred.apply op).state = (t.apply op).state.starred := by
      by_cases hbuild : op = .build
      · subst hbuild
        have hstate : ∀ u : Select, (u.apply .build).state = u.withColumns := fun _ => rfl
        rw [hstate, hstate, withColumns_starred, withColumns_of_not_isEmpty h]
      · exact starred_apply hbuild
    rw [run_cons, run_cons, hop]
    exact ih (isEmpty_selectList_apply h op)

/-- The statement of the parts as they are. -/
def composed (t : Select) : Clause := (Clause.statement t.parts).value

theorem built_build_cons (t : Select) (ops : List Op) :
    t.built (.build :: ops) = t.withColumns.composed :: t.withColumns.built ops := rfl

theorem paramList_composed_starred (t : Select) :
    t.starred.composed.paramList = t.composed.paramList := by
  rw [composed, composed, Clause.paramList, Clause.paramList, Clause.params_statement,
    Clause.params_statement]
  rfl

theorem length_sql_composed_starred (h : t.selectList.isEmpty = false) :
    t.composed.sql.length < t.starred.composed.sql.length := by
  have hgrows := Clause.length_sql_prepend h (e := "*") (by decide)
  have hrest : t.starred.parts.tail = t.parts.tail := rfl
  have hparts : ∀ u : Select, u.parts = u.selectList :: u.parts.tail := fun _ => rfl
  rw [composed, composed, Clause.sql_statement, Clause.sql_statement, hparts t, hparts t.starred,
    hrest]
  simp only [List.map_cons, String.join_cons, String.length_append]
  exact Nat.add_lt_add_right hgrows _

/-- Whether the next statement that a run builds asks for all columns because the select list is still
empty. A run that builds none counts as well. -/
def nextAsksForAll (t : Select) : List Op → Bool
  | [] => true
  | .build :: _ => t.selectList.isEmpty
  | op :: ops => (t.apply op).state.nextAsksForAll ops

theorem nextAsksForAll_cons_of_ne (h : op ≠ .build) :
    t.nextAsksForAll (op :: ops) = (t.apply op).state.nextAsksForAll ops := by
  cases op with
  | build => exact absurd rfl h
  | _ => rfl

/-- All columns may be asked for at once if the next statement does so anyway. -/
theorem built_starred_of_nextAsksForAll (ht : t.selectList.expressions.WellKeyed)
    (h : t.nextAsksForAll ops = true) : t.starred.built ops = t.built ops := by
  induction ops generalizing t with
  | nil => rfl
  | cons op ops ih =>
    by_cases hop : op = .build
    · subst hop
      rw [built_build_cons, built_build_cons, withColumns_starred, withColumns_of_isEmpty ht h]
    · rw [nextAsksForAll_cons_of_ne hop] at h
      rw [built_cons_of_ne hop, built_cons_of_ne hop, starred_apply hop]
      exact ih (wellKeyed_selectList_apply ht op) h

theorem map_paramList_built_starred (ht : t.selectList.expressions.WellKeyed) (ops : List Op) :
    (t.starred.built ops).map Clause.paramList = (t.built ops).map Clause.paramList := by
  induction ops generalizing t with
  | nil => rfl
  | cons op ops ih =>
    by_cases hop : op = .build
    · subst hop
      rw [built_build_cons, built_build_cons, withColumns_starred]
      cases hempty : t.selectList.isEmpty with
      | true => rw [withColumns_of_isEmpty ht hempty]
      | false =>
        rw [withColumns_of_not_isEmpty hempty, List.map_cons, List.map_cons, ih ht,
          paramList_composed_starred]
    · rw [built_cons_of_ne hop, built_cons_of_ne hop, starred_apply hop]
      exact ih (wellKeyed_selectList_apply ht op)

/-- The next statement shows that all columns were asked for if it finds other columns there. -/
theorem map_sql_built_starred_ne (h : t.nextAsksForAll ops = false) :
    (t.starred.built ops).map Clause.sql ≠ (t.built ops).map Clause.sql := by
  induction ops generalizing t with
  | nil => cases h
  | cons op ops ih =>
    by_cases hop : op = .build
    · subst hop
      intro heq
      rw [built_build_cons, built_build_cons, withColumns_starred, withColumns_of_not_isEmpty h,
        List.map_cons, List.map_cons] at heq
      have hsql : t.starred.composed.sql = t.composed.sql := (List.cons.inj heq).1
      have hgrows := length_sql_composed_starred h
      rw [hsql] at hgrows
      exact Nat.lt_irrefl _ hgrows
    · rw [nextAsksForAll_cons_of_ne hop] at h
      rw [built_cons_of_ne hop, built_cons_of_ne hop, starred_apply hop]
      exact ih h

/-- The star is in front of the columns all along if the next statement finds columns there. -/
theorem starred_run_of_nextAsksForAll {pre : List Op} (h : t.nextAsksForAll ops = false)
    (hpre : pre <+: ops) : t.starred.run pre = (t.run pre).starred := by
  induction ops generalizing t pre with
  | nil => cases h
  | cons op ops ih =>
    cases pre with
    | nil => rfl
    | cons op' pre =>
      obtain ⟨rfl, hrest⟩ := List.cons_prefix_cons.mp hpre
      by_cases hop : op' = .build
      · subst hop
        exact starred_run h (.build :: pre)
      · rw [nextAsksForAll_cons_of_ne hop] at h
        rw [run_cons, run_cons, starred_apply hop]
        exact ih h hrest

/-- Without the statement built in between, the others are those built before and those that are built
from there on. -/
theorem eraseIdx_built_build (t : Select) (before after : List Op) :
    (t.built (before ++ .build :: after)).eraseIdx (t.built before).length =
      t.built before ++ (t.run before).withColumns.built after := by
  rw [built_append, built_build_cons, List.eraseIdx_append_of_length_le (Nat.le_refl _),
    Nat.sub_self, List.eraseIdx_cons_zero]

/-- A statement that is built in between changes no parameters of the others. It changes nothing else
of them either exactly if the select list has a column already at that place, or the next statement
finds it still empty: an empty list asks for all columns from the first statement on. Otherwise its star
stands in front of the columns from that place on. -/
theorem built_with_extra_build (table : String) (before after : List Op) :
    let s := ofTable table
    let t := s.run before
    let others := (s.built (before ++ .build :: after)).eraseIdx (s.built before).length
    let hidden := !t.selectList.isEmpty || t.nextAsksForAll after
    others.map Clause.paramList = (s.built (before ++ after)).map Clause.paramList ∧
      (others = s.built (before ++ after) ↔ hidden = true) ∧
      (others.map Clause.sql = (s.built (before ++ after)).map Clause.sql ↔ hidden = true) ∧
      (hidden = false → ∀ pre, pre <+: after →
        s.run (before ++ .build :: pre) = (s.run (before ++ pre)).starred) := by
  intro s t others hidden
  have ht : t.selectList.expressions.WellKeyed :=
    wellKeyed_selectList_run KeyedSeq.wellKeyed_empty before
  have hothers : others = s.built before ++ t.withColumns.built after :=
    eraseIdx_built_build s before after
  have hbuilt : s.built (before ++ after) = s.built before ++ t.built after :=
    built_append s before after
  have hrun : ∀ pre, s.run (before ++ .build :: pre) = t.withColumns.run pre :=
    fun pre => run_append s before (.build :: pre)
  have hrun' : ∀ pre, s.run (before ++ pre) = t.run pre := run_append s before
  simp only [hothers, hbuilt, hrun, hrun', List.map_append, List.append_cancel_left_eq, hidden]
  cases hempty : t.selectList.isEmpty with
  | false => simp [withColumns_of_not_isEmpty hempty]
  | true =>
    rw [withColumns_of_isEmpty ht hempty]
    refine ⟨map_paramList_built_starred ht after, ?_⟩
    cases hnext : t.nextAsksForAll after with
    | true => simp [built_starred_of_nextAsksForAll ht hnext]
    | false =>
      have hne := map_sql_built_starred_ne hnext
      have hne' : t.starred.built after ≠ t.built after := fun h => hne (by rw [h])
      have hstar : ∀ pre, pre <+: after → t.starred.run pre = (t.run pre).starred :=
        fun pre => starred_run_of_nextAsksForAll hnext
      simpa [hne, hne'] using hstar

/-- A statement that is built first leaves its star in front of the column that is added then. -/
theorem star_stays_after_first_build :
    let s := ofTable "people"
    let after : List Op := [.edit .selectList (.add "id"), .build]
    ((s.built ([] ++ .build :: after)).eraseIdx (s.built []).length).map Clause.sql =
        ["select\n\t*,\n\tid\nfrom\n\tpeople\n"] ∧
      (s.built ([] ++ after)).map Clause.sql = ["select\n\tid\nfrom\n\tpeople\n"] ∧
      ((s.built ([] ++ .build :: after)).eraseIdx (s.built []).length).map Clause.sql ≠
        (s.built ([] ++ after)).map Clause.sql := by
  decide

end Select

end SqlCompose
