import SqlCompose.Clause.Op
import SqlCompose.Proofs.KeyedSeq.Merge

/-! What each operation makes of the fields of a clause, and what a statement is made of. -/
namespace SqlCompose

/-- Without decoration the expressions stand behind one another. -/
theorem Format.render_plain (es : List String) : ({} : Format).render es = String.join es := by
  have hfollowers : ∀ es, ({} : Format).followers es = String.join es := by
    intro es
    induction es with
    | nil => simp [followers]
    | cons e es ih => simp [followers, ih]
  cases es with
  | nil => simp [render]
  | cons e es => simp [render, hfollowers]

/-- Empty texts make no difference to what texts join to. -/
theorem join_filter_isEmpty (es : List String) :
    String.join (es.filter fun e => !e.isEmpty) = String.join es := by
  induction es with
  | nil => rfl
  | cons e es ih =>
    by_cases he : e = ""
    · simp [he, ih]
    · simp [he, ih]

namespace Clause

variable {c : Clause} {cs : List Clause}

theorem ext {c d : Clause} (hexpressions : c.expressions = d.expressions)
    (hparams : c.params = d.params) (hformat : c.format = d.format) : c = d := by
  cases c
  cases d
  simp_all

theorem allNamed_iff {ps : List Param} : allNamed ps = true ↔ ∀ p ∈ ps, p.name ≠ "" := by
  simp [allNamed]

theorem value_addKeyed (c : Clause) (key text : String) (overwrite : Bool) :
    (c.addKeyed key text overwrite).value =
      if text.isEmpty then c
      else { c with expressions := c.expressions.insert key text overwrite } := by
  unfold addKeyed
  split
  · rfl
  · split <;> rfl

theorem events_addKeyed (c : Clause) (key text : String) (overwrite : Bool) :
    (c.addKeyed key text overwrite).events =
      if text.isEmpty || c.expressions.accepts key overwrite then []
      else [.expressionIgnored key] := by
  unfold addKeyed
  cases text.isEmpty <;> cases c.expressions.accepts key overwrite <;> rfl

theorem value_insertParam (c : Clause) (p : Param) :
    (c.insertParam p).value = { c with params := c.params.insert p.name p true } := by
  unfold insertParam
  split <;> rfl

theorem events_insertParam (c : Clause) (p : Param) :
    (c.insertParam p).events =
      if c.params.containsKey p.name then [.paramOverwritten p.name] else [] := by
  unfold insertParam
  split <;> rfl

theorem value_insertParams (c : Clause) (ps : List Param) :
    (c.insertParams ps).value = { c with params := c.params.insertAll Param.name ps } := by
  rw [insertParams, Traced.value_foldlM]
  induction ps generalizing c with
  | nil => rfl
  | cons p ps ih => rw [List.foldl_cons, ih, value_insertParam]; rfl

theorem value_addClause (c other : Clause) :
    (c.addClause other).value =
      { c.add other.sql with
        params := (c.add other.sql).params.insertAll Param.name other.paramList } :=
  value_insertParams _ _

theorem value_addKeyedClause (c : Clause) (key : String) (other : Clause) (overwrite : Bool) :
    (c.addKeyedClause key other overwrite).value =
      if c.expressions.accepts key overwrite then
        ((c.addKeyed key other.sql overwrite).value.insertParams other.paramList).value
      else c := by
  unfold addKeyedClause
  split <;> rfl

theorem value_statement (cs : List Clause) :
    (statement cs).value = cs.foldl (fun c other => (c.addClause other).value) empty :=
  Traced.value_foldlM _ _ _

theorem toList_add (c : Clause) (text : String) :
    (c.add text).expressions.toList =
      c.expressions.toList ++ [text].filter fun e => !e.isEmpty := by
  rw [add]
  split
  · rename_i h
    simp [h]
  · rename_i h
    simp [h]

theorem params_add (c : Clause) (text : String) : (c.add text).params = c.params := by
  rw [add]
  split <;> rfl

theorem format_add (c : Clause) (text : String) : (c.add text).format = c.format := by
  rw [add]
  split <;> rfl

theorem toList_addAll (c : Clause) (texts : List String) :
    (c.addAll texts).expressions.toList =
      c.expressions.toList ++ texts.filter fun e => !e.isEmpty := by
  rw [addAll]
  induction texts generalizing c with
  | nil => simp
  | cons text texts ih =>
    rw [List.foldl_cons, ih, toList_add, List.append_assoc, ← List.filter_append,
      List.singleton_append]

theorem params_addAll (c : Clause) (texts : List String) : (c.addAll texts).params = c.params := by
  rw [addAll]
  induction texts generalizing c with
  | nil => rfl
  | cons text texts ih => rw [List.foldl_cons, ih, params_add]

theorem format_addAll (c : Clause) (texts : List String) : (c.addAll texts).format = c.format := by
  rw [addAll]
  induction texts generalizing c with
  | nil => rfl
  | cons text texts ih => rw [List.foldl_cons, ih, format_add]

theorem foldl_addClause_expressions (c : Clause) (cs : List Clause) :
    (cs.foldl (fun c other => (c.addClause other).value) c).expressions.toList =
      c.expressions.toList ++ (cs.map sql).filter fun e => !e.isEmpty := by
  induction cs generalizing c with
  | nil => simp
  | cons d ds ih =>
    rw [List.foldl_cons, ih, value_addClause, List.map_cons, ← List.singleton_append,
      List.filter_append, ← List.append_assoc]
    exact congrArg (· ++ _) (toList_add c d.sql)

theorem params_addClause (c other : Clause) :
    (c.addClause other).value.params = c.params.insertAll Param.name other.paramList := by
  rw [value_addClause, params_add]

theorem foldl_addClause_params (c : Clause) (cs : List Clause) :
    (cs.foldl (fun c other => (c.addClause other).value) c).params =
      c.params.insertAll Param.name (cs.flatMap paramList) := by
  induction cs generalizing c with
  | nil => rfl
  | cons d ds ih =>
    rw [List.foldl_cons, ih, params_addClause, List.flatMap_cons, KeyedSeq.insertAll_append]

theorem foldl_addClause_format (c : Clause) (cs : List Clause) :
    (cs.foldl (fun c other => (c.addClause other).value) c).format = c.format := by
  induction cs generalizing c with
  | nil => rfl
  | cons d ds ih => rw [List.foldl_cons, ih, value_addClause, format_add]

theorem toList_statement (cs : List Clause) :
    (statement cs).value.expressions.toList = (cs.map sql).filter fun e => !e.isEmpty := by
  rw [value_statement, foldl_addClause_expressions]
  rfl

theorem params_statement (cs : List Clause) :
    (statement cs).value.params =
      (∅ : KeyedSeq String Param).insertAll Param.name (cs.flatMap paramList) := by
  rw [value_statement, foldl_addClause_params]
  rfl

theorem format_statement (cs : List Clause) : (statement cs).value.format = {} := by
  rw [value_statement, foldl_addClause_format]
  rfl

theorem sql_statement (cs : List Clause) :
    (statement cs).value.sql = String.join (cs.map sql) := by
  rw [sql, format_statement, Format.render_plain, toList_statement, join_filter_isEmpty]

end Clause

end SqlCompose
