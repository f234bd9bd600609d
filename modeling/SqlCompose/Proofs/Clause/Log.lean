import SqlCompose.Proofs.Clause.Condition
import SqlCompose.Proofs.Clause.WellFormed

/-!
The parameters handed to a clause in a run, and what they leave bound: each name where it first
occurred, with the last parameter that carries it.
-/
namespace SqlCompose

/-- The name under which an event tells that a parameter was replaced. -/
def Event.overwritten? : Event → Option String
  | .paramOverwritten name => some name
  | _ => none

theorem Event.overwritten?_eq_some_iff {e : Event} {name : String} :
    e.overwritten? = some name ↔ e.level = .trace ∧ e.target = "sqlclause" ∧
      e.fields = [("message", .str "parameter overwritten"), ("param", .str name)] := by
  cases e <;> simp [overwritten?, level, target, fields]

namespace Clause

variable {c d : Clause} {op : Op} {ps : List Param} {p : Predicate}

/-- The parameters that an operation is about to bind: those that it checks, or those that it takes
over from another clause. An operation that is ignored binds none. -/
def offered (c : Clause) : Op → List Param
  | .addClause other => other.paramList
  | .addKeyedClause key other overwrite =>
    if c.expressions.accepts key overwrite then other.paramList else []
  | op => c.checked op

/-- The parameters that an operation hands to a clause, none if it is refused. -/
def handed (c : Clause) (op : Op) : List Param :=
  if (c.apply op).fault.isSome then [] else c.offered op

/-- The parameters that the operations of a run hand to a clause, in order. -/
def log (c : Clause) : List Op → List Param
  | [] => []
  | op :: ops => c.handed op ++ (c.apply op).state.log ops

/-- The names under which events tell that parameters were replaced. -/
def overwritten (es : List Event) : List String := es.filterMap Event.overwritten?

theorem overwritten_append (es fs : List Event) :
    overwritten (es ++ fs) = overwritten es ++ overwritten fs :=
  List.filterMap_append

/-- An operation binds some parameters, one after the other, and nothing else, and the names that it
reports to be bound anew are those that it finds bound. -/
structure Binds (c : Clause) (ps : List Param) (o : Outcome Clause) : Prop where
  params : o.state.params = c.params.insertAll Param.name ps
  overwritten : overwritten o.events = c.params.collisions Param.name ps

/-- Each name that is bound already is reported when it is bound anew. -/
theorem events_insertParams (c : Clause) (ps : List Param) :
    (c.insertParams ps).events = (c.params.collisions Param.name ps).map .paramOverwritten := by
  induction ps generalizing c with
  | nil => rfl
  | cons p ps ih =>
    rw [insertParams, List.foldlM_cons, Traced.events_bind, ← insertParams, ih, events_insertParam,
      value_insertParam, KeyedSeq.collisions, List.map_append]
    split <;> rfl

/-- Parameters are bound as well while something else of the clause is changed. -/
theorem binds_insertParams (h : d.params = c.params) (ps : List Param) :
    c.Binds ps (.ofTraced (d.insertParams ps)) := by
  constructor
  · rw [Outcome.state_ofTraced, value_insertParams, h]
  · rw [Outcome.ofTraced, events_insertParams, h, overwritten, List.filterMap_map]
    exact List.filterMap_some

theorem binds_nothing (h : d.params = c.params) : c.Binds [] (.accept d) := ⟨h, rfl⟩

theorem binds_addKeyed (c : Clause) (key text : String) (overwrite : Bool) :
    c.Binds [] (.ofTraced (c.addKeyed key text overwrite)) := by
  constructor
  · rw [Outcome.state_ofTraced, value_addKeyed]
    split <;> rfl
  · rw [Outcome.ofTraced, events_addKeyed]
    split <;> rfl

theorem binds_addParams (h : allNamed ps = true) : c.Binds ps (c.addParams ps) := by
  rw [addParams, if_pos h]
  exact binds_insertParams rfl ps

theorem binds_addKeyedWithParams {key text : String} {overwrite : Bool}
    (h : allNamed (c.checked (.addKeyedWithParams key text ps overwrite)) = true) :
    c.Binds (c.checked (.addKeyedWithParams key text ps overwrite))
      (c.addKeyedWithParams key text ps overwrite) := by
  rw [checked] at h ⊢
  rw [addKeyedWithParams]
  split at h
  · rename_i hignored
    rw [if_pos hignored, if_pos hignored]
    exact binds_nothing rfl
  · rename_i htaken
    rw [if_neg htaken, if_neg htaken, if_pos h]
    refine binds_insertParams ?_ ps
    rfl

theorem binds_addPredicate (h : allNamed (c.checkedOf p) = true) :
    c.Binds (c.checkedOf p) (c.addPredicate p) := by
  rw [addPredicate]
  split
  · rename_i hvacuous
    rw [checkedOf, List.isEmpty_iff.mp hvacuous, ite_self]
    exact binds_nothing rfl
  · rw [← checked_addKeyedWithParams_predicate] at h ⊢
    exact binds_addKeyedWithParams h

theorem binds_addFilter {f : Filter} (h : allNamed (c.checked (.addFilter f)) = true) :
    c.Binds (c.checked (.addFilter f)) (c.addFilter f) := by
  rw [checked] at h ⊢
  rw [addFilter]
  cases hf : f.predicate? with
  | none => exact binds_nothing rfl
  | some p =>
    rw [hf] at h
    exact binds_addPredicate h

theorem binds_addKeyedClause (c : Clause) (key : String) (other : Clause) (overwrite : Bool) :
    c.Binds (c.offered (.addKeyedClause key other overwrite))
      (.ofTraced (c.addKeyedClause key other overwrite)) := by
  rw [offered, addKeyedClause]
  split
  · -- the text comes first, which binds and reports nothing
    obtain ⟨hparams, hevents⟩ := c.binds_addKeyed key other.sql overwrite
    obtain ⟨hbound, hreported⟩ := binds_insertParams hparams other.paramList
    refine ⟨hbound, ?_⟩
    rw [Outcome.ofTraced, Traced.events_bind, overwritten_append]
    exact congr (congrArg _ hevents) hreported
  · exact ⟨rfl, rfl⟩

/-- Every operation binds what it hands over, and reports what it finds bound of it. -/
theorem binds_apply (c : Clause) (op : Op) : c.Binds (c.handed op) (c.apply op) := by
  rw [handed]
  cases hf : (c.apply op).fault with
  | some f =>
    rw [apply_of_fault hf]
    exact ⟨rfl, rfl⟩
  | none =>
    have hnamed : allNamed (c.checked op) = true :=
      allNamed_iff.mpr (fault_apply_eq_none_iff.mp hf)
    -- one case for each operation: what it offers is bound, now that nothing is refused
    cases op with
    | add text => exact binds_nothing (params_add c text)
    | addKeyed key text overwrite => exact binds_addKeyed c key text overwrite
    | addKeyedWithParams key text ps overwrite => exact binds_addKeyedWithParams hnamed
    | addParam p => exact binds_addParams hnamed
    | addParams ps => exact binds_addParams hnamed
    | addClause other => exact binds_insertParams (params_add c other.sql) other.paramList
    | addKeyedClause key other overwrite => exact binds_addKeyedClause c key other overwrite
    | addPredicate p => exact binds_addPredicate hnamed
    | addFilter f => exact binds_addFilter hnamed
    | decorate s => exact binds_nothing rfl
    | reformat f => exact binds_nothing rfl

theorem handed_of_fault_eq_none (hf : (c.apply op).fault = none) : c.handed op = c.offered op := by
  rw [handed, hf]
  rfl

theorem params_apply (c : Clause) (op : Op) :
    (c.apply op).state.params = c.params.insertAll Param.name (c.handed op) :=
  (c.binds_apply op).params

theorem handed_congr (h : c.containsExpression = d.containsExpression) (op : Op) :
    c.handed op = d.handed op := by
  have hoffered : c.offered op = d.offered op := by
    cases op with
    | addClause other => rfl
    | addKeyedClause key other overwrite => rw [offered, offered, accepts_congr h]
    | _ => simp only [offered, checked_congr h]
  rw [handed, handed, fault_congr h, hoffered]

/-- What a run leaves bound is what its log leaves bound. -/
theorem params_run (c : Clause) (ops : List Op) :
    (c.run ops).params = c.params.insertAll Param.name (c.log ops) := by
  induction ops generalizing c with
  | nil => rfl
  | cons op ops ih =>
    rw [run, List.foldl_cons, ← run, ih, params_apply, log, KeyedSeq.insertAll_append]

theorem params_eq_empty (hc : c.WellFormed) (h0 : c.paramCount = 0) : c.params = ∅ :=
  hc.bound.eq_empty (List.eq_nil_of_length_eq_zero h0)

/-- The parameters after a run in closed form, for a clause that had none: each name of the log
once, where it first occurs, with the last parameter of the log that carries it. -/
theorem paramList_run (hc : c.Reachable) (h0 : c.paramCount = 0) (ops : List Op) :
    (c.run ops).paramList =
        ((c.log ops).map Param.name).eraseDups.filterMap
          (KeyedSeq.latest? Param.name (c.log ops)) ∧
      (c.run ops).paramList.map Param.name = ((c.log ops).map Param.name).eraseDups ∧
      ∀ n, (c.run ops).param? n = KeyedSeq.latest? Param.name (c.log ops) n := by
  have hempty : c.params = ∅ := params_eq_empty (invariant_wellFormed.reachable hc) h0
  have hrun : (c.run ops).params =
      (∅ : KeyedSeq String Param).insertAll Param.name (c.log ops) := by
    rw [params_run, hempty]
  refine ⟨?_, ?_, fun n => ?_⟩
  · rw [paramList, hrun, KeyedSeq.toList_insertAll]
  · rw [paramList, hrun, KeyedSeq.map_key_insertAll]
  · rw [param?, hrun, KeyedSeq.find?_insertAll_empty]

/-- A range, a condition that is ignored, a list that is refused, a single parameter, and a clause
without a text that binds the upper end of the range anew. -/
theorem paramList_run_whereList :
    let age (name : String) (n : Int32) : Param := .ofValue name (.int32 n)
    let ops : List Op :=
      [.addFilter (.between false "age" "@low" (some ⟨.int32, 18⟩) "@high" (some ⟨.int32, 65⟩)),
        .addFilter (.compare "age" .notEqual "@low" (some ⟨.int32, 40⟩)),
        .addParams [age "@low" 21, age "" 30], .addParam (age "@max" 99),
        .addClause (empty.addParam (age "@high" 70)).state]
    (whereList .and).Reachable ∧ (whereList .and).paramCount = 0 ∧
      ((whereList .and).log ops).map Param.name = ["@low", "@high", "@max", "@high"] ∧
      ((whereList .and).run ops).paramList = [age "@low" 18, age "@high" 70, age "@max" 99] := by
  intro age ops
  have hreach : (whereList .and).Reachable := ⟨[.create (.whereList .and)], .clause 0, rfl⟩
  exact ⟨hreach, rfl, rfl, (paramList_run hreach rfl ops).1⟩

end Clause

end SqlCompose
