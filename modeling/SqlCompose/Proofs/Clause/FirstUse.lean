import SqlCompose.Proofs.Clause.Log
import SqlCompose.Proofs.Clause.Written

/-!
Comparisons of a column with one value, whose keys and names are taken in step, so that the first
use of each name stays.
-/
namespace SqlCompose.Clause

variable {c : Clause} {op : Op} {ops : List Op} {p : Predicate} {ps : List Predicate} {q : Param}
  {column : String} {o : Comparison}

/-- The condition that an operation asks for; none if the values for it are absent. -/
def Op.predicate? {ρ : Type} : Op ρ → Option Predicate
  | .addPredicate p => some p
  | .addFilter f => f.predicate?
  | _ => none

/-- Whether an operation is there to compare a column with one value, be it a value that may be absent,
a text that is sought or a parameter that is ready. -/
def Op.isComparison {ρ : Type} : Op ρ → Bool
  | .addPredicate (.compare _ _ _) => true
  | .addFilter (.compare _ _ _ _) => true
  | .addFilter (.pattern _ _ _ _ _) => true
  | _ => false

/-- The conditions without those whose key occurs in an earlier one. -/
def firstUses (ps : List Predicate) : List Predicate := ps.eraseDupsBy fun p q => p.key == q.key

theorem mem_of_mem_firstUses : ∀ {ps : List Predicate}, p ∈ firstUses ps → p ∈ ps
  | [], h => h
  | r :: ps, h => by
    rw [firstUses, List.eraseDupsBy_cons] at h
    rcases List.mem_cons.mp h with heq | hrest
    · exact heq ▸ List.mem_cons_self
    · exact List.mem_cons_of_mem r (List.mem_of_mem_filter (mem_of_mem_firstUses hrest))
  termination_by ps => ps.length
  decreasing_by exact Nat.lt_succ_of_le (List.length_filter_le _ _)

theorem Op.decorates_of_isComparison (h : op.isComparison = true) : op.decorates = false := by
  cases op with
  | decorate s => cases h
  | reformat f => cases h
  | _ => rfl

theorem Op.exists_compare (h : op.isComparison = true) (hp : op.predicate? = some p) :
    ∃ column o q, p = .compare column o q := by
  cases op with
  | addPredicate r =>
    obtain rfl : r = p := Option.some.inj hp
    cases r with
    | compare column o q => exact ⟨column, o, q, rfl⟩
    | between negated column low high => cases h
    | member negated column key params => cases h
  | addFilter f =>
    cases f with
    | compare column o name value =>
      obtain ⟨v, -, rfl⟩ := Option.map_eq_some_iff.mp hp
      exact ⟨_, _, _, rfl⟩
    | pattern negated anchor column name value =>
      obtain ⟨s, -, rfl⟩ := Option.map_eq_some_iff.mp hp
      exact ⟨_, _, _, rfl⟩
    | between negated column lowName low highName high => cases h
    | member negated column name values => cases h
  | _ => cases h

theorem apply_of_predicate? (hp : op.predicate? = some p) : c.apply op = c.addPredicate p := by
  cases op with
  | addPredicate r =>
    obtain rfl : r = p := Option.some.inj hp
    rfl
  | addFilter f => exact addFilter_of_predicate? hp
  | _ => cases hp

/-- An operation whose values are absent changes nothing. -/
theorem apply_of_predicate?_none (h : op.isComparison = true) (hp : op.predicate? = none) :
    c.apply op = .accept c := by
  cases op with
  | addPredicate r => cases hp
  | addFilter f =>
    have hf : f.predicate? = none := hp
    rw [apply, addFilter, hf]
  | _ => cases h

/-- Each expression has the name of the parameter at its position for a key. -/
structure InStep (c : Clause) : Prop where
  length_eq : c.length = c.paramCount
  indexOf?_eq : ∀ n, c.expressions.indexOf? n = c.params.indexOf? n

theorem inStep_ofFormat (f : Format) : (ofFormat f).InStep := ⟨rfl, fun _ => rfl⟩

theorem InStep.containsParam_eq (h : c.InStep) (n : String) :
    c.containsParam n = c.containsExpression n := by
  rw [containsParam, KeyedSeq.containsKey, ← h.indexOf?_eq]
  rfl

/-- A new name goes to the end of the parameters as its condition does to that of the expressions. -/
theorem InStep.withPredicate (h : c.InStep) (hnew : c.containsExpression q.name = false) :
    (c.withPredicate (.compare column o q)).InStep := by
  have hkey : c.expressions.indexOf? q.name = none :=
    KeyedSeq.indexOf?_eq_none_iff.mpr hnew
  have hname : c.params.indexOf? q.name = none := by rw [← h.indexOf?_eq, hkey]
  have hlength : c.expressions.length = c.params.length := h.length_eq
  constructor
  · simp only [Clause.withPredicate, Clause.length, paramCount, Predicate.key, Predicate.params,
      KeyedSeq.insertAll_cons, KeyedSeq.insertAll_nil, KeyedSeq.insert_absent hkey,
      KeyedSeq.insert_absent hname]
    simpa [KeyedSeq.length] using hlength
  · intro n
    simp only [Clause.withPredicate, Predicate.key, Predicate.params, KeyedSeq.insertAll_cons,
      KeyedSeq.insertAll_nil, KeyedSeq.indexOf?_insert, hkey, hname, hlength, h.indexOf?_eq n]

/-- What is taken binds a name that was unbound, so nothing is overwritten and nothing reported. -/
theorem InStep.addPredicate (h : c.InStep) (hq : q.name ≠ "")
    (hnew : c.containsExpression q.name = false) :
    c.addPredicate (.compare column o q) = .accept (c.withPredicate (.compare column o q)) := by
  have htakes : c.takes (.compare column o q) = true := by
    simp [takes, Predicate.isVacuous, Predicate.params, Predicate.key, hnew, allNamed, hq]
  have hstate := state_addPredicate c (.compare column o q)
  rw [if_pos htakes] at hstate
  have htaken : ((Predicate.compare column o q).text.isEmpty ||
      !c.expressions.accepts q.name false) = false := by
    rw [Predicate.isEmpty_text, accepts_false, hnew]
    rfl
  have hnamed : allNamed [q] = true := allNamed_iff.mpr (List.forall_mem_singleton.mpr hq)
  have hunbound : c.params.containsKey q.name = false := (h.containsParam_eq q.name).trans hnew
  have hquiet : ∀ d : Clause, d.params = c.params → (d.insertParams [q]).events = [] := by
    intro d hd
    simp [insertParams, events_insertParam, hd, hunbound]
  refine Outcome.ext hstate ?_ ?_
  all_goals
    simp only [Clause.addPredicate, Predicate.isVacuous, Predicate.params, Predicate.key,
      List.isEmpty_cons, addKeyedWithParams, htaken, hnamed, Bool.false_eq_true, if_false, if_true]
  · rfl
  · exact hquiet _ rfl

/-- A comparison with a name is accepted and reports nothing. Either it changes nothing, as its value is
absent or its name was used before, or it is taken. -/
theorem InStep.apply (h : c.InStep) (hop : op.isComparison = true)
    (hnamed : ∀ p, op.predicate? = some p → p.key ≠ "") :
    (c.apply op = .accept c ∧ ∀ p, op.predicate? = some p → c.containsExpression p.key = true) ∨
      ∃ column o q, op.predicate? = some (.compare column o q) ∧
        c.containsExpression q.name = false ∧
        c.apply op = .accept (c.withPredicate (.compare column o q)) := by
  cases hp : op.predicate? with
  | none => exact .inl ⟨apply_of_predicate?_none hop hp, fun p h => nomatch h⟩
  | some p =>
    obtain ⟨column, o, q, rfl⟩ := Op.exists_compare hop hp
    rw [apply_of_predicate? hp]
    cases hthere : c.containsExpression q.name with
    | true =>
      refine .inl ⟨addPredicate_of_containsExpression hthere, fun r hr => ?_⟩
      obtain rfl : .compare column o q = r := Option.some.inj hr
      exact hthere
    | false => exact .inr ⟨column, o, q, rfl, hthere, h.addPredicate (hnamed _ hp) hthere⟩

theorem InStep.apply_eq_accept (h : c.InStep) (hop : op.isComparison = true)
    (hnamed : ∀ p, op.predicate? = some p → p.key ≠ "") :
    c.apply op = .accept (c.apply op).state := by
  obtain ⟨hsame, -⟩ | ⟨_, _, _, -, -, htaken⟩ := h.apply hop hnamed
  · rw [hsame]
    rfl
  · rw [htaken]
    rfl

theorem InStep.state_apply (h : c.InStep) (hop : op.isComparison = true)
    (hnamed : ∀ p, op.predicate? = some p → p.key ≠ "") : (c.apply op).state.InStep := by
  obtain ⟨hignored, -⟩ | ⟨column, o, q, -, hnew, htaken⟩ := h.apply hop hnamed
  · rw [hignored]
    exact h
  · rw [htaken]
    exact h.withPredicate hnew

/-- Comparisons with names keep keys and names in step throughout a run. -/
theorem InStep.run (h : c.InStep) (hops : ∀ op ∈ ops, op.isComparison = true)
    (hnamed : ∀ op ∈ ops, ∀ p, op.predicate? = some p → p.key ≠ "") : (c.run ops).InStep := by
  induction ops generalizing c with
  | nil => exact h
  | cons op ops ih =>
    rw [List.forall_mem_cons] at hops hnamed
    exact ih (h.state_apply hops.1 hnamed.1) hops.2 hnamed.2

/-- The conditions of a list that a clause takes: those with a key that is neither present nor that of
an earlier one. -/
def newUses (c : Clause) (ps : List Predicate) : List Predicate :=
  firstUses (ps.filter fun p => !c.containsExpression p.key)

theorem newUses_cons_of_present (h : c.containsExpression p.key = true) :
    c.newUses (p :: ps) = c.newUses ps := by
  rw [newUses, List.filter_cons_of_neg (by simp [h]), newUses]

theorem newUses_cons_of_absent (h : c.containsExpression p.key = false) :
    c.newUses (p :: ps) = p :: (c.withPredicate p).newUses ps := by
  have hrest : ∀ r ∈ ps, (decide ((r.key == p.key) = false) && !c.containsExpression r.key) =
      !(c.withPredicate p).containsExpression r.key := by
    intro r _
    have hcontains : (c.withPredicate p).containsExpression r.key = true ↔
        r.key = p.key ∨ c.containsExpression r.key = true := KeyedSeq.containsKey_insert
    by_cases hr : r.key = p.key
    · rw [hcontains.mpr (.inl hr), hr]
      simp
    · cases hthere : c.containsExpression r.key <;> simp_all
  rw [newUses, List.filter_cons_of_pos (by simp [h]), firstUses, List.eraseDupsBy_cons,
    List.filter_filter, List.filter_congr hrest]
  rfl

theorem newUses_of_empty (h : c.expressions = ∅) (ps : List Predicate) :
    c.newUses ps = firstUses ps := by
  have hall : ∀ p ∈ ps, (!c.containsExpression p.key) = true := by
    intro p _
    rw [containsExpression, h]
    rfl
  rw [newUses, List.filter_eq_self.mpr hall]

theorem paramList_withPredicate (hnew : c.containsParam q.name = false) :
    (c.withPredicate (.compare column o q)).paramList = c.paramList ++ [q] := by
  apply KeyedSeq.toList_insertAll_of_absent
  · intro p hp
    obtain rfl : p = q := List.mem_singleton.mp hp
    exact Bool.eq_false_iff.mp hnew
  · exact List.nodup_singleton _

/-- What the comparisons of a run leave behind the expressions and the parameters that were there: those
that use a name for the first time, in their order, with the parameters that they were given. -/
theorem InStep.toList_run (h : c.InStep) (hops : ∀ op ∈ ops, op.isComparison = true)
    (hnamed : ∀ op ∈ ops, ∀ p, op.predicate? = some p → p.key ≠ "") :
    let new := c.newUses (ops.filterMap Op.predicate?)
    (c.run ops).expressions.toList = c.expressions.toList ++ new.map Predicate.text ∧
      (c.run ops).paramList = c.paramList ++ new.flatMap Predicate.params := by
  induction ops generalizing c with
  | nil => exact ⟨(List.append_nil _).symm, (List.append_nil _).symm⟩
  | cons op ops ih =>
    rw [List.forall_mem_cons] at hops hnamed
    have hstep : c.run (op :: ops) = (c.apply op).state.run ops := rfl
    obtain ⟨hignored, hthere⟩ | ⟨column, o, q, hp, hnew, htaken⟩ := h.apply hops.1 hnamed.1
    · have hsame : c.newUses ((op :: ops).filterMap Op.predicate?) =
          c.newUses (ops.filterMap Op.predicate?) := by
        cases hp : op.predicate? with
        | none => rw [List.filterMap_cons_none hp]
        | some p => rw [List.filterMap_cons_some hp, newUses_cons_of_present (hthere p hp)]
      rw [hsame, hstep, hignored]
      exact ih h hops.2 hnamed.2
    · obtain ⟨htexts, hparams⟩ := ih (h.withPredicate hnew) hops.2 hnamed.2
      have hunbound : c.containsParam q.name = false := (h.containsParam_eq q.name).trans hnew
      rw [hstep, htaken, List.filterMap_cons_some hp, newUses_cons_of_absent hnew]
      constructor
      · rw [Outcome.state_accept, htexts, toList_withPredicate hnew, List.append_assoc]
        rfl
      · rw [Outcome.state_accept, hparams, paramList_withPredicate hunbound, List.append_assoc]
        rfl

/-- A reachable clause that holds nothing is made of its decoration alone. -/
theorem eq_ofFormat (hc : c.Reachable) (hlength : c.length = 0) (hcount : c.paramCount = 0) :
    c = ofFormat c.format := by
  have hwell : c.WellFormed := invariant_wellFormed.reachable hc
  have hexpressions : c.expressions = ∅ :=
    hwell.keys.eq_empty (List.eq_nil_of_length_eq_zero hlength)
  exact ext hexpressions (params_eq_empty hwell hcount) rfl

/-- In a clause that holds nothing the first use of each name stays. All comparisons of a run are
accepted without a report, so none overwrites a parameter. The expressions are those of the comparisons
whose name none of those before them has used, and the parameters are theirs, both in their order; the
key of an expression is the name of the parameter at its position, and parameters only ever go behind
those that are there. -/
theorem first_use_stays (hc : c.Reachable) (hlength : c.length = 0) (hcount : c.paramCount = 0)
    (hops : ∀ op ∈ ops, op.isComparison = true)
    (hnamed : ∀ op ∈ ops, ∀ p, op.predicate? = some p → p.key ≠ "") :
    let first := firstUses (ops.filterMap Op.predicate?)
    let d := c.run ops
    (∀ p ∈ first, ∃ column o q, p = .compare column o q ∧
        p.text = column ++ " " ++ o.symbol ++ " " ++ q.name ∧ p.key = q.name ∧ p.params = [q]) ∧
      d.expressions.toList = first.map Predicate.text ∧
      d.paramList = first.flatMap Predicate.params ∧
      (∀ n i, d.expressions.indexOf? n = some i ↔ (d.paramList.map Param.name)[i]? = some n) ∧
      d.format = c.format ∧
      ∀ before op after, ops = before ++ op :: after →
        ((c.run before).apply op).fault = none ∧ ((c.run before).apply op).events = [] ∧
          (c.run before).paramList <+: d.paramList := by
  intro first d
  have hempty : c = ofFormat c.format := eq_ofFormat hc hlength hcount
  have hstart : c.InStep := hempty ▸ inStep_ofFormat c.format
  have hfirst : c.newUses (ops.filterMap Op.predicate?) = first :=
    newUses_of_empty (congrArg expressions hempty) _
  obtain ⟨htexts, hparams⟩ := hstart.toList_run hops hnamed
  have hbound : d.params.KeyedBy Param.name := by
    have hrun : d.params = c.params.insertAll Param.name (c.log ops) := params_run c ops
    rw [hrun]
    exact (invariant_wellFormed.reachable hc).bound.insertAll _
  have hnoTexts : c.expressions.toList = [] := congrArg (fun c => c.expressions.toList) hempty
  have hnoParams : c.paramList = [] := congrArg paramList hempty
  rw [hfirst, hnoTexts, List.nil_append] at htexts
  rw [hfirst, hnoParams, List.nil_append] at hparams
  refine ⟨fun p hp => ?_, htexts, hparams, fun n i => ?_,
    format_run fun op hop => Op.decorates_of_isComparison (hops op hop), ?_⟩
  · obtain ⟨op, hop, hpredicate⟩ := List.mem_filterMap.mp (mem_of_mem_firstUses hp)
    obtain ⟨column, o, q, rfl⟩ := Op.exists_compare (hops op hop) hpredicate
    exact ⟨column, o, q, rfl, rfl, rfl, rfl⟩
  · rw [(hstart.run hops hnamed).indexOf?_eq n]
    exact hbound n i
  · rintro before op after rfl
    rw [List.forall_mem_append] at hops hnamed
    have hthere : (c.run before).InStep := hstart.run hops.1 hnamed.1
    have hrest : d = (c.run before).run (op :: after) := List.foldl_append
    have haccept := hthere.apply_eq_accept (List.forall_mem_cons.mp hops.2).1
      (List.forall_mem_cons.mp hnamed.2).1
    refine ⟨by rw [haccept]; rfl, by rw [haccept]; rfl, ?_⟩
    rw [hrest, (hthere.toList_run hops.2 hnamed.2).2]
    exact List.prefix_append _ _

/-- A number and a text under one name, a parameter that is ready, and a name whose value is absent at
first. -/
theorem first_use_stays_person :
    let ops : List Op :=
      [.addFilter (.compare "id" .notEqual "@x" (some ⟨.int32, 7⟩)),
        .addPredicate (.compare "age" .less (.ofValue "@y" (.int32 30))),
        .addFilter (.compare "size" .greater "@z" none),
        .addFilter (.pattern false .anywhere "name" "@x" (some "jo")),
        .addFilter (.pattern true .atStart "city" "@z" (some "Pa"))]
    let d := (whereList .and).run ops
    (whereList .and).Reachable ∧ (whereList .and).length = 0 ∧ (whereList .and).paramCount = 0 ∧
      (∀ op ∈ ops, op.isComparison = true) ∧
      (∀ op ∈ ops, ∀ p, op.predicate? = some p → p.key ≠ "") ∧
      d.expressions.toList = ["id <> @x", "age < @y", "city not like @z"] ∧
      d.paramList =
        [.ofValue "@x" (.int32 7), .ofValue "@y" (.int32 30), .ofValue "@z" (.text "Pa%")] ∧
      d.expressions.indexOf? "@z" = some 2 ∧ d.format = Format.whereList .and := by
  intro ops d
  have hreach : (whereList .and).Reachable := ⟨[.create (.whereList .and)], .clause 0, rfl⟩
  have hops : ∀ op ∈ ops, op.isComparison = true := by decide
  have hnamed : ∀ op ∈ ops, ∀ p, op.predicate? = some p → p.key ≠ "" := by
    simp [ops, Op.predicate?, Filter.predicate?, Predicate.key, Param.ofValue, Typed.toParam]
  obtain ⟨-, htexts, hparams, hkeys, hformat, -⟩ := first_use_stays hreach rfl rfl hops hnamed
  refine ⟨hreach, rfl, rfl, hops, hnamed, htexts, hparams, (hkeys "@z" 2).mpr ?_, hformat⟩
  rw [hparams]
  rfl

end SqlCompose.Clause
