import SqlCompose.Proofs.Clause.Atomic

/-! What is reported of additions under a key and of parameters handed over. -/
namespace SqlCompose

/-- Whether an event tells of a key. Of a parameter that is replaced it tells the name. -/
def Event.Names (e : Event) (key : String) : Prop :=
  e.target = "sqlclause" ∧ ("key", .str key) ∈ e.fields

namespace Clause

variable {c : Clause} {op : Op} {key text : String} {ps : List Param} {p : Predicate}
  {overwrite : Bool} {e : Event}

/-- Whether an operation brings along the parameters that its expression mentions. -/
def Op.bringsParams {ρ : Type} : Op ρ → Bool
  | .addKeyedWithParams .. | .addPredicate _ | .addFilter _ => true
  | _ => false

/-- Events that tell of parameters which are replaced. -/
def OnlyOverwrites (es : List Event) : Prop := ∀ e ∈ es, ∃ name, e = .paramOverwritten name

theorem onlyOverwrites_nil : OnlyOverwrites [] := fun _ he => nomatch he

theorem OnlyOverwrites.not_names {es : List Event} (h : OnlyOverwrites es) (he : e ∈ es)
    (key : String) : ¬ e.Names key := by
  obtain ⟨name, rfl⟩ := h e he
  simp [Event.Names, Event.fields]

theorem onlyOverwrites_insertParams (c : Clause) (ps : List Param) :
    OnlyOverwrites (c.insertParams ps).events := by
  induction ps generalizing c with
  | nil => exact onlyOverwrites_nil
  | cons p ps ih =>
    intro e he
    rw [insertParams, List.foldlM_cons, Traced.events_bind, ← insertParams] at he
    rcases List.mem_append.mp he with hfirst | hothers
    · rw [events_insertParam] at hfirst
      split at hfirst
      · exact ⟨p.name, List.mem_singleton.mp hfirst⟩
      · cases hfirst
    · exact ih _ e hothers

/-- What is joined to the clause with its parameters reports which of their names were bound. -/
theorem onlyOverwrites_addKeyedWithParams (c : Clause) (key text : String) (ps : List Param)
    (overwrite : Bool) : OnlyOverwrites (c.addKeyedWithParams key text ps overwrite).events := by
  rw [addKeyedWithParams]
  split
  · exact onlyOverwrites_nil
  · split
    · exact onlyOverwrites_insertParams _ ps
    · exact onlyOverwrites_nil

theorem onlyOverwrites_addPredicate (c : Clause) (p : Predicate) :
    OnlyOverwrites (c.addPredicate p).events := by
  rw [addPredicate]
  split
  · exact onlyOverwrites_nil
  · exact onlyOverwrites_addKeyedWithParams c p.key p.text p.params false

theorem onlyOverwrites_addKeyed (text : String) (h : c.expressions.accepts key overwrite = true) :
    OnlyOverwrites (c.addKeyed key text overwrite).events := by
  rw [events_addKeyed, h, Bool.or_true, if_pos rfl]
  exact onlyOverwrites_nil

theorem onlyOverwrites_addKeyedClause (other : Clause)
    (h : c.expressions.accepts key overwrite = true) :
    OnlyOverwrites (c.addKeyedClause key other overwrite).events := by
  rw [addKeyedClause, if_pos h, Traced.events_bind]
  intro e he
  rcases List.mem_append.mp he with htext | hparams
  · exact onlyOverwrites_addKeyed other.sql h e htext
  · exact onlyOverwrites_insertParams _ _ e hparams

/-- An addition that is not left out reports no key, be it accepted or refused. -/
theorem onlyOverwrites_apply (hop : .insert key text overwrite ∈ op.writes)
    (h : c.expressions.accepts key overwrite = true) : OnlyOverwrites (c.apply op).events := by
  cases op with
  | addKeyed key' text' overwrite' =>
    obtain ⟨-, heq⟩ := mem_ifText.mp hop
    cases heq
    exact onlyOverwrites_addKeyed text h
  | addKeyedWithParams key' text' ps overwrite' =>
    exact onlyOverwrites_addKeyedWithParams c key' text' ps overwrite'
  | addKeyedClause key' other overwrite' =>
    obtain ⟨-, heq⟩ := mem_ifText.mp hop
    cases heq
    exact onlyOverwrites_addKeyedClause other h
  | addPredicate p => exact onlyOverwrites_addPredicate c p
  | addFilter f =>
    obtain ⟨p, hf, -⟩ := mem_writes_addFilter.mp hop
    rw [apply, addFilter_of_predicate? hf]
    exact onlyOverwrites_addPredicate c p
  | add text => cases (mem_ifText.mp hop).2
  | addClause other => cases (mem_ifText.mp hop).2
  | _ => cases hop

theorem accepts_of_present (hkey : c.containsExpression key = true) :
    c.expressions.accepts key false = false := by
  rw [accepts_false, hkey]
  rfl

theorem addKeyed_of_present (htext : text ≠ "") (hkey : c.containsExpression key = true) :
    c.addKeyed key text false = ⟨c, [.expressionIgnored key]⟩ := by
  obtain ⟨i, hi⟩ := KeyedSeq.containsKey_iff.mp hkey
  have hempty : text.isEmpty = false := String.isEmpty_eq_false_iff.mpr htext
  apply Traced.ext
  · simp [value_addKeyed, hempty, KeyedSeq.insert_ignored hi]
  · simp [events_addKeyed, hempty, accepts_of_present hkey]

theorem addKeyedClause_of_present (other : Clause) (hkey : c.containsExpression key = true) :
    c.addKeyedClause key other false = ⟨c, [.clauseIgnored key]⟩ := by
  rw [addKeyedClause, accepts_of_present hkey]
  rfl

theorem addPredicate_of_mem_writesOf (hp : .insert key text overwrite ∈ writesOf p)
    (hkey : c.containsExpression key = true) : c.addPredicate p = .accept c := by
  cases (mem_writesOf.mp hp).2
  exact addPredicate_of_containsExpression hkey

/-- An addition that is left out because its key is present changes nothing. It is reported once, under
its key, unless it brings parameters along. -/
theorem apply_of_present (hop : .insert key text false ∈ op.writes)
    (hkey : c.containsExpression key = true) :
    (c.apply op).state = c ∧ (c.apply op).fault = none ∧
      if op.bringsParams then (c.apply op).events = []
      else ∃ e, (c.apply op).events = [e] ∧ e.level = .trace ∧ e.Names key := by
  cases op with
  | addKeyed key' text' overwrite' =>
    obtain ⟨htext, heq⟩ := mem_ifText.mp hop
    cases heq
    rw [apply, addKeyed_of_present htext hkey]
    exact ⟨rfl, rfl, _, rfl, rfl, rfl, by simp [Event.fields]⟩
  | addKeyedWithParams key' text' ps overwrite' =>
    obtain ⟨-, heq⟩ := mem_ifText.mp hop
    cases heq
    rw [apply, addKeyedWithParams_of_ignores (.inr ⟨hkey, rfl⟩)]
    exact ⟨rfl, rfl, rfl⟩
  | addKeyedClause key' other overwrite' =>
    obtain ⟨-, heq⟩ := mem_ifText.mp hop
    cases heq
    rw [apply, addKeyedClause_of_present other hkey]
    exact ⟨rfl, rfl, _, rfl, rfl, rfl, by simp [Event.fields]⟩
  | addPredicate p =>
    rw [apply, addPredicate_of_mem_writesOf hop hkey]
    exact ⟨rfl, rfl, rfl⟩
  | addFilter f =>
    obtain ⟨p, hf, hp⟩ := mem_writes_addFilter.mp hop
    rw [apply, addFilter_of_predicate? hf, addPredicate_of_mem_writesOf hp hkey]
    exact ⟨rfl, rfl, rfl⟩
  | add text => cases (mem_ifText.mp hop).2
  | addClause other => cases (mem_ifText.mp hop).2
  | _ => cases hop

/-- An addition under a key that is left out because the key is present changes nothing, and one event
tells of the key, unless the addition brings its parameters along: then there is none. Where an addition is
not left out, no event tells of any key. -/
theorem present_key_reported_unless_params (c : Clause) :
    (∀ (op : Op) (key text : String) (overwrite : Bool), .insert key text overwrite ∈ op.writes →
      let o := c.apply op
      (c.containsExpression key = true ∧ overwrite = false →
        o.state = c ∧ o.fault = none ∧
          if op.bringsParams then o.events = []
          else ∃ e, o.events = [e] ∧ e.level = .trace ∧ e.Names key) ∧
      (¬ (c.containsExpression key = true ∧ overwrite = false) →
        ∀ e ∈ o.events, ∀ k, ¬ e.Names k)) ∧
    ∀ key text p overwrite, c.addKeyedWithParam key text p overwrite =
      c.apply (.addKeyedWithParams key text [p] overwrite) := by
  refine ⟨fun op key text overwrite hop => ⟨?_, ?_⟩, fun key text p overwrite => rfl⟩
  · rintro ⟨hkey, rfl⟩
    exact apply_of_present hop hkey
  · intro hnot e he
    have haccepts : c.expressions.accepts key overwrite = true := by
      cases overwrite with
      | true => rfl
      | false =>
        rw [accepts_false, Bool.not_eq_true']
        exact Bool.eq_false_iff.mpr fun hkey => hnot ⟨hkey, rfl⟩
    exact (onlyOverwrites_apply hop haccepts).not_names he

/-- An expression and a clause that are left out for their key are reported, a condition with the same key is
not; and neither is an expression that takes the place of the one that is there. -/
theorem present_key_reported_unless_params_age :
    let c := (empty.addKeyed "@age" "age > 17" false).value
    let text : Op := .addKeyed "@age" "age < 70" false
    let nested : Op := .addKeyedClause "@age" (ofText "age < 70") false
    let condition : Op := .addFilter (.compare "age" .less "@age" (some ⟨.int32, (70 : Int32)⟩))
    let replacement : Op := .addKeyed "@age" "age < 70" true
    c.containsExpression "@age" = true ∧ .insert "@age" "age < 70" false ∈ text.writes ∧
      .insert "@age" "age < 70" false ∈ nested.writes ∧
      .insert "@age" "age < @age" false ∈ condition.writes ∧
      .insert "@age" "age < 70" true ∈ replacement.writes ∧
      (∃ e, (c.apply text).events = [e] ∧ e.level = .trace ∧ e.Names "@age") ∧
      (∃ e, (c.apply nested).events = [e] ∧ e.level = .trace ∧ e.Names "@age") ∧
      (c.apply condition).events = [] ∧
      ∀ e ∈ (c.apply replacement).events, ∀ k, ¬ e.Names k := by
  intro c text nested condition replacement
  have htext : .insert "@age" "age < 70" false ∈ text.writes := List.mem_singleton.mpr rfl
  have hnested : .insert "@age" "age < 70" false ∈ nested.writes := List.mem_singleton.mpr rfl
  have hcondition : .insert "@age" "age < @age" false ∈ condition.writes :=
    List.mem_singleton.mpr rfl
  have hreplacement : .insert "@age" "age < 70" true ∈ replacement.writes :=
    List.mem_singleton.mpr rfl
  have hleft := (present_key_reported_unless_params c).1
  refine ⟨rfl, htext, hnested, hcondition, hreplacement, ?_, ?_, ?_, ?_⟩
  · exact ((hleft text _ _ _ htext).1 ⟨rfl, rfl⟩).2.2
  · exact ((hleft nested _ _ _ hnested).1 ⟨rfl, rfl⟩).2.2
  · exact ((hleft condition _ _ _ hcondition).1 ⟨rfl, rfl⟩).2.2
  · exact (hleft replacement _ _ _ hreplacement).2 (by simp)

/-- Two comparisons under one name: the second is left out, and nothing is reported of it. -/
theorem second_comparison_unreported :
    let equals (column : String) (n : Int32) : Op :=
      .addFilter (.compare column .equal "@x" (some ⟨.int32, n⟩))
    let c := (empty.apply (equals "a" 1)).state
    let o := c.apply (equals "b" 2)
    c.Reachable ∧ c.containsExpression "@x" = true ∧
      .insert "@x" "b = @x" false ∈ (equals "b" 2).writes ∧ o.state = c ∧ o.fault = none ∧
      ¬ ∃ e ∈ o.events, e.Names "@x" := by
  intro equals c o
  have hreach : c.Reachable :=
    ⟨[.create .empty, .change 0 (.addFilter (.compare "a" .equal "@x"
      (some ⟨.int32, (1 : Int32)⟩)))], .clause 0, rfl⟩
  have hevents : o.events = [] := rfl
  refine ⟨hreach, rfl, List.mem_singleton.mpr rfl, rfl, rfl, ?_⟩
  rw [hevents]
  rintro ⟨e, he, -⟩
  cases he

/-- The events of the operations of a run, in order. -/
def reported (c : Clause) : List Op → List Event
  | [] => []
  | op :: ops => (c.apply op).events ++ (c.apply op).state.reported ops

theorem overwritten_reported (c : Clause) (ops : List Op) :
    overwritten (c.reported ops) = c.params.collisions Param.name (c.log ops) := by
  induction ops generalizing c with
  | nil => rfl
  | cons op ops ih =>
    rw [reported, overwritten_append, (c.binds_apply op).overwritten, ih, params_apply, log,
      KeyedSeq.collisions_append]

/-- In every run, the names reported to be bound anew and the names bound at its end are together, in
some order, those bound at its start and those handed over. -/
theorem perm_overwritten_reported (hc : c.WellFormed) (ops : List Op) :
    (overwritten (c.reported ops) ++ (c.run ops).paramList.map Param.name).Perm
      (c.paramList.map Param.name ++ (c.log ops).map Param.name) := by
  rw [overwritten_reported, paramList, params_run]
  exact hc.bound.perm_collisions (c.log ops)

/-- A clause without parameters has at the end of a run as many as were handed over, less those that are
reported to take the place of others; and no name goes astray: the names reported and the names bound are
together those handed over, in some order. -/
theorem handed_over_bound_or_reported (hc : c.Reachable) (h0 : c.paramCount = 0) (ops : List Op) :
    (c.log ops).length = (c.run ops).paramCount + (overwritten (c.reported ops)).length ∧
      (overwritten (c.reported ops) ++ (c.run ops).paramList.map Param.name).Perm
        ((c.log ops).map Param.name) := by
  have hnone : c.paramList = [] := List.eq_nil_of_length_eq_zero h0
  have hnames := perm_overwritten_reported (invariant_wellFormed.reachable hc) ops
  rw [hnone, List.map_nil, List.nil_append] at hnames
  refine ⟨?_, hnames⟩
  have hcount := hnames.length_eq
  rw [List.length_append, List.length_map, List.length_map] at hcount
  rw [← hcount, Nat.add_comm]
  rfl

/-- A range whose bounds are bound anew, by one predicate that takes its place and binds a name twice and
by a clause without a text; a comparison and a clause that are ignored, and a list that is refused. -/
theorem handed_over_bound_or_reported_ages :
    let age (name : String) (n : Int32) : Param := .ofValue name (.int32 n)
    let limits : Clause := (empty.addParams [age "@high" 70, age "@max" 99]).state
    let ops : List Op :=
      [.addFilter (.between false "age" "@low" (some ⟨.int32, 18⟩) "@high" (some ⟨.int32, 65⟩)),
        .addKeyedWithParams "@low" "age >= @low" [age "@low" 21, age "@low" 30] true,
        .addFilter (.compare "age" .notEqual "@low" (some ⟨.int32, 40⟩)),
        .addKeyedClause "@low" limits false, .addParams [age "@high" 50, age "" 60],
        .addClause limits]
    let c := whereList .and
    c.Reachable ∧ c.paramCount = 0 ∧
      (c.log ops).map Param.name = ["@low", "@high", "@low", "@low", "@high", "@max"] ∧
      overwritten (c.reported ops) = ["@low", "@low", "@high"] ∧
      (c.log ops).length = (c.run ops).paramCount + 3 ∧
      (["@low", "@low", "@high"] ++ (c.run ops).paramList.map Param.name).Perm
        ["@low", "@high", "@low", "@low", "@high", "@max"] := by
  intro age limits ops c
  have hreach : c.Reachable := ⟨[.create (.whereList .and)], .clause 0, rfl⟩
  have hlog : (c.log ops).map Param.name = ["@low", "@high", "@low", "@low", "@high", "@max"] := by
    decide +kernel
  have hreported : overwritten (c.reported ops) = ["@low", "@low", "@high"] := by decide +kernel
  obtain ⟨hcount, hnames⟩ := handed_over_bound_or_reported hreach rfl ops
  rw [hreported] at hcount hnames
  rw [hlog] at hnames
  exact ⟨hreach, rfl, hlog, hreported, hcount, hnames⟩

end Clause

end SqlCompose
