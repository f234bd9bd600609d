import SqlCompose.Proofs.Clause.Supplied
import SqlCompose.Proofs.Clause.Written
import SqlCompose.Proofs.Select.Absence

/-! Filters with keys and names of their own, which do not get in the way of one another. -/
namespace SqlCompose.Clause

variable {c : Clause} {f : Filter} {fs : List Filter} {p : Predicate} {q : Param} {k : String}

/-- The filters have names for all that they supply, no two of them have a key or a name in common, and
the clause has none of their keys and binds none of their names. -/
structure FreshFor (c : Clause) (fs : List Filter) : Prop where
  named : ∀ q ∈ fs.flatMap Filter.supplied, q.name ≠ ""
  keys : (fs.filterMap Filter.key?).Nodup
  names : ((fs.flatMap Filter.supplied).map Param.name).Nodup
  keys_absent : ∀ k ∈ fs.filterMap Filter.key?, ¬ c.containsExpression k = true
  names_absent : ∀ q ∈ fs.flatMap Filter.supplied, ¬ c.containsParam q.name = true

/-- Whether a name is given and the clause has no use for it yet. -/
structure Lacks (c : Clause) (name : String) : Prop where
  ne_empty : name ≠ ""
  not_key : ¬ c.containsExpression name = true
  not_bound : ¬ c.containsParam name = true

namespace FreshFor

/-- A filter that asks for nothing may be left out. -/
theorem of_absent (h : c.FreshFor (f :: fs)) (hf : f.predicate? = none) : c.FreshFor fs := by
  have hkeys : (f :: fs).filterMap Filter.key? = fs.filterMap Filter.key? :=
    List.filterMap_cons_none (by rw [Filter.key?, hf]; rfl)
  have hsupplied : (f :: fs).flatMap Filter.supplied = fs.flatMap Filter.supplied := by
    rw [List.flatMap_cons, Filter.supplied_eq, hf]
    rfl
  obtain ⟨h1, h2, h3, h4, h5⟩ := h
  rw [hsupplied] at h1 h3 h5
  rw [hkeys] at h2 h4
  exact ⟨h1, h2, h3, h4, h5⟩

theorem filterMap_key?_cons (hf : f.predicate? = some p) :
    (f :: fs).filterMap Filter.key? = p.key :: fs.filterMap Filter.key? :=
  List.filterMap_cons_some (Filter.key?_of_predicate? hf)

theorem flatMap_supplied_cons (hf : f.predicate? = some p) :
    (f :: fs).flatMap Filter.supplied = p.params ++ fs.flatMap Filter.supplied := by
  rw [List.flatMap_cons, Filter.supplied_of_predicate? hf]

theorem takes (h : c.FreshFor (f :: fs)) (hf : f.predicate? = some p) : c.takes p = true := by
  have hnamed : ∀ q ∈ f.supplied, q.name ≠ "" := by
    intro q hq
    exact h.named q (List.mem_flatMap.mpr ⟨f, List.mem_cons_self, hq⟩)
  rw [takes_iff_of_named hf hnamed]
  exact h.keys_absent p.key (by simp [filterMap_key?_cons hf])

/-- What the first filter adds are not the keys and names of the others. -/
theorem step (h : c.FreshFor (f :: fs)) (hf : f.predicate? = some p) :
    (c.addFilter f).state.FreshFor fs := by
  have htakes := h.takes hf
  obtain ⟨hnamed, hkeys, hnames, hkeysAbsent, hnamesAbsent⟩ := h
  rw [flatMap_supplied_cons hf] at hnamed hnames hnamesAbsent
  rw [filterMap_key?_cons hf] at hkeys hkeysAbsent
  rw [List.nodup_cons] at hkeys
  rw [List.map_append, List.nodup_append] at hnames
  refine ⟨fun q hq => hnamed q (List.mem_append_right _ hq), hkeys.2, hnames.2.1, ?_, ?_⟩
  · intro k hk hcontains
    rcases (containsExpression_state_addFilter hf htakes).mp hcontains with rfl | hthere
    · exact hkeys.1 hk
    · exact hkeysAbsent k (List.mem_cons_of_mem _ hk) hthere
  · intro q hq hcontains
    rcases (containsParam_state_addFilter hf htakes).mp hcontains with hnew | hthere
    · exact hnames.2.2 q.name hnew q.name (List.mem_map_of_mem hq) rfl
    · exact hnamesAbsent q (List.mem_append_right _ hq) hthere

theorem answers_eq (h : c.FreshFor fs) : c.answers fs = fs.map fun f => (f, none) := by
  induction fs generalizing c with
  | nil => rfl
  | cons f fs ih =>
    have hnamed : ∀ q ∈ f.supplied, q.name ≠ "" := by
      intro q hq
      exact h.named q (List.mem_flatMap.mpr ⟨f, List.mem_cons_self, hq⟩)
    rw [answers, fault_addFilter hnamed, List.map_cons]
    cases hf : f.predicate? with
    | none =>
      rw [addFilter, hf]
      exact congrArg _ (ih (h.of_absent hf))
    | some p => rw [ih (h.step hf)]

theorem toList_addFilters (h : c.FreshFor fs) :
    (c.addFilters fs).expressions.toList =
      c.expressions.toList ++ fs.filterMap Filter.text? := by
  induction fs generalizing c with
  | nil => exact (List.append_nil _).symm
  | cons f fs ih =>
    rw [addFilters_cons]
    cases hf : f.predicate? with
    | none =>
      have htext : f.text? = none := by rw [Filter.text?, hf]; rfl
      rw [List.filterMap_cons_none htext, addFilter, hf]
      exact ih (h.of_absent hf)
    | some p =>
      have hkey : c.containsExpression p.key = false := by
        simpa using h.keys_absent p.key (by simp [filterMap_key?_cons hf])
      rw [ih (h.step hf), state_addFilter_of_takes hf (h.takes hf), toList_withPredicate hkey,
        List.filterMap_cons_some (Filter.text?_of_predicate? hf), List.append_assoc]
      rfl

theorem paramList_addFilters (h : c.FreshFor fs) :
    (c.addFilters fs).paramList = c.paramList ++ fs.flatMap Filter.supplied := by
  induction fs generalizing c with
  | nil => exact (List.append_nil _).symm
  | cons f fs ih =>
    rw [addFilters_cons]
    cases hf : f.predicate? with
    | none =>
      rw [List.flatMap_cons, Filter.supplied_eq, hf, addFilter, hf]
      exact ih (h.of_absent hf)
    | some p =>
      have hnames := h.names
      have habsent := h.names_absent
      rw [flatMap_supplied_cons hf] at hnames habsent
      rw [List.map_append] at hnames
      have hadded : (c.withPredicate p).paramList = c.paramList ++ p.params :=
        KeyedSeq.toList_insertAll_of_absent (fun q hq => habsent q (List.mem_append_left _ hq))
          (List.nodup_append.mp hnames).1
      rw [ih (h.step hf), state_addFilter_of_takes hf (h.takes hf), hadded,
        flatMap_supplied_cons hf, List.append_assoc]

/-- Apart from a list of values, a filter finds the clause without its key if the clause has no use for
the names under which it binds its values, since its key is one of them. -/
theorem of_lacks (hf : f.isMember = false) (hnames : (f.supplied.map Param.name).Nodup)
    (hlacks : ∀ q ∈ f.supplied, c.Lacks q.name) : c.FreshFor [f] := by
  have hkeys : [f].filterMap Filter.key? = f.key?.toList := by
    rw [List.filterMap_cons]
    cases f.key? <;> rfl
  have hsupplied : [f].flatMap Filter.supplied = f.supplied := List.flatMap_singleton _ _
  refine ⟨?_, ?_, ?_, ?_, ?_⟩
  · rw [hsupplied]
    exact fun q hq => (hlacks q hq).ne_empty
  · rw [hkeys]
    cases f.key? <;> simp
  · rwa [hsupplied]
  · intro k hk
    rw [hkeys, Option.mem_toList] at hk
    obtain ⟨q, hq, hname⟩ := Filter.exists_mem_supplied hk
    have hkey : q.name = k := by simpa [hf] using hname
    rw [← hkey]
    exact (hlacks q hq).not_key
  · rw [hsupplied]
    exact fun q hq => (hlacks q hq).not_bound

/-- A single filter that finds the clause without its key and its names puts its condition behind the
expressions and what it supplies behind the parameters. -/
theorem addFilter (h : c.FreshFor [f]) (hf : f.predicate? = some p) :
    (c.addFilter f).fault = none ∧
      (c.addFilter f).state.expressions.toList = c.expressions.toList ++ [p.text] ∧
      (c.addFilter f).state.paramList = c.paramList ++ f.supplied := by
  refine ⟨?_, ?_, ?_⟩
  · have hanswers := h.answers_eq
    rw [List.map_singleton, answers] at hanswers
    exact (Prod.mk.inj (List.cons.inj hanswers).1).2
  · have htexts := h.toList_addFilters
    rwa [List.filterMap_cons_some (Filter.text?_of_predicate? hf)] at htexts
  · have hparams := h.paramList_addFilters
    rwa [List.flatMap_singleton] at hparams

/-- What the filter supplies is found under its names afterwards. -/
theorem param?_addFilter (h : c.FreshFor [f]) (hc : c.WellFormed) (hf : f.predicate? = some p)
    (hq : q ∈ f.supplied) : (c.addFilter f).state.param? q.name = some q := by
  have hmem : q ∈ (c.addFilter f).state.paramList := by
    rw [(h.addFilter hf).2.2]
    exact List.mem_append_right _ hq
  exact (hc.addFilter f).bound.find?_eq_some_iff.mpr ⟨hmem, rfl⟩

end FreshFor

theorem format_addFilters (c : Clause) (fs : List Filter) : (c.addFilters fs).format = c.format := by
  induction fs generalizing c with
  | nil => rfl
  | cons f fs ih => rw [addFilters_cons, ih]; exact format_apply c (.addFilter f)

/-- In a clause that holds nothing, filters with keys and names of their own are all accepted. Their
conditions become the expressions in order, and what they supply becomes the parameters in order, with
the values and types that were given. -/
theorem addFilters_of_distinct (hc : c.Reachable) (hlength : c.length = 0)
    (hcount : c.paramCount = 0) (hnamed : ∀ f ∈ fs, ∀ n ∈ f.names, n ≠ "")
    (hkeys : (fs.filterMap Filter.key?).Nodup)
    (hnames : ((fs.flatMap Filter.supplied).map Param.name).Nodup) :
    c.answers fs = (fs.map fun f => (f, none)) ∧
      (c.addFilters fs).expressions.toList = fs.filterMap Filter.text? ∧
      (c.addFilters fs).paramList = fs.flatMap Filter.supplied ∧
      (c.addFilters fs).format = c.format := by
  have hwell : c.WellFormed := invariant_wellFormed.reachable hc
  have hexpressions : c.expressions.toList = [] := List.eq_nil_of_length_eq_zero hlength
  have hparams : c.paramList = [] := List.eq_nil_of_length_eq_zero hcount
  have hfresh : c.FreshFor fs := by
    refine ⟨fun q hq => ?_, hkeys, hnames, fun k _ hk => ?_, fun q _ hq => ?_⟩
    · obtain ⟨f, hf, hq⟩ := List.mem_flatMap.mp hq
      exact Filter.name_ne_of_mem_supplied (hnamed f hf) hq
    · rw [containsExpression, hwell.keys.eq_empty hexpressions] at hk
      cases hk
    · rw [containsParam, params_eq_empty hwell hcount] at hq
      cases hq
  refine ⟨hfresh.answers_eq, ?_, ?_, format_addFilters c fs⟩
  · rw [hfresh.toList_addFilters, hexpressions, List.nil_append]
  · rw [hfresh.paramList_addFilters, hparams, List.nil_append]

/-- A range, a list of values whose key is that of no name, an absent comparison that repeats a name,
and a text that is sought. -/
theorem addFilters_of_distinct_people :
    let fs : List Filter :=
      [.between true "age" "@low" (some ⟨.int32, (18 : Int32)⟩) "@high" (some ⟨.int64, (65 : Int64)⟩),
        .member false "id" "@id" (some [⟨.int32, (1 : Int32)⟩, ⟨.bool, true⟩]),
        .compare "age" .equal "@low" none,
        .pattern false .atStart "name" "@name" (some "a%")]
    (∀ f ∈ fs, ∀ n ∈ f.names, n ≠ "") ∧ fs.filterMap Filter.key? = ["@low", "@id", "@name"] ∧
      ((fs.flatMap Filter.supplied).map Param.name).Nodup ∧
      (whereList .or).answers fs = (fs.map fun f => (f, none)) ∧
      ((whereList .or).addFilters fs).expressions.toList =
        ["age not between @low and @high", "id in (@id1, @id2)", "name like @name"] ∧
      ((whereList .or).addFilters fs).paramList =
        [.ofValue "@low" (.int32 18), .ofValue "@high" (.int64 65), .ofValue "@id1" (.int32 1),
          .ofValue "@id2" (.bool true), .ofValue "@name" (.text "a\\%%")] := by
  intro fs
  have hreach : (whereList .or).Reachable := ⟨[.create (.whereList .or)], .clause 0, rfl⟩
  have hnamed : ∀ f ∈ fs, ∀ n ∈ f.names, n ≠ "" := by simp [fs, Filter.names]
  have hkeys : (fs.filterMap Filter.key?).Nodup := by decide
  have hnames : ((fs.flatMap Filter.supplied).map Param.name).Nodup := by decide
  obtain ⟨hanswers, htexts, hparams, -⟩ :=
    addFilters_of_distinct hreach rfl rfl hnamed hkeys hnames
  exact ⟨hnamed, rfl, hnames, hanswers, htexts, hparams⟩

end SqlCompose.Clause
