import SqlCompose.Proofs.Clause.Supplied

/-!
When a filter is left out because its key has been taken, which a list of values does with a name
that it does not bind.
-/
namespace SqlCompose.Clause

variable {c : Clause} {f : Filter} {before fs : List Filter} {p : Predicate} {k : String}

theorem containsParam_addFilters (h : c.containsParam k = true) (fs : List Filter) :
    (c.addFilters fs).containsParam k = true := by
  rw [containsParam, addFilters, params_run]
  exact KeyedSeq.containsKey_insertAll.mpr (.inr h)

/-- A key that has been taken since came with a filter all of whose names are bound. -/
theorem exists_of_containsExpression_addFilters (h : (c.addFilters fs).containsExpression k = true) :
    c.containsExpression k = true ∨
      ∃ f ∈ fs, f.key? = some k ∧ ∀ q ∈ f.supplied, (c.addFilters fs).containsParam q.name = true := by
  induction fs generalizing c with
  | nil => exact .inl h
  | cons f fs ih =>
    rw [addFilters_cons] at h ⊢
    rcases ih h with hthere | ⟨g, hg, hkey, hbound⟩
    · cases hf : f.predicate? with
      | none =>
        rw [addFilter, hf] at hthere
        exact .inl hthere
      | some p =>
        by_cases htakes : c.takes p = true
        · rcases (containsExpression_state_addFilter hf htakes).mp hthere with rfl | hthere
          · refine .inr ⟨f, List.mem_cons_self, Filter.key?_of_predicate? hf, fun q hq => ?_⟩
            apply containsParam_addFilters
            rw [containsParam_state_addFilter hf htakes]
            rw [Filter.supplied_of_predicate? hf] at hq
            exact .inl (List.mem_map_of_mem hq)
          · exact .inl hthere
        · rw [addFilter_of_predicate? hf, state_addPredicate, if_neg htakes] at hthere
          exact .inl hthere
    · exact .inr ⟨g, List.mem_cons_of_mem f hg, hkey, hbound⟩

/-- The key of a filter that asks for a condition and has names is taken from then on, be it by this
filter or by one before it. -/
theorem containsExpression_addFilters_of_mem (hf : f ∈ fs) (hkey : f.key? = some k)
    (hnamed : ∀ q ∈ f.supplied, q.name ≠ "") : (c.addFilters fs).containsExpression k = true := by
  induction fs generalizing c with
  | nil => cases hf
  | cons g gs ih =>
    rw [addFilters_cons]
    rcases List.mem_cons.mp hf with rfl | hf
    · obtain ⟨p, hp, rfl⟩ := Filter.exists_predicate?_of_key? hkey
      apply containsExpression_addFilters
      by_cases htakes : c.takes p = true
      · exact (containsExpression_state_addFilter hp htakes).mpr (.inl rfl)
      · have hthere : c.containsExpression p.key = true := by
          by_contra hthere
          exact htakes ((takes_iff_of_named hp hnamed).mpr hthere)
        exact containsExpression_addFilter hthere f
    · exact ih hf

/-- Among the filters is one with the same key that binds other names for it: a list of values if the
given filter is none, and the other way round. -/
def HasRival (f : Filter) (fs : List Filter) : Prop :=
  ∃ g ∈ fs, g.key? = f.key? ∧ g.isMember ≠ f.isMember

/-- A filter whose names nobody has bound finds its key taken exactly if it has a rival before it. -/
theorem containsExpression_iff_hasRival (hempty : ∀ k, ¬ c.containsExpression k = true)
    (hnamed : ∀ g ∈ before, ∀ q ∈ g.supplied, q.name ≠ "") (hkey : f.key? = some k)
    (hunbound : ∀ q ∈ f.supplied, ¬ (c.addFilters before).containsParam q.name = true) :
    (c.addFilters before).containsExpression k = true ↔ HasRival f before := by
  constructor
  · intro hthere
    rcases exists_of_containsExpression_addFilters hthere with hstart | ⟨g, hg, hgkey, hbound⟩
    · exact absurd hstart (hempty k)
    · refine ⟨g, hg, hgkey.trans hkey.symm, fun hsame => ?_⟩
      -- two of one kind with one key have a name in common, which is bound and is not
      obtain ⟨q, hq, hqname⟩ := Filter.exists_mem_supplied hgkey
      obtain ⟨r, hr, hrname⟩ := Filter.exists_mem_supplied hkey
      have hcommon : q.name = r.name := by rw [hqname, hrname, hsame]
      exact hunbound r hr (hcommon ▸ hbound q hq)
  · rintro ⟨g, hg, hgkey, -⟩
    exact containsExpression_addFilters_of_mem hg (hgkey.trans hkey) (hnamed g hg)

/-- A filter that asks for a condition, none of whose names is bound at that moment, is appended unless
it has a rival before it, which keeps it out without a fault. -/
theorem appended_iff_no_rival (hc : c.Reachable) (hlength : c.length = 0)
    (hbefore : ∀ g ∈ before, ∀ n ∈ g.names, n ≠ "") (hnames : ∀ n ∈ f.names, n ≠ "")
    (hf : f.predicate? = some p)
    (hunbound : ∀ q ∈ f.supplied, ¬ (c.addFilters before).containsParam q.name = true) :
    let d := c.addFilters before
    (d.addFilter f).fault = none ∧
      ((d.addFilter f).state.expressions.toList = d.expressions.toList ++ [p.text] ↔
        ¬ HasRival f before) ∧
      (d.addFilter f = .accept d ↔ HasRival f before) := by
  intro d
  have hwell : c.WellFormed := invariant_wellFormed.reachable hc
  have hempty : ∀ k, ¬ c.containsExpression k = true := by
    intro k hk
    rw [containsExpression, hwell.keys.eq_empty (List.eq_nil_of_length_eq_zero hlength)] at hk
    cases hk
  have hnamed : ∀ q ∈ f.supplied, q.name ≠ "" := fun q => Filter.name_ne_of_mem_supplied hnames
  have hkey : f.key? = some p.key := Filter.key?_of_predicate? hf
  have hrival : d.containsExpression p.key = true ↔ HasRival f before :=
    containsExpression_iff_hasRival hempty
      (fun g hg q => Filter.name_ne_of_mem_supplied (hbefore g hg)) hkey hunbound
  have htakes : d.takes p = true ↔ ¬ HasRival f before := by
    rw [takes_iff_of_named hf hnamed, hrival]
  refine ⟨fault_addFilter hnamed, (takes_iff_appended hf).symm.trans htakes, fun hsame => ?_, ?_⟩
  · by_contra hno
    have happended := (takes_iff_appended hf).mp (htakes.mpr hno)
    rw [hsame, Outcome.state_accept] at happended
    simp at happended
  · intro h
    rw [addFilter_of_predicate? hf]
    exact addPredicate_of_containsExpression (hrival.mpr h)

/-- A range whose upper end has the name of a list of values, which is no rival of it, and a
comparison under that name, which is kept out. -/
theorem appended_iff_no_rival_ids :
    let ids : Filter := .member false "id" "@x" (some [⟨.int32, (1 : Int32)⟩, ⟨.int32, (2 : Int32)⟩])
    let range : Filter := .between false "age" "@low" (some ⟨.int32, (18 : Int32)⟩) "@x"
      (some ⟨.int32, (65 : Int32)⟩)
    let d := (whereList .and).addFilters [ids]
    (whereList .and).Reachable ∧ (whereList .and).length = 0 ∧
      (∀ g ∈ [ids], ∀ n ∈ g.names, n ≠ "") ∧ (∀ n ∈ range.names, n ≠ "") ∧
      (∀ q ∈ range.supplied, ¬ d.containsParam q.name = true) ∧ ¬ HasRival range [ids] ∧
      (d.addFilter range).state.expressions.toList =
        d.expressions.toList ++ ["age between @low and @x"] := by
  intro ids range d
  have hreach : (whereList .and).Reachable := ⟨[.create (.whereList .and)], .clause 0, rfl⟩
  have hbefore : ∀ g ∈ [ids], ∀ n ∈ g.names, n ≠ "" := by simp [ids, Filter.names]
  have hnames : ∀ n ∈ range.names, n ≠ "" := by simp [range, Filter.names]
  have hunbound : ∀ q ∈ range.supplied, ¬ d.containsParam q.name = true := by
    intro q hq
    rcases List.mem_cons.mp hq with rfl | hq
    · decide
    · rw [List.mem_singleton.mp hq]
      decide
  have hrival : ¬ HasRival range [ids] := by
    rintro ⟨g, hg, hkey, -⟩
    rw [List.mem_singleton.mp hg] at hkey
    exact absurd hkey (by decide)
  have happended := (appended_iff_no_rival hreach rfl hbefore hnames rfl hunbound).2.1.mpr hrival
  exact ⟨hreach, rfl, hbefore, hnames, hunbound, hrival, happended⟩

/-- A list of values takes its name for a key and binds it with numbers only, so that a comparison under
the name itself, which nobody has bound, is left out. -/
theorem comparison_kept_out_by_list :
    let ids : Filter := .member false "id" "@x" (some [⟨.int32, (1 : Int32)⟩, ⟨.int32, (2 : Int32)⟩])
    let age : Filter := .compare "age" .equal "@x" (some ⟨.int32, (40 : Int32)⟩)
    (empty.addFilters [ids]).expressions.toList = ["id in (@x1, @x2)"] ∧
      age.supplied.map Param.name = ["@x"] ∧
      (empty.addFilters [ids]).containsParam "@x" = false ∧
      ((empty.addFilters [ids]).addFilter age).fault = none ∧
      (empty.addFilters [ids, age]).expressions.toList = ["id in (@x1, @x2)"] ∧
      (empty.addFilters [ids, age]).containsParam "@x" = false :=
  ⟨rfl, rfl, rfl, rfl, rfl, rfl⟩

end SqlCompose.Clause
