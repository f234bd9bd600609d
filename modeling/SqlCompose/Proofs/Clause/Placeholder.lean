import SqlCompose.Proofs.Clause.Log

/-! What the placeholders of a condition are bound to while more filters are added. -/
namespace SqlCompose.Clause

variable {c : Clause} {f : Filter} {p : Predicate} {q : Param} {before after fs : List Filter}

/-- From the moment a condition is taken, a name in it is bound to what was last supplied for it, by
the condition itself or by a later one. -/
theorem param?_addFilters_withPredicate (hc : c.params.WellKeyed) (hq : q ∈ p.params) :
    ((c.withPredicate p).addFilters fs).param? q.name =
      KeyedSeq.latest? Param.name (p.params ++ (c.withPredicate p).log (fs.map .addFilter))
        q.name := by
  have hparams : ((c.withPredicate p).addFilters fs).params =
      c.params.insertAll Param.name
        (p.params ++ (c.withPredicate p).log (fs.map .addFilter)) := by
    rw [addFilters, params_run, KeyedSeq.insertAll_append, withPredicate]
  rw [param?, hparams]
  exact KeyedSeq.find?_insertAll_of_mem hc (List.mem_append_left _ hq)

theorem wellKeyed_params_addFilters (hc : c.WellFormed) (fs : List Filter) :
    (c.addFilters fs).params.WellKeyed := by
  rw [addFilters, params_run]
  exact (hc.bound.insertAll _).wellKeyed

/-- The names in a condition that was taken stay bound throughout the filters that follow, each to the
parameter last supplied for it, by this condition or by a later one that is taken too. That is the
condition's own parameter as long as no other is supplied under the name. A filter with the key of the
condition is ignored. -/
theorem placeholder_bound_to_latest (hc : c.Reachable) (hf : f.predicate? = some p)
    (happended : ((c.addFilters before).addFilter f).state.expressions.toList =
      (c.addFilters before).expressions.toList ++ [p.text])
    (hq : q ∈ p.params) :
    let taken := ((c.addFilters before).addFilter f).state
    let supplied := p.params ++ taken.log (after.map .addFilter)
    let later := taken.addFilters after
    later.param? q.name = KeyedSeq.latest? Param.name supplied q.name ∧
      (∃ r ∈ supplied, r.name = q.name ∧ later.param? q.name = some r) ∧
      ((∀ r ∈ supplied, r.name = q.name → r = q) → later.param? q.name = some q) ∧
      ∀ g r, g.predicate? = some r → r.key = p.key → later.addFilter g = .accept later := by
  intro taken supplied later
  have hwell := wellKeyed_params_addFilters (invariant_wellFormed.reachable hc) before
  have htaken : taken = (c.addFilters before).withPredicate p :=
    state_addFilter_of_takes hf ((takes_iff_appended hf).mpr happended)
  have hlatest : later.param? q.name = KeyedSeq.latest? Param.name supplied q.name := by
    simp only [later, supplied, htaken]
    exact param?_addFilters_withPredicate hwell hq
  have hsupplied : q ∈ supplied := List.mem_append_left _ hq
  obtain ⟨r, hr, hname, hlast⟩ := KeyedSeq.exists_latest? Param.name hsupplied
  have hkey : later.containsExpression p.key = true := by
    simp only [later, htaken]
    exact containsExpression_addFilters (containsExpression_key_withPredicate _ p) after
  refine ⟨hlatest, ⟨r, hr, hname, hlatest.trans hlast⟩, fun honly => ?_, fun g s hg hs => ?_⟩
  · rw [hlatest, hlast, honly r hr hname]
  · rw [addFilter_of_predicate? hg]
    exact addPredicate_of_containsExpression (hs ▸ hkey)

/-- A comparison, a range whose upper end takes the same name, and a comparison that comes too late.
-/
theorem placeholder_bound_to_latest_comparison :
    let f : Filter := .compare "a" .equal "@x" (some ⟨.int32, (1 : Int32)⟩)
    let p : Predicate := .compare "a" .equal (.ofValue "@x" (.int32 1))
    let range : Filter := .between false "b" "@y" (some ⟨.int32, (2 : Int32)⟩) "@x"
      (some ⟨.int32, (3 : Int32)⟩)
    let late : Filter := .compare "c" .less "@x" (some ⟨.int32, (4 : Int32)⟩)
    let taken := ((empty.addFilters []).addFilter f).state
    empty.Reachable ∧ f.predicate? = some p ∧
      taken.expressions.toList = (empty.addFilters []).expressions.toList ++ [p.text] ∧
      Param.ofValue "@x" (.int32 1) ∈ p.params ∧
      (taken.addFilters [range, late]).param? "@x" = some (.ofValue "@x" (.int32 3)) := by
  intro f p range late taken
  have hreach : empty.Reachable := ⟨[.create .empty], .clause 0, rfl⟩
  have hq : Param.ofValue "@x" (.int32 1) ∈ p.params := List.mem_singleton.mpr rfl
  have happended : taken.expressions.toList = (empty.addFilters []).expressions.toList ++ [p.text] :=
    rfl
  have hbound : (taken.addFilters [range, late]).param? "@x" = _ :=
    (placeholder_bound_to_latest (f := f) hreach rfl happended hq).1
  exact ⟨hreach, rfl, happended, hq, hbound⟩

/-- The upper end of a later range takes the name of a comparison, whose own key keeps nobody from
doing so. -/
theorem later_range_rebinds_placeholder :
    let f : Filter := .compare "a" .equal "@x" (some ⟨.int32, (1 : Int32)⟩)
    let g : Filter := .between false "b" "@y" (some ⟨.int32, (2 : Int32)⟩) "@x"
      (some ⟨.int32, (3 : Int32)⟩)
    (empty.addFilters [f]).expressions.toList = ["a = @x"] ∧
      (empty.addFilters [f]).param? "@x" = some (.ofValue "@x" (.int32 1)) ∧
      (empty.addFilters [f, g]).expressions.toList = ["a = @x", "b between @y and @x"] ∧
      (empty.addFilters [f, g]).param? "@x" = some (.ofValue "@x" (.int32 3)) ∧
      Param.ofValue "@x" (.int32 1) ≠ Param.ofValue "@x" (.int32 3) := by
  refine ⟨rfl, rfl, rfl, rfl, fun h => ?_⟩
  cases h

end SqlCompose.Clause
