import SqlCompose.Proofs.Clause.Fresh
import SqlCompose.Proofs.Like.Matching

/-!
Filters by a text in a column: the pattern that is bound, and the texts that it selects.
-/
namespace SqlCompose.Clause

open Like

variable {c : Clause} {negated : Bool} {anchor : Anchor} {column name v : String}

/-- The parameter that binds the pattern of a value. -/
def patternParam (anchor : Anchor) (name v : String) : Param :=
  .ofValue name (.text (.ofList (anchor.pattern v.toList)))

/-- The condition that a filter by a text asks for, if there is a text. -/
theorem predicate?_pattern (negated : Bool) (anchor : Anchor) (column name : String) (hv : v ≠ "") :
    (Filter.pattern negated anchor column name (some v)).predicate? =
      some (.compare column (if negated then .notLike else .like) (patternParam anchor name v)) := by
  simp [Filter.predicate?, Option.filter, hv]
  rfl

theorem supplied_pattern (negated : Bool) (anchor : Anchor) (column name : String) (hv : v ≠ "") :
    (Filter.pattern negated anchor column name (some v)).supplied = [patternParam anchor name v] :=
  Filter.supplied_of_predicate? (predicate?_pattern negated anchor column name hv)

theorem text_pattern (negated : Bool) (anchor : Anchor) (column name v : String) :
    (Predicate.compare column (if negated then .notLike else .like)
        (patternParam anchor name v)).text =
      column ++ (if negated then " not like " else " like ") ++ name := by
  cases negated <;>
    simp [Predicate.text, Comparison.symbol, patternParam, Param.ofValue, String.append_assoc]

/-- What a filter by a text adds, if there is a text and the name is given and new. -/
theorem addFilter_pattern (hname : name ≠ "") (hkey : c.containsExpression name = false)
    (hv : v ≠ "") :
    (c.addFilter (.pattern negated anchor column name (some v))).fault = none ∧
      (c.addFilter (.pattern negated anchor column name (some v))).state =
        c.withPredicate (.compare column (if negated then .notLike else .like)
          (patternParam anchor name v)) := by
  refine addFilter_of_new (predicate?_pattern negated anchor column name hv) ?_ hkey
  rw [supplied_pattern negated anchor column name hv]
  intro q hq
  obtain rfl : q = patternParam anchor name v := List.mem_singleton.mp hq
  exact hname

/-- The name is bound to the pattern then, whatever it was bound to before. -/
theorem param?_addFilter_pattern (hc : c.Reachable) (hname : name ≠ "")
    (hkey : c.containsExpression name = false) (hv : v ≠ "") :
    (c.addFilter (.pattern negated anchor column name (some v))).state.param? name =
      some (patternParam anchor name v) := by
  have hwell : c.params.WellKeyed := (invariant_wellFormed.reachable hc).bound.wellKeyed
  rw [(addFilter_pattern hname hkey hv).2, param?, withPredicate, Predicate.params,
    KeyedSeq.insertAll_cons, KeyedSeq.insertAll_nil, KeyedSeq.find?_insert hwell]
  simp [patternParam, Param.ofValue]

/-- Without a backslash in it a value is literal, but for its underscores: its pattern stands for
the texts with the same characters and any one in the place of each underscore, so for the value
alone if there is none. And the pattern bound by a filter for the start of a text stands for the
texts that begin that way, so for those that begin with the value. -/
theorem escaped_value_is_literal :
    (∀ v s : List Char, '\\' ∉ v →
      (Matches (escape v) s ↔ Resembles v s) ∧ ('_' ∉ v → (Matches (escape v) s ↔ s = v))) ∧
    ∀ (c : Clause) (column name v : String), c.Reachable → name ≠ "" →
      c.containsExpression name = false → v ≠ "" → '\\' ∉ v.toList →
        let d := (c.addFilter (.pattern false .atStart column name (some v))).state
        d.expressions.toList = c.expressions.toList ++ [column ++ " like " ++ name] ∧
          ∃ pattern : String, d.param? name = some (.ofValue name (.text pattern)) ∧
            ∀ s : String,
              (Matches pattern.toList s.toList ↔ ∃ t, t <+: s.toList ∧ Resembles v.toList t) ∧
                ('_' ∉ v.toList → (Matches pattern.toList s.toList ↔ v.toList <+: s.toList)) := by
  constructor
  · intro v s hv
    refine ⟨matches_escape hv, fun hone => ?_⟩
    rw [matches_escape hv, resembles_iff_eq hone]
  · intro c column name v hc hname hkey hvalue hv d
    have hadded : d = _ := (addFilter_pattern hname hkey hvalue).2
    have hbound : d.param? name = some (patternParam .atStart name v) :=
      param?_addFilter_pattern hc hname hkey hvalue
    have hpattern : ∀ s : List Char,
        Matches (String.ofList (Anchor.atStart.pattern v.toList)).toList s ↔
          ∃ t, t <+: s ∧ Resembles v.toList t := by
      intro s
      rw [String.toList_ofList, matches_pattern_atStart hv]
    refine ⟨?_, _, hbound, fun s => ⟨hpattern s.toList, fun hone => ?_⟩⟩
    · have hword : " " ++ "like" ++ " " = " like " := by decide
      rw [hadded, toList_withPredicate hkey, ← hword]
      simp [Predicate.text, Comparison.symbol, patternParam, Param.ofValue, String.append_assoc]
    · rw [hpattern]
      simp [resembles_iff_eq hone]

/-- A percent sign at the end of a value, next to the one that stands for the rest of the text, and
an underscore in a value. -/
theorem escaped_value_is_literal_percentage :
    let c := whereList .and
    let rate := (c.addFilter (.pattern false .atStart "rate" "@rate" (some "50%"))).state
    let file := (c.addFilter (.pattern false .atStart "file" "@file" (some "a_"))).state
    c.Reachable ∧ c.containsExpression "@rate" = false ∧ c.containsExpression "@file" = false ∧
      '\\' ∉ ("50%").toList ∧ '_' ∉ ("50%").toList ∧ '\\' ∉ ("a_").toList ∧
      (∀ s, Matches (escape ("50%").toList) s ↔ s = ("50%").toList) ∧
      (∃ pattern : String, rate.param? "@rate" = some (.ofValue "@rate" (.text pattern)) ∧
        Matches pattern.toList ("50% off").toList ∧ ¬ Matches pattern.toList ("500").toList) ∧
      ∃ pattern : String, file.param? "@file" = some (.ofValue "@file" (.text pattern)) ∧
        Matches pattern.toList ("ab.txt").toList := by
  intro c rate file
  have hreach : c.Reachable := ⟨[.create (.whereList .and)], .clause 0, rfl⟩
  have hrate : '\\' ∉ ("50%").toList := by decide
  have hone : '_' ∉ ("50%").toList := by decide
  have hfile : '\\' ∉ ("a_").toList := by decide
  refine ⟨hreach, rfl, rfl, hrate, hone, hfile, fun s => ?_, ?_, ?_⟩
  · exact (escaped_value_is_literal.1 _ s hrate).2 hone
  · obtain ⟨-, pattern, hbound, hmatches⟩ := escaped_value_is_literal.2 c "rate" "@rate" "50%"
      hreach (by decide) rfl (by decide) hrate
    refine ⟨pattern, hbound, ((hmatches _).2 hone).mpr (by decide), fun h => ?_⟩
    exact absurd (((hmatches _).2 hone).mp h) (by decide)
  · obtain ⟨-, pattern, hbound, hmatches⟩ := escaped_value_is_literal.2 c "file" "@file" "a_"
      hreach (by decide) rfl (by decide) hfile
    refine ⟨pattern, hbound, (hmatches _).1.mpr ⟨['a', 'b'], by decide, ?_⟩⟩
    exact .cons (.inr rfl) (.cons (.inl rfl) .nil)

/-- An underscore that is sought stands for any character, and a percent sign with a backslash in
front of it for any text. -/
theorem underscore_and_backslash_stay_special :
    ¬ (Matches (escape ['_']) ['a'] ↔ ['a'] = ['_']) ∧
      ¬ (Matches (escape ['\\', '%']) ['\\', 'x'] ↔ ['\\', 'x'] = ['\\', '%']) ∧
      ∃ pattern : String,
        ((whereList .and).addFilter (.pattern false .atStart "file" "@file" (some "_"))).state.param?
            "@file" = some (.ofValue "@file" (.text pattern)) ∧
          Matches pattern.toList ['a'] ∧ ¬ ['_'] <+: ['a'] := by
  have hone : Matches (escape ['_']) ['a'] := .anyOne .nil
  have hmany : Matches (escape ['\\', '%']) ['\\', 'x'] := .escaped (.anyText ['x'] .nil)
  refine ⟨fun h => absurd (h.mp hone) (by decide), fun h => absurd (h.mp hmany) (by decide), ?_⟩
  exact ⟨_, rfl, .anyOne (.anyText [] .nil), by decide⟩

theorem freshFor_pattern (negated : Bool) (anchor : Anchor) (column : String) (h : c.Lacks name)
    (hv : v ≠ "") : c.FreshFor [.pattern negated anchor column name (some v)] := by
  have hsupplied := supplied_pattern negated anchor column name hv
  refine .of_lacks rfl ?_ ?_
  · rw [hsupplied]
    exact List.nodup_singleton _
  · rw [hsupplied]
    intro q hq
    obtain rfl : q = patternParam anchor name v := List.mem_singleton.mp hq
    exact h

theorem addFilter_pattern_of_lacks (hc : c.Reachable) (hname : c.Lacks name) (hv : v ≠ "")
    (negated : Bool) (anchor : Anchor) (column : String) :
    let o := c.addFilter (.pattern negated anchor column name (some v))
    o.fault = none ∧
      o.state.expressions.toList = c.expressions.toList ++
        [column ++ (if negated then " not like " else " like ") ++ name] ∧
      o.state.paramList = c.paramList ++ [patternParam anchor name v] ∧
      o.state.param? name = some (patternParam anchor name v) := by
  intro o
  have hpredicate := predicate?_pattern negated anchor column name hv
  have hfresh := freshFor_pattern negated anchor column hname hv
  obtain ⟨hfault, htexts, hparams⟩ := hfresh.addFilter hpredicate
  rw [text_pattern] at htexts
  rw [supplied_pattern negated anchor column name hv] at hparams
  have hkey : c.containsExpression name = false := by simpa using hname.not_key
  exact ⟨hfault, htexts, hparams, param?_addFilter_pattern hc hname.ne_empty hkey hv⟩

/-- A filter for the texts that have a value at the start, at the end or anywhere and the filter for the
other texts bind the same pattern, the one under `like` and the other under `not like`. Without an
underscore and without a backslash in the value that pattern stands for the texts that have the value at
the place, whatever percent signs the value has. -/
theorem pattern_selects_what_has_value (hc : c.Reachable) (hname : c.Lacks name) (hvalue : v ≠ "")
    (hone : '_' ∉ v.toList) (hescape : '\\' ∉ v.toList) (anchor : Anchor) (column : String) :
    let found := c.addFilter (.pattern false anchor column name (some v))
    let others := c.addFilter (.pattern true anchor column name (some v))
    found.fault = none ∧ others.fault = none ∧
      found.state.expressions.toList = c.expressions.toList ++ [column ++ " like " ++ name] ∧
      others.state.expressions.toList = c.expressions.toList ++ [column ++ " not like " ++ name] ∧
      ∃ pattern : String,
        let p := Param.ofValue name (.text pattern)
        found.state.paramList = c.paramList ++ [p] ∧ found.state.param? name = some p ∧
          others.state.paramList = c.paramList ++ [p] ∧ others.state.param? name = some p ∧
          ∀ s : String, Matches pattern.toList s.toList ↔ anchor.Finds v.toList s.toList := by
  intro found others
  obtain ⟨hfound, hlike, hfoundParams, hfoundBound⟩ :=
    addFilter_pattern_of_lacks hc hname hvalue false anchor column
  obtain ⟨hothers, hnotLike, hothersParams, hothersBound⟩ :=
    addFilter_pattern_of_lacks hc hname hvalue true anchor column
  refine ⟨hfound, hothers, hlike, hnotLike, .ofList (anchor.pattern v.toList), hfoundParams,
    hfoundBound, hothersParams, hothersBound, fun s => ?_⟩
  rw [String.toList_ofList, matches_pattern_iff_finds hescape hone]

/-- Percent signs at both ends of what is sought, next to those that stand for the rest of the text. -/
theorem pattern_selects_what_has_value_discounts :
    let c := whereList .and
    c.Reachable ∧ c.Lacks "@rate" ∧ "%50%" ≠ "" ∧ '_' ∉ ("%50%").toList ∧ '\\' ∉ ("%50%").toList ∧
      (c.addFilter (.pattern true .anywhere "rate" "@rate" (some "%50%"))).state.expressions.toList =
        ["rate not like @rate"] ∧
      (∃ pattern : String,
        (c.addFilter (.pattern true .anywhere "rate" "@rate" (some "%50%"))).state.param? "@rate" =
            some (.ofValue "@rate" (.text pattern)) ∧
          Matches pattern.toList ("a %50% b").toList ∧ ¬ Matches pattern.toList ("a 50 b").toList) ∧
      ∃ pattern : String,
        (c.addFilter (.pattern false .atEnd "rate" "@rate" (some "%50%"))).state.param? "@rate" =
            some (.ofValue "@rate" (.text pattern)) ∧
          Matches pattern.toList ("a %50%").toList ∧
          ¬ Matches pattern.toList ("a %50% b").toList := by
  intro c
  have hreach : c.Reachable := ⟨[.create (.whereList .and)], .clause 0, rfl⟩
  have hname : c.Lacks "@rate" := ⟨by decide, by decide, by decide⟩
  have hvalue : "%50%" ≠ "" := by decide
  have hone : '_' ∉ ("%50%").toList := by decide
  have hescape : '\\' ∉ ("%50%").toList := by decide
  obtain ⟨-, -, -, hnotLike, pattern, -, -, -, hbound, hmatches⟩ :=
    pattern_selects_what_has_value hreach hname hvalue hone hescape .anywhere "rate"
  obtain ⟨-, -, -, -, ending, -, hending, -, -, hends⟩ :=
    pattern_selects_what_has_value hreach hname hvalue hone hescape .atEnd "rate"
  refine ⟨hreach, hname, hvalue, hone, hescape, hnotLike, ⟨pattern, hbound, ?_, fun h => ?_⟩,
    ⟨ending, hending, ?_, fun h => ?_⟩⟩
  · exact (hmatches "a %50% b").mpr ⟨['a', ' '], [' ', 'b'], by decide⟩
  · have hinfix : ("%50%").toList <:+: ("a 50 b").toList := (hmatches "a 50 b").mp h
    exact absurd hinfix (by decide)
  · exact (hends "a %50%").mpr ⟨['a', ' '], by decide⟩
  · have hsuffix : ("%50%").toList <:+ ("a %50% b").toList := (hends "a %50% b").mp h
    exact absurd hsuffix (by decide)

end SqlCompose.Clause
