import SqlCompose.Proofs.Clause.WellFormed
import SqlCompose.Proofs.KeyedSeq.Surplus
import SqlCompose.Proofs.Select.Building
import SqlCompose.Proofs.Select.Limit

/-!
What is left of a limit that another one has replaced: its name is gone from the text, but its
parameter is still bound.
-/
namespace SqlCompose

theorem Format.set_text_set_text (f : Format) (field : TextField) (s s' : String) :
    (f.set (.text field s)).set (.text field s') = f.set (.text field s') := by
  cases field <;> rfl

/-- A second limit takes the place of the first in the head, and its parameter is bound as well. -/
theorem Clause.limited_limited (c : Clause) (p q : Param) :
    (c.limited p).limited q =
      { c.limited q with params := (c.params.insert p.name p true).insert q.name q true } := by
  have hhead : Select.limitedHead (c.limited p).format.head q.name =
      Select.limitedHead c.format.head q.name :=
    Select.limitedHead_limitedHead c.format.head p.name q.name
  have hformat : ((c.limited p).limited q).format = (c.limited q).format := by
    rw [limited, hhead]
    exact c.format.set_text_set_text .head _ _
  exact Clause.ext rfl rfl hformat

/-- The parameter of a limit is bound behind the others if its name is new. -/
theorem Clause.paramList_limited {c : Clause} {p : Param} (h : c.containsParam p.name = false) :
    (c.limited p).paramList = c.paramList ++ [p] :=
  congrArg KeyedSeq.toList (KeyedSeq.insert_absent (KeyedSeq.indexOf?_eq_none_iff.mpr h) p true)

theorem Clause.containsParam_limited_of_ne {c : Clause} {p : Param} {n : String} (h : n ≠ p.name) :
    (c.limited p).containsParam n = c.containsParam n :=
  congrArg Option.isSome (KeyedSeq.indexOf?_insert_of_ne h c.params p true)

namespace Select

variable {t : Select} {p q : Param} {n : String}

/-- The limit goes with the columns, be they listed or not. -/
theorem columnList_limited (t : Select) (p : Param) :
    (t.limited p).columnList = t.columnList.limited p := by
  have hlisted : (t.limited p).selectList.expressions = t.selectList.expressions := rfl
  rw [columnList, columnList, hlisted]
  by_cases h : t.selectList.expressions.toList = []
  · rw [if_pos h, if_pos h]
    rfl
  · rw [if_neg h, if_neg h]
    rfl

theorem sections_limited (t : Select) (p : Param) :
    (t.limited p).sections = t.columnList.limited p :: t.sections.tail := by
  rw [← columnList_limited]
  rfl

theorem params_columnList (t : Select) : t.columnList.params = t.selectList.params := by
  rw [columnList]
  split <;> rfl

/-- What stands behind the columns exists as it is. -/
theorem parts_eq_cons (t : Select) : t.parts = t.selectList :: t.sections.tail := by
  obtain ⟨selectList, fromTable, whereList, groupByList, havingList, orderByList, _, _⟩ := t
  cases whereList <;> cases groupByList <;> cases havingList <;> cases orderByList <;> rfl

/-- The parameters that a statement hands over are those of the parts. -/
theorem flatMap_paramList_sections (t : Select) :
    t.sections.flatMap Clause.paramList = t.parts.flatMap Clause.paramList := by
  have hcolumns : t.columnList.paramList = t.selectList.paramList :=
    congrArg KeyedSeq.toList t.params_columnList
  have hsections : t.sections = t.columnList :: t.sections.tail := rfl
  rw [parts_eq_cons, hsections, List.flatMap_cons, List.flatMap_cons, hcolumns]
  rfl

/-- Parts that do not bind a name hand over no parameter that carries it. -/
theorem name_ne_of_mem_sections (ht : t.Reachable) (hfree : t.All fun c => c.containsParam n = false)
    {r : Param} (hr : r ∈ t.sections.flatMap Clause.paramList) : r.name ≠ n := by
  rw [flatMap_paramList_sections] at hr
  obtain ⟨c, hc, hr⟩ := List.mem_flatMap.mp hr
  obtain ⟨part, hpart⟩ := mem_parts hc
  have hbound : c.params.KeyedBy Param.name :=
    (Clause.invariant_wellFormed.reachable (ht.part hpart)).bound
  rintro rfl
  have hcontains : c.containsParam r.name = true := hbound.containsKey_iff.mpr ⟨r, hr, rfl⟩
  rw [hfree part c hpart] at hcontains
  cases hcontains

/-- The parameters of a statement with a limit: those of the columns, the one of the limit, and those of
the other parts merged into them. -/
theorem params_built_limited (t : Select) (p : Param) :
    (t.limited p).build.value.1.params =
      ((∅ : KeyedSeq String Param).insertAll Param.name (t.columnList.limited p).paramList).insertAll
        Param.name (t.sections.tail.flatMap Clause.paramList) := by
  rw [value_build, Clause.params_statement, sections_limited, List.flatMap_cons,
    KeyedSeq.insertAll_append]

/-- With another limit before it a limit leaves one parameter more to the statement. -/
theorem hasMore_built_limited (ht : t.Reachable)
    (hp : t.All fun c => c.containsParam p.name = false)
    (hq : t.All fun c => c.containsParam q.name = false) (hne : q.name ≠ p.name) :
    KeyedSeq.HasMore Param.name p (t.limited q).build.value.1.params
      ((t.limited p).limited q).build.value.1.params := by
  have hcontains : ∀ n, t.columnList.containsParam n = t.selectList.containsParam n :=
    fun n => congrArg (KeyedSeq.containsKey · n) t.params_columnList
  have hpc : t.columnList.containsParam p.name = false := (hcontains _).trans (hp .selectList _ rfl)
  have hqc : t.columnList.containsParam q.name = false := (hcontains _).trans (hq .selectList _ rfl)
  have hqp : (t.columnList.limited p).containsParam q.name = false :=
    (Clause.containsParam_limited_of_ne hne).trans hqc
  have hhanded : ∀ r ∈ t.columnList.paramList ++ t.sections.tail.flatMap Clause.paramList,
      r.name ≠ p.name := fun r hr => name_ne_of_mem_sections ht hp hr
  rw [List.forall_mem_append] at hhanded
  obtain ⟨hcolumns, hothers⟩ := hhanded
  have hnew : ((∅ : KeyedSeq String Param).insertAll Param.name t.columnList.paramList).containsKey
      p.name = false := by
    rw [Bool.eq_false_iff, ne_eq, KeyedSeq.containsKey_insertAll_empty, List.mem_map]
    rintro ⟨r, hr, hname⟩
    exact hcolumns r hr hname
  -- the columns alone, with the first limit, with the second limit too, and with all other parts
  have hstart := KeyedSeq.HasMore.of_insert (KeyedSeq.keyedBy_insertAll_empty Param.name _) hnew
  have hrest : (t.limited p).sections.tail = t.sections.tail := rfl
  rw [params_built_limited, params_built_limited, columnList_limited, hrest,
    Clause.paramList_limited hqc, Clause.paramList_limited hqp, Clause.paramList_limited hpc,
    KeyedSeq.insertAll_append, KeyedSeq.insertAll_append, KeyedSeq.insertAll_append]
  exact (hstart.insert hne).insertAll hothers

/-- A second limit changes what is shown as it does alone. -/
theorem sql_built_limited_limited (t : Select) (p q : Param) :
    ((t.limited p).limited q).build.value.1.sql = (t.limited q).build.value.1.sql ∧
      ((t.limited p).limited q).build.value.1.expressions.toList =
        (t.limited q).build.value.1.expressions.toList := by
  have hcolumns : ((t.columnList.limited p).limited q).sql = (t.columnList.limited q).sql := by
    rw [Clause.limited_limited]
    rfl
  have htexts : ((t.limited p).limited q).sections.map Clause.sql =
      (t.limited q).sections.map Clause.sql := by
    rw [sections_limited t q, sections_limited, columnList_limited, List.map_cons, List.map_cons,
      hcolumns]
    rfl
  constructor
  · rw [value_build, value_build, Clause.sql_statement, Clause.sql_statement, htexts]
  · rw [value_build, value_build, Clause.toList_statement, Clause.toList_statement, htexts]

/-- A second limit under the same name leaves nothing of the first. -/
theorem limited_limited_of_name_eq (t : Select) (h : p.name = q.name) :
    (t.limited p).limited q = t.limited q := by
  have hlist : (t.selectList.limited p).limited q = t.selectList.limited q := by
    rw [Clause.limited_limited, h, KeyedSeq.insert_insert_self]
    rfl
  exact congrArg (fun c => { t with selectList := c }) hlist

/-- Of two limits the first is gone from what is built, apart from its parameter: the text is the one
that the second limit gives alone, but the first name stays bound unless the second limit has the same
name. -/
theorem replaced_limit_stays_bound (ht : t.Reachable) (v₁ v₂ : Typed) {n₁ n₂ : String}
    (h₁ : n₁ ≠ "") (h₂ : n₂ ≠ "")
    (hfree : t.All fun c => c.containsParam n₁ = false ∧ c.containsParam n₂ = false) :
    let first := t.top (some v₁) n₁
    let second := first.state.top (some v₂) n₂
    let alone := t.top (some v₂) n₂
    let both := second.state.build.value.1
    let one := alone.state.build.value.1
    first.fault = none ∧ second.fault = none ∧ alone.fault = none ∧
      both.sql = one.sql ∧ both.expressions.toList = one.expressions.toList ∧
      (both.paramList = one.paramList ↔ n₁ = n₂) ∧
      (n₁ ≠ n₂ →
        both.param? n₁ = some (v₁.toParam n₁) ∧ one.param? n₁ = none ∧
          ∃ before after, one.paramList = before ++ after ∧
            both.paramList = before ++ v₁.toParam n₁ :: after) := by
  intro first second alone both one
  have hboth : both = ((t.limited (v₁.toParam n₁)).limited (v₂.toParam n₂)).build.value.1 := by
    simp only [both, second, first, state_top_of_ne _ _ h₁, state_top_of_ne _ _ h₂]
  have hone : one = (t.limited (v₂.toParam n₂)).build.value.1 := by
    simp only [one, alone, state_top_of_ne _ _ h₂]
  obtain ⟨hsql, hexpressions⟩ :=
    t.sql_built_limited_limited (v₁.toParam n₁) (v₂.toParam n₂)
  have hmore : n₁ ≠ n₂ → KeyedSeq.HasMore Param.name (v₁.toParam n₁) one.params both.params := by
    intro hne
    rw [hboth, hone]
    exact hasMore_built_limited ht (fun p c hp => (hfree p c hp).1)
      (fun p c hp => (hfree p c hp).2) (Ne.symm hne)
  refine ⟨fault_top_of_ne t v₁ h₁, fault_top_of_ne first.state v₂ h₂, fault_top_of_ne t v₂ h₂,
    hboth ▸ hone ▸ hsql, hboth ▸ hone ▸ hexpressions, ?_, ?_⟩
  · constructor
    · intro hparams
      by_contra hne
      exact (hmore hne).toList_ne hparams
    · rintro rfl
      rw [hboth, hone, limited_limited_of_name_eq]
      rfl
  · intro hne
    exact ⟨(hmore hne).find?_eq.1, (hmore hne).find?_eq.2, (hmore hne).toList⟩

/-- Two limits on the adult users, and the second one alone. -/
theorem replaced_limit_stays_bound_adults :
    let t := ((ofTable "Users").edit .whereList
      (.addFilter (.compare "age" .greater "@age" (some ⟨.int32, (18 : Int32)⟩)))).state
    let ten : Typed := ⟨.int64, (10 : Int64)⟩
    let twenty : Typed := ⟨.int64, (20 : Int64)⟩
    let both := ((t.top (some ten) "@a").state.top (some twenty) "@b").state.build.value.1
    let one := (t.top (some twenty) "@b").state.build.value.1
    t.Reachable ∧ t.All (fun c => c.containsParam "@a" = false ∧ c.containsParam "@b" = false) ∧
      both.sql = one.sql ∧ both.param? "@a" = some (ten.toParam "@a") ∧ one.param? "@a" = none ∧
      both.paramList ≠ one.paramList ∧ one.paramList.map Param.name = ["@b", "@age"] := by
  intro t ten twenty both one
  have hreach : t.Reachable :=
    ⟨[.createSelect "Users", .changeSelect 0 (.edit .whereList
      (.addFilter (.compare "age" .greater "@age" (some ⟨.int32, (18 : Int32)⟩))))], 0, rfl⟩
  have hfree : t.All fun c => c.containsParam "@a" = false ∧ c.containsParam "@b" = false := by
    intro part c hc
    cases part <;> cases hc <;> decide
  obtain ⟨-, -, -, hsql, -, hparams, hleft⟩ :=
    replaced_limit_stays_bound hreach ten twenty (by decide) (by decide) hfree
  obtain ⟨hboth, hone, -⟩ := hleft (by decide)
  exact ⟨hreach, hfree, hsql, hboth, hone, mt hparams.mp (by decide), by decide⟩

/-- The statement binds a name that neither its text nor any part of it mentions. -/
theorem replaced_limit_left_over :
    let t := ofTable "Users"
    let both := ((t.top (some ⟨.int64, (10 : Int64)⟩) "@a").state.top
      (some ⟨.int64, (20 : Int64)⟩) "@b").state.build.value.1
    let one := (t.top (some ⟨.int64, (20 : Int64)⟩) "@b").state.build.value.1
    (∀ c ∈ t.parts, ∀ n ∈ ["@a", "@b"],
        c.containsParam n = false ∧ ¬ n.toList <:+: c.sql.toList) ∧
      both.sql = "select top(@b)\n\t*\nfrom\n\tUsers\n" ∧ one.sql = both.sql ∧
      both.paramList.map Param.name = ["@a", "@b"] ∧ one.paramList.map Param.name = ["@b"] ∧
      ¬ ("@a").toList <:+: both.sql.toList := by
  decide

end Select

end SqlCompose
