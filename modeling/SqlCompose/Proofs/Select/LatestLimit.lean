import SqlCompose.Proofs.Select.Joining

/-!
A limit replaces the one before it in the head of the select list, whatever else stands there and
whatever the names contain.
-/
namespace SqlCompose.Select

variable {t u w : Select} {op : Op} {ops : List Op}

/-- The head of the select list. -/
def head (t : Select) : String := t.selectList.format.head

/-- The limit that an operation sets. One without a value is none, and one without a name is refused.
-/
def Op.limit? : Op → Option Param
  | .top (some v) name => if name = "" then none else some (v.toParam name)
  | _ => none

/-- The limit that is set last in a run. -/
def latestLimit? (ops : List Op) : Option Param := (ops.filterMap Op.limit?).getLast?

theorem head_top (t : Select) (v : Typed) {name : String} (h : name ≠ "") :
    (t.top (some v) name).state.head = limitedHead t.head name := by
  rw [state_top_of_ne t v h]
  rfl

/-- A statement that differs from another in the head and the parameters of its select list at most. -/
def LimitOf (t u : Select) : Prop :=
  ∃ params head, u = { t with
    selectList := { t.selectList with
      params, format := t.selectList.format.set (.text .head head) } }

theorem LimitOf.refl (t : Select) : LimitOf t t := ⟨t.selectList.params, t.head, rfl⟩

theorem LimitOf.trans (h : LimitOf t u) (h' : LimitOf u w) : LimitOf t w := by
  obtain ⟨_, _, rfl⟩ := h
  obtain ⟨params, head, rfl⟩ := h'
  exact ⟨params, head, rfl⟩

theorem limitOf_top (t : Select) (value : Option Typed) (name : String) :
    LimitOf t (t.top value name).state := by
  cases value with
  | none => exact .refl t
  | some v =>
    rw [state_top]
    split
    · exact .refl t
    · exact ⟨_, _, rfl⟩

theorem head_apply (t : Select) (hplain : op.redecorates .selectList = false) :
    (t.apply op).state.head = op.limit?.elim t.head fun p => limitedHead t.head p.name := by
  cases op with
  | edit p o =>
    cases p with
    | selectList =>
      have hformat : ((t.selectList.apply o).state).format = t.selectList.format :=
        Clause.format_apply_of_not_decorates (decorates_of_redecorates hplain)
      exact congrArg Format.head hformat
    | _ => rfl
  | openPart p => cases p <;> rfl
  | top value name =>
    cases value with
    | none => rfl
    | some v =>
      by_cases hname : name = ""
      · simp [apply, state_top, Op.limit?, hname]
      · rw [apply, head_top t v hname, Op.limit?, if_neg hname]
        rfl
  | whereJoiner j => rfl
  | havingJoiner j => rfl
  | build =>
    have hstate : (t.apply .build).state = t.withColumns := rfl
    rw [hstate, withColumns]
    split
    · exact congrArg Format.head (Clause.format_add t.selectList "*")
    · rfl

/-- What a run makes of the head depends on its last limit only. -/
theorem head_run (t : Select) (hplain : ∀ op ∈ ops, op.redecorates .selectList = false) :
    (t.run ops).head = (latestLimit? ops).elim t.head fun p => limitedHead t.head p.name := by
  induction ops generalizing t with
  | nil => rfl
  | cons op ops ih =>
    rw [List.forall_mem_cons] at hplain
    rw [run_cons, ih _ hplain.2, head_apply t hplain.1, latestLimit?, latestLimit?]
    cases hop : op.limit? with
    | none =>
      rw [List.filterMap_cons_none hop]
      rfl
    | some p =>
      rw [List.filterMap_cons_some hop, List.getLast?_cons]
      cases (ops.filterMap Op.limit?).getLast? with
      | none => rfl
      | some q => exact limitedHead_limitedHead t.head p.name q.name

theorem limitOf_run (t : Select) (hops : ∀ op ∈ ops, ∃ value name, op = .top value name) :
    LimitOf t (t.run ops) := by
  induction ops generalizing t with
  | nil => exact .refl t
  | cons op ops ih =>
    rw [List.forall_mem_cons] at hops
    obtain ⟨⟨value, name, rfl⟩, hrest⟩ := hops
    exact (limitOf_top t value name).trans (ih _ hrest)

/-- Whatever the head is, a limit is put behind what stands in front of the first limit in it, the
blanks at its end left out. A second limit has the effect on the head that it has alone, and so has the
last limit of a run that does not decorate the select list by hand. Limits change the head and the
parameters of the select list, and nothing besides. -/
theorem latest_limit_replaces (t : Select) :
    ∃ body keyword : String,
      Text.Trimmed body.toList t.head.toList ∧
      Text.Front limitMarker.toList keyword.toList body.toList ∧
      (∀ (v : Typed) (n : String), n ≠ "" → (t.top (some v) n).fault = none ∧
        (t.top (some v) n).state.head = keyword ++ limitMarker ++ n ++ ")\n") ∧
      (∀ (v₁ v₂ : Typed) (n₁ n₂ : String), n₁ ≠ "" → n₂ ≠ "" →
        ((t.top (some v₁) n₁).state.top (some v₂) n₂).state.head =
          (t.top (some v₂) n₂).state.head) ∧
      (∀ ops, (∀ op ∈ ops, op.redecorates .selectList = false) →
        ∀ p, latestLimit? ops = some p →
          (t.run ops).head = keyword ++ limitMarker ++ p.name ++ ")\n") ∧
      ∀ ops, (∀ op ∈ ops, ∃ value n, op = .top value n) → LimitOf t (t.run ops) := by
  refine ⟨.ofList (Text.trimEnd t.head.toList), keyword t.head, ?_, ?_, ?_, ?_, ?_, ?_⟩
  · rw [String.toList_ofList]
    exact Text.trimmed_trimEnd _
  · rw [String.toList_ofList]
    exact front_keyword t.head
  · intro v n hn
    exact ⟨fault_top_of_ne t v hn, (head_top t v hn).trans (limitedHead_eq t.head n)⟩
  · intro v₁ v₂ n₁ n₂ h₁ h₂
    rw [head_top _ v₂ h₂, head_top t v₁ h₁, head_top t v₂ h₂, limitedHead_limitedHead]
  · intro ops hplain p hp
    rw [head_run t hplain, hp]
    exact limitedHead_eq t.head p.name
  · intro ops hops
    exact limitOf_run t hops

/-- A head that was written by hand, with a limit and a blank that is not of ASCII, and a name that looks
like a limit itself. -/
theorem latest_limit_replaces_distinct :
    let t := ((ofTable "people").edit .selectList
      (.decorate (.text .head "select distinct top(5)\u2003\n"))).state
    let ten : Typed := ⟨.int64, (10 : Int64)⟩
    let twenty : Typed := ⟨.int64, (20 : Int64)⟩
    let ops : List Op :=
      [.top (some ten) "@a) top(@b ", .edit .selectList (.add "name"), .top (some twenty) "@n",
        .top none "@m", .build]
    (∀ op ∈ ops, op.redecorates .selectList = false) ∧
      (t.top (some ten) "@a) top(@b ").fault = none ∧
      (t.top (some ten) "@a) top(@b ").state.head = "select distinct top(@a) top(@b )\n" ∧
      ((t.top (some ten) "@a) top(@b ").state.top (some twenty) "@n").state.head =
        "select distinct top(@n)\n" ∧
      (t.run ops).head = "select distinct top(@n)\n" ∧
      LimitOf t (t.run [.top (some ten) "@a) top(@b ", .top (some twenty) "@n"]) := by
  intro t ten twenty ops
  have hplain : ∀ op ∈ ops, op.redecorates .selectList = false := by decide
  have halone : (t.top (some twenty) "@n").state.head = "select distinct top(@n)\n" := by decide
  obtain ⟨body, keyword, -, -, hlimit, htwice, hrun, hframe⟩ := latest_limit_replaces t
  obtain ⟨hfault, -⟩ := hlimit ten "@a) top(@b " (by decide)
  refine ⟨hplain, hfault, by decide, ?_, ?_, ?_⟩
  · rw [htwice ten twenty "@a) top(@b " "@n" (by decide) (by decide), halone]
  · rw [hrun ops hplain (twenty.toParam "@n") rfl, ← halone]
    exact (hlimit twenty "@n" (by decide)).2.symm
  · exact hframe _ (by simp)

end SqlCompose.Select
