import SqlCompose.Proofs.Clause.Balanced
import SqlCompose.Proofs.Select.Limit

/-!
Programs whose texts have their parentheses in balance, and whose clauses then have so as well, to
any depth.
-/
namespace SqlCompose

namespace Select

variable {t : Select} {c : Clause}

/-- The texts given to an operation that may come to stand in the text of a clause. -/
def Op.texts {ρ : Type} : Op ρ → List String
  | .edit _ op => op.texts
  | .top _ name => [name]
  | _ => []

/-- Whether an operation chooses a decoration by hand. -/
def Op.decorates {ρ : Type} : Op ρ → Bool
  | .edit _ op => op.decorates
  | _ => false

theorem Op.texts_map {ρ σ : Type} (f : ρ → σ) (op : Op ρ) : (op.map f).texts = op.texts := by
  cases op with
  | edit p op => exact op.texts_map f
  | _ => rfl

theorem Op.decorates_map {ρ σ : Type} (f : ρ → σ) (op : Op ρ) :
    (op.map f).decorates = op.decorates := by
  cases op with
  | edit p op => exact op.decorates_map f
  | _ => rfl

/-- The parts are balanced, and the head of the select list is the keyword with at most a limit behind
it, whose name is balanced. -/
structure Balanced (t : Select) : Prop where
  parts : t.All Clause.Balanced
  format : ∃ head, t.selectList.format = .columns head ∧
    (head = Format.selectList.head ∨
      ∃ name : String, head = limitHead name ∧ Text.Balanced name.toList)

theorem balanced_limitHead {name : String} (h : Text.Balanced name.toList) :
    Text.Balanced (limitHead name).toList := by
  have hopen : Text.Leads 0 1 "select top(" := by decide
  have hclose : Text.Leads 1 0 ")\n" := by decide
  exact ((hopen.append (.of_balanced h 1)).append hclose).balanced

theorem balanced_origin (t : Select) (p : Part) : (t.origin p).clause.Balanced := by
  cases p <;> exact Clause.balanced_origin rfl (fun s hs => nomatch hs)

namespace Balanced

theorem ofTable {table : String} (h : Text.Balanced table.toList) :
    (Select.ofTable table).Balanced where
  parts := .ofTable (.ofFormat Format.nested_selectList) (.ofFormat (Format.nested_fromTable h))
  format := ⟨_, rfl, .inl rfl⟩

theorem part (h : t.Balanced) (p : Part) : (t.part p).Balanced := h.parts.part (t.balanced_origin p)

theorem edit (h : t.Balanced) (p : Part) {op : Clause.Op} (hplain : op.decorates = false)
    (htexts : ∀ s ∈ op.texts, Text.Balanced s.toList) (hread : op.Reads Clause.Balanced) :
    (t.edit p op).state.Balanced where
  parts := h.parts.setPart p ((h.part p).apply hplain htexts hread)
  format := by
    cases p with
    | selectList =>
      have hformat : (t.edit .selectList op).state.selectList.format = t.selectList.format :=
        Clause.format_apply_of_not_decorates hplain
      rw [hformat]
      exact h.format
    | _ => exact h.format

theorem top (h : t.Balanced) (value : Option Typed) {name : String}
    (hname : Text.Balanced name.toList) : (t.top value name).state.Balanced := by
  cases value with
  | none => exact h
  | some v =>
    rw [state_top]
    split
    · exact h
    · obtain ⟨head, hformat, hhead⟩ := h.format
      -- the keyword alone or with a limit, the new limit takes the place behind it
      have hlimited : limitedHead t.selectList.format.head name = limitHead name := by
        rw [hformat]
        rcases hhead with rfl | ⟨old, rfl, -⟩
        · exact limitedHead_selectList name
        · exact limitedHead_limitHead old name
      have hset : (t.selectList.limited (v.toParam name)).format = .columns (limitHead name) := by
        rw [← hlimited]
        simp only [Clause.limited, hformat]
        rfl
      have hlist : (t.selectList.limited (v.toParam name)).Balanced := by
        refine ⟨(h.parts .selectList _ rfl).expressions, 0, 0, ?_⟩
        rw [hset]
        exact Format.nested_columns (balanced_limitHead hname)
      exact ⟨h.parts.setPart .selectList hlist, _, hset, .inr ⟨name, rfl, hname⟩⟩

theorem withColumns (h : t.Balanced) : t.withColumns.Balanced where
  parts := h.parts.withColumns ((h.parts .selectList _ rfl).add (by decide))
  format := by
    have hformat : t.withColumns.selectList.format = t.selectList.format := by
      unfold Select.withColumns
      split
      · exact Clause.format_add _ _
      · rfl
    rw [hformat]
    exact h.format

theorem apply (h : t.Balanced) {op : Op} (hplain : op.decorates = false)
    (htexts : ∀ s ∈ op.texts, Text.Balanced s.toList) (hread : op.Reads Clause.Balanced) :
    (t.apply op).state.Balanced := by
  cases op with
  | edit p op => exact h.edit p hplain htexts hread
  | openPart p =>
    refine ⟨h.parts.setPart p (h.part p), ?_⟩
    cases p <;> exact h.format
  | top value name => exact h.top value (htexts name (List.mem_singleton.mpr rfl))
  | whereJoiner j =>
    exact ⟨h.parts.reformatPart (fun c hc => hc.reformat (Format.nested_whereList j))
      (t.part?_setWhereJoiner j), h.format⟩
  | havingJoiner j =>
    exact ⟨h.parts.reformatPart (fun c hc => hc.reformat (Format.nested_havingList j))
      (t.part?_setHavingJoiner j), h.format⟩
  | build => exact h.withColumns

theorem built (h : t.Balanced) {op : Op} (hc : c ∈ t.built [op]) : c.Balanced :=
  h.withColumns.parts.built (fun _ => .statement) hc

end Balanced

end Select

namespace Session

/-- The texts given to a step that may come to stand in the text of a clause: tables, columns,
expressions, and the names of parameters that are mentioned. -/
def Op.texts : Op → List String
  | .create o => o.texts
  | .change _ op => op.texts
  | .createSelect table => [table]
  | .changeSelect _ op => op.texts
  | .compose _ | .copy _ | .copySelect _ => []

/-- Whether a step chooses a decoration by hand. -/
def Op.decorates : Op → Bool
  | .create o => o.decorates
  | .change _ op => op.decorates
  | .changeSelect _ op => op.decorates
  | _ => false

theorem Op.keeps_balanced {op : Op} (hplain : op.decorates = false)
    (htexts : ∀ s ∈ op.texts, Text.Balanced s.toList) :
    op.Keeps Clause.Balanced Select.Balanced := by
  cases op with
  | create o => exact Clause.balanced_origin hplain htexts
  | compose places => exact fun _ => .statement
  | copy p => trivial
  | change i op =>
    intro read hread c hc
    apply hc.apply
    · rwa [op.decorates_map]
    · rwa [op.texts_map]
    · exact op.reads_map hread
  | createSelect table => exact .ofTable (htexts table (List.mem_singleton.mpr rfl))
  | copySelect i => trivial
  | changeSelect i op =>
    intro read hread t ht
    refine ⟨?_, fun c hc => ht.built hc⟩
    apply ht.apply
    · rwa [op.decorates_map]
    · rwa [op.texts_map]
    · exact op.reads_map hread

/-- A program that is given balanced texts and chooses no decoration by hand makes clauses with
balanced texts only, at every place and after every step. -/
theorem balanced_sql_run {ops : List Op} (hplain : ∀ op ∈ ops, op.decorates = false)
    (htexts : ∀ op ∈ ops, ∀ s ∈ op.texts, Text.Balanced s.toList) (n : Nat) {p : Place} {c : Clause}
    (hc : (run (ops.take n)).clause? p = some c) : Text.Balanced c.sql.toList := by
  have hkeeps : ∀ op ∈ ops.take n, op.Keeps Clause.Balanced Select.Balanced := by
    intro op hop
    have hmem : op ∈ ops := List.mem_of_mem_take hop
    exact Op.keeps_balanced (hplain op hmem) (htexts op hmem)
  have hrun : (run (ops.take n)).Each Clause.Balanced Select.Balanced :=
    .run .empty (fun t ht => ht.parts) hkeeps
  exact (hrun.clause? (fun t ht => ht.parts) hc).sql

/-- A limit that is put twice, a list of values and a comparison in a statement that becomes the body of
a common table expression. -/
theorem balanced_sql_run_cte :
    let ops : List Op :=
      [.create (.cte "busy"), .createSelect "orders",
        .changeSelect 0 (.edit .selectList (.add "count(*)")),
        .changeSelect 0 (.edit .whereList
          (.addFilter (.member false "state" "@s" (some [⟨.int32, 1⟩, ⟨.int32, 2⟩])))),
        .changeSelect 0 (.edit .whereList
          (.addFilter (.compare "age" .greater "@age" (some ⟨.int32, 18⟩)))),
        .changeSelect 0 (.top (some ⟨.int64, 5⟩) "@top"),
        .changeSelect 0 (.top (some ⟨.int64, 10⟩) "@rows"),
        .changeSelect 0 .build, .change 0 (.addClause (.clause 1))]
    let sql := ";with busy as (\n\tselect top(@rows)\n\tcount(*)\nfrom\n\torders\n" ++
      "where\n\t(state in (@s1, @s2))\n\tand (age > @age)\n\n)\n"
    ((run (ops.take 9)).clause? (.clause 0)).map Clause.sql = some sql ∧
      Text.Balanced sql.toList := by
  intro ops sql
  have hplain : ∀ op ∈ ops, op.decorates = false := by decide
  have htexts : ∀ op ∈ ops, ∀ s ∈ op.texts, Text.Balanced s.toList := by decide
  have hsql : ((run (ops.take 9)).clause? (.clause 0)).map Clause.sql = some sql := by
    decide +kernel
  obtain ⟨c, hc, hcsql⟩ := Option.map_eq_some_iff.mp hsql
  refine ⟨hsql, ?_⟩
  rw [← hcsql]
  exact balanced_sql_run hplain htexts 9 hc

end Session

end SqlCompose
