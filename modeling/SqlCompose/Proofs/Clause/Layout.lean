import SqlCompose.Proofs.Clause.Segment

/-! How the parts of a statement are laid out, one column or predicate a line. -/
namespace SqlCompose

namespace Format

/-- One column a line, whatever stands behind the list, and nothing without a column. -/
theorem render_columns (head tail : String) (es : List String) :
    { columns head with tail }.render es =
      if es = [] then "" else head ++ ("\t" ++ ",\n\t".intercalate es ++ "\n") ++ tail := by
  split
  · rename_i hnone
    rw [hnone]
    rfl
  · rename_i hsome
    rw [render_of_ne_nil hsome]
    simp only [columns, String.append_assoc]

/-- Behind a head that is always rendered the expressions stand as they are. -/
theorem render_head (head : String) (es : List String) :
    ({ head, renderIfEmpty := true } : Format).render es = head ++ String.join es := by
  cases es with
  | nil => rfl
  | cons e es =>
    rw [render, followers_eq_join]
    simp [String.append_assoc]

/-- What ends the list also ends each line in front of a separator, and what is left of the separator
begins the line behind it. -/
theorem followers_predicates (head : String) (j : Joiner) (es : List String) :
    (predicates head j).followers es ++ ")\n" =
      ")\n" ++ String.join (es.map fun q => "\t" ++ j.keyword ++ " (" ++ q ++ ")\n") := by
  induction es with
  | nil => rfl
  | cons e es ih =>
    have hseparator : (predicates head j).separator = ")\n" ++ ("\t" ++ j.keyword ++ " (") := rfl
    rw [followers, String.append_assoc, ih, hseparator, List.map_cons, String.join_cons]
    simp only [String.append_assoc]

theorem render_predicates (head : String) (j : Joiner) (e : String) (es : List String) :
    (predicates head j).render (e :: es) =
      head ++ ("\t(" ++ e ++ ")\n" ++
        String.join (es.map fun q => "\t" ++ j.keyword ++ " (" ++ q ++ ")\n")) := by
  calc (predicates head j).render (e :: es)
      = head ++ "\t(" ++ e ++ (predicates head j).followers es ++ ")\n" ++ "" := rfl
    _ = head ++ ("\t(" ++ e ++ ((predicates head j).followers es ++ ")\n")) := by
        simp only [String.append_assoc, String.append_empty]
    _ = head ++ ("\t(" ++ e ++ (")\n" ++
          String.join (es.map fun q => "\t" ++ j.keyword ++ " (" ++ q ++ ")\n"))) := by
        rw [followers_predicates]
    _ = head ++ ("\t(" ++ e ++ ")\n" ++
          String.join (es.map fun q => "\t" ++ j.keyword ++ " (" ++ q ++ ")\n")) := by
        simp only [String.append_assoc]

end Format

namespace Clause

variable {c : Clause}

/-- The clause of some columns shows those that have a name. -/
theorem sql_ofColumns (f : Format) (columns : List String) :
    (ofColumns f columns).sql = f.render (columns.filter fun e => !e.isEmpty) := by
  rw [ofColumns, sql, format_addAll, toList_addAll]
  rfl

theorem sql_ofColumns_columns (head : String) (columns : List String) :
    let cs := columns.filter fun e => !e.isEmpty
    (ofColumns (.columns head) columns).sql =
      if cs = [] then "" else head ++ ("\t" ++ ",\n\t".intercalate cs ++ "\n") := by
  intro cs
  have hrender := Format.render_columns head "" cs
  rw [String.append_empty] at hrender
  exact (sql_ofColumns _ columns).trans hrender

/-- An insertion begins with its table, and its columns and the clauses added to it stand behind that in
order. -/
theorem sql_insertInto_addClause (table : String) (columns : List String) (others : List Clause) :
    (others.foldl (fun c other => (c.addClause other).value) (insertInto table columns)).sql =
      "insert into " ++ table ++ "\n" ++ (insertColumns columns).sql ++
        String.join (others.map sql) := by
  have hformat : (insertInto table columns).format = .insertInto table := format_add _ _
  have hcolumns : (insertInto table columns).expressions.toList =
      [(insertColumns columns).sql].filter fun e => !e.isEmpty := toList_add _ _
  rw [sql, foldl_addClause_format, foldl_addClause_expressions, hformat, hcolumns,
    ← List.filter_append, Format.insertInto, Format.render_head, join_filter_isEmpty,
    List.singleton_append, String.join_cons, ← String.append_assoc]

/-- A list of predicates that has kept its decoration, whatever brought its predicates in. -/
theorem sql_predicates {head : String} {j : Joiner} {p : String} {ps : List String}
    (hformat : c.format = .predicates head j) (hlist : c.expressions.toList = p :: ps) :
    c.sql = head ++ ("\t(" ++ p ++ ")\n" ++
      String.join (ps.map fun q => "\t" ++ j.keyword ++ " (" ++ q ++ ")\n")) := by
  rw [sql, hformat, hlist, Format.render_predicates]

theorem toList_addAll_ofFormat (f : Format) {texts : List String} (h : ∀ t ∈ texts, t ≠ "") :
    ((ofFormat f).addAll texts).expressions.toList = texts := by
  rw [toList_addAll, List.filter_eq_self.mpr fun t ht => by simp [h t ht]]
  rfl

/-- Columns are laid out one a line behind the keyword, those without a name left out, and nothing is
shown without any; an insertion shows its table, its columns and what is added to it. Predicates are laid
out one a line, each in its own parentheses, with the joiner in front of all but the first, whether they
are added as they are or by any other operations. -/
theorem sql_in_layout :
    (∀ columns : List String,
      let cs := columns.filter fun e => !e.isEmpty
      let lines := "\t" ++ ",\n\t".intercalate cs ++ "\n"
      (selectList columns).sql = (if cs = [] then "" else "select\n" ++ lines) ∧
      (groupByList columns).sql = (if cs = [] then "" else "group by\n" ++ lines) ∧
      (orderByList columns).sql = (if cs = [] then "" else "order by\n" ++ lines) ∧
      (insertColumns columns).sql = (if cs = [] then "" else "(\n" ++ lines ++ ")\n") ∧
      ∀ (table : String) (others : List Clause),
        (insertInto table columns).sql =
          "insert into " ++ table ++ "\n" ++ (insertColumns columns).sql ∧
        (others.foldl (fun c other => (c.addClause other).value) (insertInto table columns)).sql =
          "insert into " ++ table ++ "\n" ++ (insertColumns columns).sql ++
            String.join (others.map sql)) ∧
    ∀ (j : Joiner) (p : String) (ps : List String),
      let lines := "\t(" ++ p ++ ")\n" ++
        String.join (ps.map fun q => "\t" ++ j.keyword ++ " (" ++ q ++ ")\n")
      ((∀ q ∈ p :: ps, q ≠ "") →
        ((whereList j).addAll (p :: ps)).sql = "where\n" ++ lines ∧
          ((havingList j).addAll (p :: ps)).sql = "having\n" ++ lines) ∧
      ∀ ops : List Op, (∀ op ∈ ops, op.decorates = false) →
        (((whereList j).run ops).expressions.toList = p :: ps →
          ((whereList j).run ops).sql = "where\n" ++ lines) ∧
        (((havingList j).run ops).expressions.toList = p :: ps →
          ((havingList j).run ops).sql = "having\n" ++ lines) := by
  constructor
  · intro columns cs lines
    refine ⟨sql_ofColumns_columns _ columns, sql_ofColumns_columns _ columns,
      sql_ofColumns_columns _ columns, ?_, fun table others => ⟨?_, ?_⟩⟩
    · exact (sql_ofColumns _ columns).trans (Format.render_columns "(\n" ")\n" cs)
    · have halone := sql_insertInto_addClause table columns []
      rwa [List.map_nil, String.join_nil, String.append_empty] at halone
    · exact sql_insertInto_addClause table columns others
  · intro j p ps lines
    refine ⟨fun hnamed => ⟨?_, ?_⟩, fun ops hplain => ⟨?_, ?_⟩⟩
    · exact sql_predicates (format_addAll _ _) (toList_addAll_ofFormat _ hnamed)
    · exact sql_predicates (format_addAll _ _) (toList_addAll_ofFormat _ hnamed)
    · exact sql_predicates (format_run hplain)
    · exact sql_predicates (format_run hplain)

/-- Two predicates added as they are, and three that a comparison, a list and an expression under a key
bring in. -/
theorem sql_in_layout_people :
    let ops : List Op :=
      [.addFilter (.compare "count(*)" .greater "@n" (some ⟨.int32, 1⟩)),
        .addFilter (.member true "max(age)" "@age" (some [⟨.int32, 18⟩, ⟨.int32, 65⟩])),
        .addKeyed "min" "min(age) < 40" false]
    let c := (havingList .and).run ops
    (∀ q ∈ ["age > 17", "name is null"], q ≠ "") ∧
      ((whereList .or).addAll ["age > 17", "name is null"]).sql =
        "where\n\t(age > 17)\n\tor (name is null)\n" ∧
      (∀ op ∈ ops, op.decorates = false) ∧
      c.expressions.toList = ["count(*) > @n", "max(age) not in (@age1, @age2)", "min(age) < 40"] ∧
      c.sql = "having\n\t(count(*) > @n)\n\tand (max(age) not in (@age1, @age2))\n" ++
        "\tand (min(age) < 40)\n" := by
  intro ops c
  have htexts : ∀ q ∈ ["age > 17", "name is null"], q ≠ "" := by decide
  have hplain : ∀ op ∈ ops, op.decorates = false := by decide
  have hlist : c.expressions.toList =
      ["count(*) > @n", "max(age) not in (@age1, @age2)", "min(age) < 40"] := by decide +kernel
  have hadded := ((sql_in_layout.2 .or "age > 17" ["name is null"]).1 htexts).1
  have hrun := ((sql_in_layout.2 .and _ _).2 ops hplain).2 hlist
  exact ⟨htexts, hadded.trans (by decide +kernel), hplain, hlist, hrun.trans (by decide +kernel)⟩

end Clause

end SqlCompose
