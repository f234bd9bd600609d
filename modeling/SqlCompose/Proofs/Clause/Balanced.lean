import SqlCompose.Proofs.Clause.Supplied
import SqlCompose.Proofs.Clause.Written
import SqlCompose.Proofs.Format.Nested
import SqlCompose.Proofs.Session.Invariant

/-!
Clauses with their parentheses in balance, as balanced texts and balanced decorations make them.
-/
namespace SqlCompose

open Text (Balanced Leads balanced_append)

namespace Predicate

variable {p : Predicate}

def column : Predicate → String
  | .compare column _ _ => column
  | .between _ column _ _ => column
  | .member _ column _ _ => column

/-- The texts that a condition is put together from. -/
def texts (p : Predicate) : List String := p.column :: p.params.map Param.name

theorem balanced_operator (negated : Bool) {word : String} (h : Balanced word.toList) :
    Balanced (operator negated word).toList := by
  cases negated with
  | false => exact h
  | true => exact balanced_append (by decide) h

/-- The only parentheses that a condition adds stand around its list of values. -/
theorem balanced_text (h : ∀ s ∈ p.texts, Balanced s.toList) : Balanced p.text.toList := by
  rw [texts, List.forall_mem_cons] at h
  obtain ⟨hcolumn, hnames⟩ := h
  have hspace : Balanced (" ").toList := by decide
  cases p with
  | compare column op q =>
    have hsymbol : Balanced op.symbol.toList := by cases op <;> decide
    have hname : Balanced q.name.toList := hnames q.name (List.mem_singleton.mpr rfl)
    exact balanced_append
      (balanced_append (balanced_append (balanced_append hcolumn hspace) hsymbol) hspace) hname
  | between negated column low high =>
    have hlow : Balanced low.name.toList := hnames low.name (by simp [params])
    have hhigh : Balanced high.name.toList := hnames high.name (by simp [params])
    have hword : Balanced (operator negated "between").toList :=
      balanced_operator negated (by decide)
    have hand : Balanced (" and ").toList := by decide
    have hfront := balanced_append (balanced_append (balanced_append hcolumn hspace) hword) hspace
    exact balanced_append (balanced_append (balanced_append hfront hlow) hand) hhigh
  | member negated column key ps =>
    have hword : Balanced (operator negated "in").toList :=
      balanced_operator negated (by decide)
    have hfront := balanced_append (balanced_append hcolumn hspace) hword
    have hlist : Balanced (", ".intercalate (ps.map Param.name)).toList :=
      Text.balanced_intercalate (by decide) hnames
    have hopen : Leads 0 1 " (" := by decide
    have hclose : Leads 1 0 ")" := by decide
    exact ((((Leads.of_balanced hfront 0).append hopen).append (.of_balanced hlist 1)).append
      hclose).balanced

end Predicate

namespace Filter

variable {f : Filter} {p : Predicate}

def column : Filter → String
  | .compare column _ _ _ => column
  | .between _ column _ _ _ _ => column
  | .member _ column _ _ => column
  | .pattern _ _ column _ _ => column

/-- The texts that a filter is given, except for those that it filters by. -/
def texts (f : Filter) : List String := f.column :: f.names

theorem column_of_predicate? (h : f.predicate? = some p) : p.column = f.column := by
  cases f with
  | compare column op name value =>
    obtain ⟨v, -, rfl⟩ := Option.map_eq_some_iff.mp h
    rfl
  | between negated column lowName low highName high =>
    cases low <;> cases high <;> cases h <;> rfl
  | member negated column name values =>
    rcases values with - | - | ⟨v, vs⟩ <;> cases h
    rfl
  | pattern negated anchor column name value =>
    obtain ⟨s, -, rfl⟩ := Option.map_eq_some_iff.mp h
    rfl

/-- The names that a filter makes up are its own with numbers behind them. -/
theorem balanced_text (h : ∀ s ∈ f.texts, Balanced s.toList) (hp : f.predicate? = some p) :
    Balanced p.text.toList := by
  rw [texts, List.forall_mem_cons] at h
  apply Predicate.balanced_text
  intro s hs
  rcases List.mem_cons.mp hs with rfl | hs
  · rw [column_of_predicate? hp]
    exact h.1
  · obtain ⟨q, hq, rfl⟩ := List.mem_map.mp hs
    rw [← supplied_of_predicate? hp] at hq
    rcases name_of_mem_supplied hq with hn | ⟨n, hn, i, hi⟩
    · exact h.2 _ hn
    · rw [hi]
      exact balanced_append (h.2 n hn) (Text.balanced_toString i)

end Filter

namespace Clause

variable {c other : Clause}

/-- The texts given to an operation that may come to stand in the text of a clause. -/
def Op.texts {ρ : Type} : Op ρ → List String
  | .add text => [text]
  | .addKeyed _ text _ => [text]
  | .addKeyedWithParams _ text _ _ => [text]
  | .addPredicate p => p.texts
  | .addFilter f => f.texts
  | .addParam _ | .addParams _ | .addClause _ | .addKeyedClause _ _ _ => []
  | .decorate _ | .reformat _ => []

theorem Op.texts_map {ρ σ : Type} (f : ρ → σ) (op : Op ρ) : (op.map f).texts = op.texts := by
  cases op <;> rfl

theorem Op.decorates_map {ρ σ : Type} (f : ρ → σ) (op : Op ρ) :
    (op.map f).decorates = op.decorates := by
  cases op <;> rfl

/-- Expressions that are balanced each, and a decoration that is so around them. -/
structure Balanced (c : Clause) : Prop where
  expressions : ∀ e ∈ c.expressions.toList, Text.Balanced e.toList
  format : ∃ outer inner, c.format.Nested outer inner

namespace Balanced

theorem sql (h : c.Balanced) : Text.Balanced c.sql.toList := by
  obtain ⟨outer, inner, hformat⟩ := h.format
  exact hformat.render h.expressions

theorem ofFormat {f : Format} {outer inner : Nat} (h : f.Nested outer inner) :
    (Clause.ofFormat f).Balanced where
  expressions _ he := nomatch he
  format := ⟨outer, inner, h⟩

theorem reformat (h : c.Balanced) {f : Format} {outer inner : Nat} (hf : f.Nested outer inner) :
    { c with format := f }.Balanced where
  expressions := h.expressions
  format := ⟨outer, inner, hf⟩

/-- What an operation writes is balanced if the texts are that it is given and the clauses that it
reads. -/
theorem of_mem_writes {op : Op} {o : KeyedSeq.Op String String} {e : String}
    (htexts : ∀ s ∈ op.texts, Text.Balanced s.toList) (hread : op.Reads Balanced)
    (ho : o ∈ op.writes) (he : e ∈ o.values) : Text.Balanced e.toList := by
  cases op with
  | add text =>
    obtain rfl : e = text := eq_of_mem_ifText rfl ho he
    exact htexts e (List.mem_singleton.mpr rfl)
  | addKeyed key text overwrite =>
    obtain rfl : e = text := eq_of_mem_ifText rfl ho he
    exact htexts e (List.mem_singleton.mpr rfl)
  | addKeyedWithParams key text ps overwrite =>
    obtain rfl : e = text := eq_of_mem_ifText rfl ho he
    exact htexts e (List.mem_singleton.mpr rfl)
  | addClause other =>
    obtain rfl : e = other.sql := eq_of_mem_ifText rfl ho he
    exact hread.sql
  | addKeyedClause key other overwrite =>
    obtain rfl : e = other.sql := eq_of_mem_ifText rfl ho he
    exact hread.sql
  | addPredicate p =>
    obtain rfl : e = p.text := eq_of_mem_writesOf ho he
    exact Predicate.balanced_text htexts
  | addFilter f =>
    obtain ⟨p, hp, ho⟩ := mem_writes_addFilter.mp ho
    obtain rfl : e = p.text := eq_of_mem_writesOf ho he
    exact Filter.balanced_text htexts hp
  | _ => cases ho

theorem apply (h : c.Balanced) {op : Op} (hplain : op.decorates = false)
    (htexts : ∀ s ∈ op.texts, Text.Balanced s.toList) (hread : op.Reads Balanced) :
    (c.apply op).state.Balanced where
  expressions e he := by
    rw [expressions_apply] at he
    rcases KeyedSeq.mem_or_mem_of_mem_run he with he | ⟨o, ho, he⟩
    · exact h.expressions e he
    · exact of_mem_writes htexts hread (mem_writes_of_mem_written ho) he
  format := by
    rw [format_apply_of_not_decorates hplain]
    exact h.format

theorem add (h : c.Balanced) {text : String} (htext : Text.Balanced text.toList) :
    (c.add text).Balanced := by
  have htexts : ∀ s ∈ (Op.add text : Op).texts, Text.Balanced s.toList :=
    List.forall_mem_singleton.mpr htext
  exact h.apply rfl htexts trivial

theorem addAll (h : c.Balanced) {texts : List String}
    (htexts : ∀ s ∈ texts, Text.Balanced s.toList) : (c.addAll texts).Balanced := by
  rw [Clause.addAll]
  induction texts generalizing c with
  | nil => exact h
  | cons t ts ih =>
    rw [List.forall_mem_cons] at htexts
    exact ih (h.add htexts.1) htexts.2

theorem empty : Clause.empty.Balanced := ofFormat Format.nested_plain

theorem statement {cs : List Clause} (h : ∀ c ∈ cs, c.Balanced) : (statement cs).value.Balanced where
  expressions e he := by
    rw [toList_statement] at he
    obtain ⟨c, hc, rfl⟩ := List.mem_map.mp (List.mem_of_mem_filter he)
    exact (h c hc).sql
  format := ⟨0, 0, by rw [format_statement]; exact Format.nested_plain⟩

end Balanced

/-- The texts given to a clause that is made from nothing. -/
def Origin.texts : Origin → List String
  | .ofText text => [text]
  | .fromTable table | .deleteFrom table | .updateTable table => [table]
  | .cte name => [name]
  | .selectList columns | .groupByList columns | .orderByList columns | .insertColumns columns =>
    columns
  | .insertInto table columns => table :: columns
  | .empty | .ofFormat _ | .whereList _ | .havingList _ | .valuesRow => []

/-- Whether the decoration of a clause is chosen by hand. -/
def Origin.decorates : Origin → Bool
  | .ofFormat _ => true
  | _ => false

theorem balanced_origin {o : Origin} (hplain : o.decorates = false)
    (htexts : ∀ s ∈ o.texts, Text.Balanced s.toList) : o.clause.Balanced := by
  cases o with
  | empty => exact .empty
  | ofText text => exact Balanced.empty.add (htexts text (List.mem_singleton.mpr rfl))
  | ofFormat f => cases hplain
  | selectList columns => exact (Balanced.ofFormat Format.nested_selectList).addAll htexts
  | fromTable table =>
    exact .ofFormat (Format.nested_fromTable (htexts table (List.mem_singleton.mpr rfl)))
  | whereList j => exact .ofFormat (Format.nested_whereList j)
  | groupByList columns => exact (Balanced.ofFormat Format.nested_groupByList).addAll htexts
  | havingList j => exact .ofFormat (Format.nested_havingList j)
  | orderByList columns => exact (Balanced.ofFormat Format.nested_orderByList).addAll htexts
  | cte name => exact .ofFormat (Format.nested_cte (htexts name (List.mem_singleton.mpr rfl)))
  | deleteFrom table =>
    exact .ofFormat (Format.nested_deleteFrom (htexts table (List.mem_singleton.mpr rfl)))
  | updateTable table =>
    exact .ofFormat (Format.nested_updateTable (htexts table (List.mem_singleton.mpr rfl)))
  | insertColumns columns => exact (Balanced.ofFormat Format.nested_insertColumns).addAll htexts
  | insertInto table columns =>
    rw [Origin.texts, List.forall_mem_cons] at htexts
    have hcolumns : (insertColumns columns).Balanced :=
      (Balanced.ofFormat Format.nested_insertColumns).addAll htexts.2
    exact (Balanced.ofFormat (Format.nested_insertInto htexts.1)).add hcolumns.sql
  | valuesRow => exact .ofFormat Format.nested_valuesRow

end Clause

end SqlCompose
