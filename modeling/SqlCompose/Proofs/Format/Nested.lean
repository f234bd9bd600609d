import SqlCompose.Format.Basic
import SqlCompose.Proofs.Text.Balanced

/-!
Decorations whose parentheses are in balance as a whole, though one text of them may open what
another closes.
-/
namespace SqlCompose.Format

open Text (Balanced Leads)

variable {f : Format} {outer inner : Nat} {head table name : String} {es : List String}

/-- Around the list of expressions, and within it, so many parentheses are open. -/
structure Nested (f : Format) (outer inner : Nat) : Prop where
  head : Leads 0 outer f.head
  listHead : Leads outer inner f.listHead
  separator : Leads inner inner f.separator
  listTail : Leads inner outer f.listTail
  tail : Leads outer 0 f.tail

namespace Nested

theorem followers (h : f.Nested outer inner) (hes : ∀ e ∈ es, Balanced e.toList) :
    Leads inner inner (f.followers es) := by
  induction es with
  | nil => exact Text.leads_empty inner
  | cons e es ih =>
    rw [List.forall_mem_cons] at hes
    have he : Leads inner inner e := .of_balanced hes.1 inner
    exact (h.separator.append he).append (ih hes.2)

/-- Balanced expressions are rendered as a balanced text. -/
theorem render (h : f.Nested outer inner) (hes : ∀ e ∈ es, Balanced e.toList) :
    Balanced (f.render es).toList := by
  cases es with
  | nil =>
    rw [Format.render]
    split
    · exact (h.head.append h.tail).balanced
    · exact (Text.leads_empty 0).balanced
  | cons e es =>
    rw [List.forall_mem_cons] at hes
    have he : Leads inner inner e := .of_balanced hes.1 inner
    -- what the front of the list opens, its end closes, so head and tail meet as if it were not there
    have hlist : Leads outer outer (f.listHead ++ e ++ f.followers es ++ f.listTail) :=
      ((h.listHead.append he).append (h.followers hes.2)).append h.listTail
    have hall := (h.head.append hlist).append h.tail
    simpa only [Format.render, String.append_assoc] using hall.balanced

theorem withHead (h : f.Nested outer inner) (hhead : Leads 0 outer head) :
    { f with head }.Nested outer inner :=
  { h with head := hhead }

end Nested

theorem nested_plain : ({} : Format).Nested 0 0 := by
  constructor <;> decide

theorem nested_columns (h : Balanced head.toList) : (columns head).Nested 0 0 := by
  have hbare : (columns "").Nested 0 0 := by constructor <;> decide
  exact hbare.withHead (.of_balanced h 0)

theorem nested_parenthesized (h : Leads 0 1 head) : (parenthesized head).Nested 1 1 := by
  have hopen : (parenthesized "(").Nested 1 1 := by constructor <;> decide
  exact hopen.withHead h

/-- The parenthesis around a predicate is closed by the separator, which opens the next one. -/
theorem nested_predicates (h : Balanced head.toList) (j : Joiner) :
    (predicates head j).Nested 0 1 := by
  have hbare : (predicates "" j).Nested 0 1 := by cases j <;> constructor <;> decide
  exact hbare.withHead (.of_balanced h 0)

theorem nested_selectList : selectList.Nested 0 0 := nested_columns (by decide)

theorem nested_fromTable (h : Balanced table.toList) : (fromTable table).Nested 0 0 := by
  have hbare : (fromTable "").Nested 0 0 := by constructor <;> decide
  exact hbare.withHead (.around (by decide) h (by decide))

theorem nested_whereList (j : Joiner) : (whereList j).Nested 0 1 := nested_predicates (by decide) j

theorem nested_groupByList : groupByList.Nested 0 0 := nested_columns (by decide)

theorem nested_havingList (j : Joiner) : (havingList j).Nested 0 1 :=
  nested_predicates (by decide) j

theorem nested_orderByList : orderByList.Nested 0 0 := nested_columns (by decide)

/-- The parenthesis behind the name is closed behind the body. -/
theorem nested_cte (h : Balanced name.toList) : (cte name).Nested 1 1 := by
  have hbare : (cte "").Nested 1 1 := by constructor <;> decide
  exact hbare.withHead (.around (by decide) h (by decide))

theorem nested_deleteFrom (h : Balanced table.toList) : (deleteFrom table).Nested 0 0 := by
  have hbare : (deleteFrom "").Nested 0 0 := by constructor <;> decide
  exact hbare.withHead (.around (by decide) h (by decide))

theorem nested_updateTable (h : Balanced table.toList) : (updateTable table).Nested 0 0 := by
  have hbare : (updateTable "").Nested 0 0 := by constructor <;> decide
  exact hbare.withHead (.around (by decide) h (by decide))

theorem nested_insertInto (h : Balanced table.toList) : (insertInto table).Nested 0 0 := by
  have hbare : (insertInto "").Nested 0 0 := by constructor <;> decide
  exact hbare.withHead (.around (by decide) h (by decide))

theorem nested_insertColumns : insertColumns.Nested 1 1 := nested_parenthesized (by decide)

theorem nested_valuesRow : valuesRow.Nested 1 1 := nested_parenthesized (by decide)

end SqlCompose.Format
