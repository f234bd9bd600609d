import SqlCompose.Proofs.Clause.WellFormed
import SqlCompose.Proofs.Clause.Written

/-!
The text of a clause in segments, one for each expression, with the separator between neighbours.
-/
namespace SqlCompose

namespace Format

variable {f : Format} {es : List String}

/-- What stands in front of an expression that is behind some others. -/
def front (f : Format) (es : List String) : String :=
  f.head ++ f.listHead ++ String.join (es.map (· ++ f.separator))

/-- What stands behind an expression that is in front of some others. -/
def back (f : Format) (es : List String) : String :=
  String.join (es.map (f.separator ++ ·)) ++ f.listTail ++ f.tail

theorem followers_eq_join (f : Format) (es : List String) :
    f.followers es = String.join (es.map (f.separator ++ ·)) := by
  induction es with
  | nil => rfl
  | cons e es ih => rw [followers, ih, List.map_cons, String.join_cons]

theorem append_followers (f : Format) (e : String) (es : List String) :
    e ++ f.followers es = f.separator.intercalate (e :: es) := by
  induction es generalizing e with
  | nil => simp [followers]
  | cons e' es ih =>
    rw [String.intercalate_cons_cons, ← ih, followers]
    simp only [String.append_assoc]

theorem render_of_ne_nil (h : es ≠ []) :
    f.render es =
      f.head ++ f.listHead ++ f.separator.intercalate es ++ f.listTail ++ f.tail := by
  cases es with
  | nil => exact absurd rfl h
  | cons e es =>
    rw [render, ← append_followers]
    simp only [String.append_assoc]

/-- Seen from one expression the separator stands behind each of those in front of it, and in front of
each of those behind it. -/
theorem intercalate_append_cons (f : Format) (before : List String) (e : String)
    (after : List String) :
    f.separator.intercalate (before ++ e :: after) =
      String.join (before.map (· ++ f.separator)) ++ e ++ f.followers after := by
  induction before with
  | nil => simp [append_followers]
  | cons b bs ih =>
    have hne : bs ++ e :: after ≠ [] := List.append_ne_nil_of_right_ne_nil bs (List.cons_ne_nil e _)
    rw [List.cons_append, String.intercalate_cons_of_ne_nil hne, ih, List.map_cons,
      String.join_cons]
    simp only [String.append_assoc]

/-- An expression has a segment of its own, and the rest of the text does not depend on it. -/
theorem render_append_cons (f : Format) (before : List String) (e : String) (after : List String) :
    f.render (before ++ e :: after) = f.front before ++ e ++ f.back after := by
  have hne : before ++ e :: after ≠ [] :=
    List.append_ne_nil_of_right_ne_nil before (List.cons_ne_nil e after)
  rw [render_of_ne_nil hne, intercalate_append_cons, followers_eq_join, front, back]
  simp only [String.append_assoc]

end Format

namespace Clause

variable {c : Clause} {op : Op} {key text : String} {i : Nat}

theorem sql_add (hc : c.expressions.toList ≠ []) (htext : text ≠ "") :
    (c.add text).sql =
      c.format.head ++ c.format.listHead ++ c.format.separator.intercalate c.expressions.toList ++
        (c.format.separator ++ text) ++ (c.format.listTail ++ c.format.tail) := by
  have hadded : (c.add text).expressions.toList = c.expressions.toList ++ [text] := by
    rw [toList_add]
    simp [htext]
  rw [sql, format_add, hadded, Format.render_of_ne_nil (by simp),
    String.intercalate_append_of_ne_nil hc (by simp), String.intercalate_singleton]
  simp only [String.append_assoc]

/-- The key and the text of an operation that replaces the expression under a key. -/
def Op.overwriting? : Op → Option (String × String)
  | .addKeyed key text true => some (key, text)
  | .addKeyedWithParams key text _ true => some (key, text)
  | .addKeyedClause key other true => some (key, other.sql)
  | _ => none

theorem writes_of_overwriting? (h : op.overwriting? = some (key, text)) (htext : text ≠ "") :
    op.writes = [.insert key text true] ∧ op.decorates = false := by
  have hwritten : ifText text (.insert key text true) = [.insert key text true] := by
    rw [ifText, if_neg (mt String.isEmpty_iff.mp htext)]
  cases op with
  | addKeyed k e overwrite =>
    cases overwrite <;> cases h
    exact ⟨hwritten, rfl⟩
  | addKeyedWithParams k e ps overwrite =>
    cases overwrite <;> cases h
    exact ⟨hwritten, rfl⟩
  | addKeyedClause k other overwrite =>
    cases overwrite <;> cases h
    exact ⟨hwritten, rfl⟩
  | _ => cases h

/-- A text that takes the place of an expression stands between the same neighbours. -/
theorem exists_segment (hc : c.expressions.WellKeyed) (hop : op.overwriting? = some (key, text))
    (htext : text ≠ "") (hf : (c.apply op).fault = none)
    (hkey : c.expressions.indexOf? key = some i) :
    ∃ before e after, c.expressions.toList = before ++ e :: after ∧ before.length = i ∧
      (c.apply op).state.expressions.toList = before ++ text :: after ∧
      c.sql = c.format.front before ++ e ++ c.format.back after ∧
      (c.apply op).state.sql = c.format.front before ++ text ++ c.format.back after := by
  have hi : i < c.expressions.toList.length := hc.lt_length hkey
  obtain ⟨before, after, hold, hlength, hnew⟩ :
      ∃ before after, c.expressions.toList = before ++ c.expressions.toList[i] :: after ∧
        before.length = i ∧ c.expressions.toList.set i text = before ++ text :: after :=
    List.exists_of_set hi
  generalize c.expressions.toList[i] = e at hold
  obtain ⟨hwrites, hplain⟩ := writes_of_overwriting? hop htext
  have hwritten : (c.apply op).state.expressions.toList = before ++ text :: after := by
    rw [expressions_apply, written_of_fault_eq_none hf, hwrites, ← hnew]
    exact congrArg KeyedSeq.toList (KeyedSeq.insert_present hkey text)
  have hformat : (c.apply op).state.format = c.format := format_apply_of_not_decorates hplain
  refine ⟨before, e, after, hold, hlength, hwritten, ?_, ?_⟩
  · rw [sql, hold, Format.render_append_cons]
  · rw [sql, hwritten, hformat, Format.render_append_cons]

/-- The text of a clause is that of its expressions in order, with the separator between neighbours, the
head and the tail of the list around them, and the head and the tail of the clause around that. Without
expressions it is the head and the tail of the clause, or empty unless these are asked for. So a further
expression puts the separator and itself in front of the two tails, and a text that takes the place of an
expression takes its place in the text of the clause. -/
theorem sql_in_segments (hc : c.Reachable) :
    let f := c.format
    let es := c.expressions.toList
    let front := f.head ++ f.listHead ++ f.separator.intercalate es
    (c.sql =
        if es = [] ∧ f.renderIfEmpty = false then ""
        else f.head ++
          (if es = [] then "" else f.listHead ++ f.separator.intercalate es ++ f.listTail) ++
          f.tail) ∧
      toString c = c.sql ∧
      (es ≠ [] → ∀ text, text ≠ "" →
        c.sql = front ++ (f.listTail ++ f.tail) ∧
          (c.add text).sql = front ++ (f.separator ++ text) ++ (f.listTail ++ f.tail)) ∧
      ∀ op key text i, op.overwriting? = some (key, text) → text ≠ "" →
        (c.apply op).fault = none → c.expressions.indexOf? key = some i →
          ∃ before e after, es = before ++ e :: after ∧ before.length = i ∧
            (c.apply op).state.expressions.toList = before ++ text :: after ∧
            c.sql = f.front before ++ e ++ f.back after ∧
            (c.apply op).state.sql = f.front before ++ text ++ f.back after := by
  intro f es front
  have hwell : c.WellFormed := invariant_wellFormed.reachable hc
  have hsql : es ≠ [] → c.sql = front ++ (f.listTail ++ f.tail) := by
    intro hne
    rw [sql, Format.render_of_ne_nil hne]
    exact String.append_assoc
  refine ⟨?_, rfl, fun hne text htext => ⟨hsql hne, sql_add hne htext⟩,
    fun op key text i hop ht hf hkey => exists_segment hwell.keys hop ht hf hkey⟩
  by_cases hes : es = []
  · have hrender : c.sql = if f.renderIfEmpty then f.head ++ f.tail else "" :=
      congrArg f.render hes
    rw [hrender, hes]
    cases f.renderIfEmpty <;> simp
  · rw [hsql hes]
    simp [hes, front, String.append_assoc]

/-- A list of predicates that gets one more, and one whose first predicate is replaced together with the
parameter that it mentions. -/
theorem sql_in_segments_people :
    let c := ((whereList .or).addKeyed "age" "age > @age" false).value.add "id = 1"
    let op : Op := .addKeyedWithParams "age" "age > @limit" [.ofValue "@limit" (.int32 99)] true
    c.Reachable ∧ c.expressions.toList ≠ [] ∧
      op.overwriting? = some ("age", "age > @limit") ∧ (c.apply op).fault = none ∧
      c.expressions.indexOf? "age" = some 0 ∧
      c.sql = "where\n\t(age > @age)\n\tor (id = 1)\n" ∧
      (c.add "id = 2").sql = "where\n\t(age > @age)\n\tor (id = 1)\n\tor (id = 2)\n" ∧
      (∃ before e after, c.expressions.toList = before ++ e :: after ∧ before.length = 0 ∧
        (c.apply op).state.sql =
          c.format.front before ++ "age > @limit" ++ c.format.back after) ∧
      (c.apply op).state.sql = "where\n\t(age > @limit)\n\tor (id = 1)\n" := by
  intro c op
  have hreach : c.Reachable :=
    ⟨[.create (.whereList .or), .change 0 (.addKeyed "age" "age > @age" false),
      .change 0 (.add "id = 1")], .clause 0, rfl⟩
  have hne : c.expressions.toList ≠ [] := by decide
  obtain ⟨hsql, -, hadd, hreplace⟩ := sql_in_segments hreach
  obtain ⟨before, e, after, hes, hlength, -, -, hreplaced⟩ :=
    hreplace op "age" "age > @limit" 0 rfl (by decide) rfl rfl
  refine ⟨hreach, hne, rfl, rfl, rfl, hsql.trans (by decide), ?_, ?_, by decide⟩
  · exact (hadd hne "id = 2" (by decide)).2.trans (by decide)
  · exact ⟨before, e, after, hes, hlength, hreplaced⟩

end Clause

end SqlCompose
