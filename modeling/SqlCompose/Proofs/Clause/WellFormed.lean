import Mathlib.Data.Finset.Card
import SqlCompose.Proofs.Session.Invariant

/-!
What holds of every clause that a program can make: no empty expression, keys and positions in step,
and parameters with names of their own under which they are found.
-/
namespace SqlCompose.Clause

variable {c other : Clause}

structure WellFormed (c : Clause) : Prop where
  /-- The empty text is no expression. -/
  texts : ∀ e ∈ c.expressions.toList, e ≠ ""
  keys : c.expressions.WellKeyed
  named : ∀ p ∈ c.paramList, p.name ≠ ""
  /-- The names under which parameters are found are those that they carry. -/
  bound : c.params.KeyedBy Param.name

theorem wellFormed_ofFormat (f : Format) : (ofFormat f).WellFormed where
  texts _ he := nomatch he
  keys := KeyedSeq.wellKeyed_empty
  named _ hp := nomatch hp
  bound := KeyedSeq.keyedBy_empty _

namespace WellFormed

theorem add (h : c.WellFormed) (text : String) : (c.add text).WellFormed := by
  rw [Clause.add]
  split
  · exact h
  · rename_i ht
    refine ⟨fun e he => ?_, h.keys.push text, h.named, h.bound⟩
    rcases List.mem_append.mp he with he | he
    · exact h.texts e he
    · rw [List.mem_singleton.mp he]
      exact fun h0 => ht (by simp [h0])

theorem addAll (h : c.WellFormed) (texts : List String) : (c.addAll texts).WellFormed := by
  rw [Clause.addAll]
  induction texts generalizing c with
  | nil => exact h
  | cons t ts ih => exact ih (h.add t)

theorem insertExpression (h : c.WellFormed) {text : String} (ht : text.isEmpty = false)
    (key : String) (overwrite : Bool) :
    { c with expressions := c.expressions.insert key text overwrite }.WellFormed := by
  refine ⟨fun e he => ?_, h.keys.insert key text overwrite, h.named, h.bound⟩
  rcases KeyedSeq.eq_or_mem_of_mem_insert he with rfl | he
  · exact fun h0 => by simp [h0] at ht
  · exact h.texts e he

theorem addKeyed (h : c.WellFormed) (key text : String) (overwrite : Bool) :
    (c.addKeyed key text overwrite).value.WellFormed := by
  rw [value_addKeyed]
  split
  · exact h
  · rename_i ht
    exact h.insertExpression (by simpa using ht) key overwrite

theorem insertParams (h : c.WellFormed) {ps : List Param} (hps : ∀ p ∈ ps, p.name ≠ "") :
    (c.insertParams ps).value.WellFormed := by
  rw [value_insertParams]
  refine ⟨h.texts, h.keys, fun p hp => ?_, h.bound.insertAll ps⟩
  rcases KeyedSeq.mem_or_mem_of_mem_insertAll hp with hp | hp
  · exact h.named p hp
  · exact hps p hp

theorem addParams (h : c.WellFormed) (ps : List Param) : (c.addParams ps).state.WellFormed := by
  rw [Clause.addParams]
  split
  · rename_i hps
    exact h.insertParams (allNamed_iff.mp hps)
  · exact h

theorem addKeyedWithParams (h : c.WellFormed) (key text : String) (ps : List Param)
    (overwrite : Bool) : (c.addKeyedWithParams key text ps overwrite).state.WellFormed := by
  rw [Clause.addKeyedWithParams]
  split
  · exact h
  · rename_i ht
    rw [Bool.or_eq_true, not_or, Bool.not_eq_true] at ht
    split
    · rename_i hps
      exact (h.insertExpression ht.1 key overwrite).insertParams (allNamed_iff.mp hps)
    · exact h

/-- The parameters of another clause are bound unchecked; that they have names is what is known of
that clause. -/
theorem addClause (h : c.WellFormed) (ho : other.WellFormed) :
    (c.addClause other).value.WellFormed :=
  (h.add other.sql).insertParams ho.named

theorem addKeyedClause (h : c.WellFormed) (ho : other.WellFormed) (key : String)
    (overwrite : Bool) : (c.addKeyedClause key other overwrite).value.WellFormed := by
  rw [value_addKeyedClause]
  split
  · exact (h.addKeyed key other.sql overwrite).insertParams ho.named
  · exact h

theorem addPredicate (h : c.WellFormed) (p : Predicate) : (c.addPredicate p).state.WellFormed := by
  rw [Clause.addPredicate]
  split
  · exact h
  · exact h.addKeyedWithParams _ _ _ _

theorem addFilter (h : c.WellFormed) (f : Filter) : (c.addFilter f).state.WellFormed := by
  rw [Clause.addFilter]
  split
  · exact h
  · exact h.addPredicate _

theorem reformat (h : c.WellFormed) (f : Format) : { c with format := f }.WellFormed :=
  ⟨h.texts, h.keys, h.named, h.bound⟩

theorem apply (h : c.WellFormed) (op : Op) (hop : op.Reads WellFormed) :
    (c.apply op).state.WellFormed := by
  cases op with
  | add text => exact h.add text
  | addKeyed key text overwrite => exact h.addKeyed key text overwrite
  | addKeyedWithParams key text ps overwrite => exact h.addKeyedWithParams key text ps overwrite
  | addParam p => exact h.addParams [p]
  | addParams ps => exact h.addParams ps
  | addClause other => exact h.addClause hop
  | addKeyedClause key other overwrite => exact h.addKeyedClause hop key overwrite
  | addPredicate p => exact h.addPredicate p
  | addFilter f => exact h.addFilter f
  | decorate s => exact h.reformat _
  | reformat f => exact h.reformat f

end WellFormed

theorem wellFormed_origin (o : Origin) : o.clause.WellFormed := by
  cases o with
  | empty => exact wellFormed_ofFormat {}
  | ofText text => exact (wellFormed_ofFormat {}).add text
  | ofFormat f => exact wellFormed_ofFormat f
  | selectList columns => exact (wellFormed_ofFormat _).addAll columns
  | groupByList columns => exact (wellFormed_ofFormat _).addAll columns
  | orderByList columns => exact (wellFormed_ofFormat _).addAll columns
  | insertColumns columns => exact (wellFormed_ofFormat _).addAll columns
  | insertInto table columns => exact (wellFormed_ofFormat _).add _
  | _ => exact wellFormed_ofFormat _

theorem invariant_wellFormed : Invariant WellFormed where
  origin := wellFormed_origin
  apply op h hop := h.apply op hop

/-- Every clause of every program is well formed, so that a name leads to the one parameter that
carries it, and to none otherwise. -/
theorem wellFormed_of_reachable (h : c.Reachable) :
    c.WellFormed ∧ (c.paramList.map Param.name).Nodup ∧
      (∀ n p, c.param? n = some p ↔ p ∈ c.paramList ∧ p.name = n) ∧
      (∀ n, c.containsParam n = true ↔ ∃ p ∈ c.paramList, p.name = n) ∧
      c.paramCount = (c.paramList.map Param.name).toFinset.card := by
  have hc : c.WellFormed := invariant_wellFormed.reachable h
  have hd : (c.paramList.map Param.name).Nodup := hc.bound.nodup
  refine ⟨hc, hd, fun n p => hc.bound.find?_eq_some_iff, fun n => hc.bound.containsKey_iff, ?_⟩
  rw [List.toFinset_card_of_nodup hd, List.length_map]
  rfl

/-- Two lists of conditions that bind one name, a change that is refused, and the statement of both
lists. -/
theorem wellFormed_statement_of_conditions :
    ∃ c : Clause, c.Reachable ∧ c.sql = "where\n\t(age > @age)\nhaving\n\t(age < @age)\n" ∧
      c.WellFormed ∧ c.paramCount = (c.paramList.map Param.name).toFinset.card := by
  have hreach : Reachable _ :=
    ⟨[.create (.whereList .and), .create (.havingList .or),
      .change 0 (.addFilter (.compare "age" .greater "@age" (some ⟨.int32, 18⟩))),
      .change 1 (.addFilter (.compare "age" .less "@age" (some ⟨.int64, 65⟩))),
      .change 1 (.addParam (.ofValue "" (.bool true))),
      .compose [.clause 0, .clause 1]], .clause 2, rfl⟩
  obtain ⟨hc, -, -, -, hcount⟩ := wellFormed_of_reachable hreach
  exact ⟨_, hreach, by decide, hc, hcount⟩

end SqlCompose.Clause
