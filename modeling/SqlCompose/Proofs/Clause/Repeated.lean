import SqlCompose.Proofs.Clause.Log
import SqlCompose.Proofs.Clause.Written
import SqlCompose.Proofs.KeyedSeq.Permanence

/-!
The same operation made twice, which adds nothing the second time but an expression without a key.
-/
namespace SqlCompose

/-- A field that has been set may be set again. -/
theorem Format.set_set (f : Format) (s : Setting) : (f.set s).set s = f.set s := by
  rcases s with ⟨field, content⟩ | content
  · cases field <;> rfl
  · rfl

namespace Clause

variable {c d : Clause} {op : Op} {key : String} {overwrite : Bool}

/-- Whether an operation adds an expression without a key. -/
def Op.appends {ρ : Type} : Op ρ → Bool
  | .add _ | .addClause _ => true
  | _ => false

/-- A change that may be made again: it leaves the clause as it is then, and ends the same way. -/
def Settles (c : Clause) (change : Clause → Outcome Clause) : Prop :=
  (change (change c).state).state = (change c).state ∧
    (change (change c).state).fault = (change c).fault

/-- Every key of the one clause is a key of the other. -/
def KeysWithin (c d : Clause) : Prop :=
  ∀ key, c.containsExpression key = true → d.containsExpression key = true

theorem keysWithin_apply (hc : c.expressions.WellKeyed) (op : Op) :
    c.KeysWithin (c.apply op).state := by
  intro key hkey
  have hext : (c.apply op).state.expressions.Extends c.expressions := by
    rw [expressions_apply]
    exact .run _ fun o ho => isRestart_of_mem_writes (mem_writes_of_mem_written ho)
  obtain ⟨i, hi⟩ := KeyedSeq.containsKey_iff.mp hkey
  exact KeyedSeq.containsKey_iff.mpr ⟨i, (hext.indexOf?_iff key i (hc.lt_length hi)).mpr hi⟩

namespace KeysWithin

/-- What is accepted in spite of more keys is accepted with fewer. -/
theorem accepts (h : c.KeysWithin d) (hd : d.expressions.accepts key overwrite = true) :
    c.expressions.accepts key overwrite = true := by
  cases overwrite with
  | true => rfl
  | false =>
    rw [accepts_false, Bool.not_eq_true'] at hd ⊢
    exact Bool.eq_false_iff.mpr fun hkey => Bool.eq_false_iff.mp hd (h key hkey)

theorem checkedOf (h : c.KeysWithin d) (p : Predicate) :
    d.checkedOf p = c.checkedOf p ∨ d.checkedOf p = [] := by
  unfold Clause.checkedOf
  by_cases hd : d.containsExpression p.key = true
  · exact .inr (if_pos hd)
  · have hc : ¬ c.containsExpression p.key = true := fun hc => hd (h p.key hc)
    rw [if_neg hd, if_neg hc]
    exact .inl rfl

/-- With more keys an operation checks the same names, or none because its key is taken. -/
theorem checked (h : c.KeysWithin d) (op : Op) :
    d.checked op = c.checked op ∨ d.checked op = [] := by
  cases op with
  | addKeyedWithParams key text ps overwrite =>
    simp only [Clause.checked]
    cases hd : d.expressions.accepts key overwrite with
    | false => exact .inr (if_pos (Bool.or_true _))
    | true =>
      rw [h.accepts hd]
      exact .inl rfl
  | addPredicate p => exact h.checkedOf p
  | addFilter f =>
    simp only [Clause.checked]
    cases f.predicate? with
    | none => exact .inl rfl
    | some p => exact h.checkedOf p
  | _ => exact .inl rfl

theorem offered (h : c.KeysWithin d) (op : Op) :
    d.offered op = c.offered op ∨ d.offered op = [] := by
  cases op with
  | addClause other => exact .inl rfl
  | addKeyedClause key other overwrite =>
    simp only [Clause.offered]
    cases hd : d.expressions.accepts key overwrite with
    | false => exact .inr rfl
    | true =>
      rw [h.accepts hd]
      exact .inl rfl
  | _ =>
    simp only [Clause.offered]
    exact h.checked _

theorem fault_eq_none (h : c.KeysWithin d) (hf : (c.apply op).fault = none) :
    (d.apply op).fault = none := by
  rw [fault_apply_eq_none_iff] at hf ⊢
  rcases h.checked op with hsame | hnone
  · rwa [hsame]
  · simp [hnone]

end KeysWithin

/-- What is written under a key stands there when it is written again. -/
theorem run_writes_writes (h : op.appends = false) (s : KeyedSeq String String) :
    (s.run op.writes).run op.writes = s.run op.writes := by
  have hinsert : ∀ key text overwrite,
      (s.run (ifText text (.insert key text overwrite))).run
        (ifText text (.insert key text overwrite)) =
          s.run (ifText text (.insert key text overwrite)) := by
    intro key text overwrite
    unfold ifText
    split
    · rfl
    · exact KeyedSeq.insert_insert_same s key text overwrite
  have hcondition : ∀ p, (s.run (writesOf p)).run (writesOf p) = s.run (writesOf p) := by
    intro p
    unfold writesOf
    split
    · rfl
    · exact KeyedSeq.insert_insert_same s p.key p.text false
  cases op with
  | add text => cases h
  | addClause other => cases h
  | addKeyed key text overwrite => exact hinsert key text overwrite
  | addKeyedWithParams key text ps overwrite => exact hinsert key text overwrite
  | addKeyedClause key other overwrite => exact hinsert key other.sql overwrite
  | addPredicate p => exact hcondition p
  | addFilter f =>
    simp only [Op.writes]
    cases f.predicate? with
    | none => rfl
    | some p => exact hcondition p
  | _ => rfl

theorem restyle_restyle (op : Op) (f : Format) : op.restyle (op.restyle f) = op.restyle f := by
  cases op with
  | decorate s => exact f.set_set s
  | _ => rfl

/-- What is bound again is what was bound, in the places where it stands, or nothing at all. -/
theorem params_apply_apply (hc : c.WellFormed) (hf : (c.apply op).fault = none) :
    ((c.apply op).state.apply op).state.params = (c.apply op).state.params := by
  have hkeys : c.KeysWithin (c.apply op).state := keysWithin_apply hc.keys op
  rw [params_apply (c.apply op).state, handed_of_fault_eq_none (hkeys.fault_eq_none hf),
    params_apply c, handed_of_fault_eq_none hf]
  rcases hkeys.offered op with hsame | hnone
  · rw [hsame]
    exact KeyedSeq.insertAll_insertAll hc.bound.wellKeyed _
  · rw [hnone]
    rfl

/-- An operation that adds no expression without a key may be made twice. The second time it leaves
expressions, keys, parameters, their order and the decoration as they are, and it is accepted if it was
accepted the first time and refused for the same reason if it was refused. -/
theorem settles_of_not_appends (hc : c.Reachable) :
    (∀ op : Op, op.appends = false → c.Settles (·.apply op)) ∧
      ∀ key text p overwrite, c.Settles (·.addKeyedWithParam key text p overwrite) := by
  have hwell : c.WellFormed := invariant_wellFormed.reachable hc
  have hsettles : ∀ op : Op, op.appends = false → c.Settles (·.apply op) := by
    intro op hop
    cases hf : (c.apply op).fault with
    | some f =>
      have hrefused : c.apply op = .refuse c .unnamedParam := apply_of_fault hf
      have hstate : (c.apply op).state = c := by
        rw [hrefused]
        rfl
      simp only [Settles, hstate, and_self]
    | none =>
      have hkeys : c.KeysWithin (c.apply op).state := keysWithin_apply hwell.keys op
      have hagain : ((c.apply op).state.apply op).fault = none := hkeys.fault_eq_none hf
      have hexpressions : ((c.apply op).state.apply op).state.expressions =
          (c.apply op).state.expressions := by
        rw [expressions_apply (c.apply op).state, written_of_fault_eq_none hagain,
          expressions_apply c, written_of_fault_eq_none hf, run_writes_writes hop]
      have hformat : ((c.apply op).state.apply op).state.format = (c.apply op).state.format := by
        rw [format_apply (c.apply op).state, format_apply c, restyle_restyle]
      exact ⟨ext hexpressions (params_apply_apply hwell hf) hformat, hagain.trans hf.symm⟩
  exact ⟨hsettles, fun key text p overwrite =>
    hsettles (.addKeyedWithParams key text [p] overwrite) rfl⟩

/-- A clause without a text, whose key stays free while its parameter is bound both times, an expression
that takes the place of another with a name bound twice, and a range that is refused both times. -/
theorem settles_of_not_appends_age :
    let c := (empty.addKeyed "age" "age > @age" false).value
    let bare := (empty.addParam (.ofValue "@n" (.int32 1))).state
    let nested : Op := .addKeyedClause "n" bare false
    let limits : Op := .addKeyedWithParams "age" "age < @age"
      [.ofValue "@age" (.int32 65), .ofValue "@age" (.int32 70)] true
    let range : Op := .addFilter
      (.between false "id" "@low" (some ⟨.int32, (1 : Int32)⟩) "" (some ⟨.int32, (9 : Int32)⟩))
    c.Reachable ∧ (∀ op ∈ [nested, limits, range], op.appends = false ∧ c.Settles (·.apply op)) ∧
      (c.apply nested).state.containsExpression "n" = false ∧
      ((c.apply nested).state.apply nested).state.paramList = [.ofValue "@n" (.int32 1)] ∧
      ((c.apply limits).state.apply limits).state.paramList = [.ofValue "@age" (.int32 70)] ∧
      ((c.apply range).state.apply range).fault = some .unnamedParam := by
  intro c bare nested limits range
  have hreach : c.Reachable :=
    ⟨[.create .empty, .change 0 (.addKeyed "age" "age > @age" false)], .clause 0, rfl⟩
  have hkeyed : ∀ op ∈ [nested, limits, range], op.appends = false := by
    simp [nested, limits, range, Op.appends]
  refine ⟨hreach, fun op hop => ?_, rfl, rfl, rfl, rfl⟩
  exact ⟨hkeyed op hop, (settles_of_not_appends hreach).1 op (hkeyed op hop)⟩

end Clause

end SqlCompose
