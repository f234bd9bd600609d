import Mathlib.Logic.Function.Iterate
import SqlCompose.Proofs.Clause.Supplied
import SqlCompose.Proofs.Value.Dump

/-!
Types that agree with values: a program that makes its parameters out of values never binds one
under the type of another.
-/
namespace SqlCompose

namespace Typed

/-- The tag found from the type is the one found from the value. -/
theorem toParam_eq_ofValue (v : Typed) (name : String) :
    v.toParam name = .ofValue name v.value := by
  rw [toParam, Param.ofValue, value, SqlType.tag_toValue]

/-- A reference to a reference and so on leads to the value. -/
theorem value_iterate_byRef (v : Typed) (n : Nat) : (byRef^[n] v).value = v.value := by
  induction n generalizing v with
  | zero => rfl
  | succ n ih => exact ih v.byRef

end Typed

namespace Clause

variable {c : Clause} {op : Op} {p : Param}

/-- The parameters that a clause binds are made out of values. -/
def AllMade (c : Clause) : Prop := ∀ p ∈ c.paramList, p.Made

theorem made_of_mem_supplied {f : Filter} (hp : p ∈ f.supplied) : p.Made := by
  cases f with
  | compare column op name value =>
    obtain ⟨v, -, rfl⟩ := List.mem_map.mp hp
    exact .toParam v name
  | between negated column lowName low highName high =>
    rcases List.mem_append.mp hp with hp | hp
    · obtain ⟨v, -, rfl⟩ := List.mem_map.mp hp
      exact .toParam v lowName
    · obtain ⟨v, -, rfl⟩ := List.mem_map.mp hp
      exact .toParam v highName
  | member negated column name values =>
    obtain ⟨i, hi, rfl⟩ := List.mem_mapIdx.mp hp
    exact .toParam _ _
  | pattern negated anchor column name value =>
    obtain ⟨s, -, rfl⟩ := List.mem_map.mp hp
    exact .toParam _ name

theorem mem_params_of_mem_checkedOf {q : Predicate} (hp : p ∈ c.checkedOf q) : p ∈ q.params := by
  rw [checkedOf] at hp
  split at hp
  · cases hp
  · exact hp

/-- What an operation checks was given ready or comes from typed values. -/
theorem made_of_mem_checked (hready : ∀ p ∈ op.ready, p.Made) (hp : p ∈ c.checked op) :
    p.Made := by
  cases op with
  | addKeyedWithParams key text ps overwrite =>
    rw [checked] at hp
    split at hp
    · cases hp
    · exact hready p hp
  | addParam q => exact hready p hp
  | addParams ps => exact hready p hp
  | addPredicate q => exact hready p (mem_params_of_mem_checkedOf hp)
  | addFilter f =>
    rw [checked] at hp
    cases hf : f.predicate? with
    | none =>
      rw [hf] at hp
      cases hp
    | some q =>
      rw [hf] at hp
      apply made_of_mem_supplied (f := f)
      rw [Filter.supplied_of_predicate? hf]
      exact mem_params_of_mem_checkedOf hp
  | _ => cases hp

/-- What else an operation is about to bind is taken from a clause that it reads. -/
theorem made_of_mem_offered (hread : op.Reads AllMade) (hready : ∀ p ∈ op.ready, p.Made)
    (hp : p ∈ c.offered op) : p.Made := by
  cases op with
  | addClause other => exact hread p hp
  | addKeyedClause key other overwrite =>
    rw [offered] at hp
    split at hp
    · exact hread p hp
    · cases hp
  | _ => exact made_of_mem_checked (c := c) hready hp

theorem AllMade.apply (h : c.AllMade) (hread : op.Reads AllMade)
    (hready : ∀ p ∈ op.ready, p.Made) : (c.apply op).state.AllMade := by
  intro p hp
  rw [paramList, params_apply] at hp
  rcases KeyedSeq.mem_or_mem_of_mem_insertAll hp with hp | hp
  · exact h p hp
  · rw [handed] at hp
    split at hp
    · cases hp
    · exact made_of_mem_offered hread hready hp

/-- A clause that is made from nothing binds nothing. -/
theorem params_origin (o : Origin) : o.clause.params = ∅ := by
  cases o with
  | ofText text => exact params_add empty text
  | insertInto table columns => exact params_add (ofFormat _) _
  | selectList columns => exact params_addAll (ofFormat _) columns
  | groupByList columns => exact params_addAll (ofFormat _) columns
  | orderByList columns => exact params_addAll (ofFormat _) columns
  | insertColumns columns => exact params_addAll (ofFormat _) columns
  | _ => rfl

theorem invariantOn_allMade : InvariantOn Param.Made AllMade where
  origin o := by
    intro p hp
    rw [paramList, params_origin] at hp
    cases hp
  apply op hc hread hready := hc.apply hread hready
  typed := .toParam

/-- A typed value is bound as its plain value is, through any number of references. And in a program whose
ready parameters are made out of values, every parameter has the type of its value, in every clause, every
part of a select statement, and everything that is or could be built. -/
theorem tag_eq_tag_value :
    (∀ (v : Typed) (n : Nat) (name : String),
      (Typed.byRef^[n] v).toParam name = .ofValue name v.value) ∧
    ∀ ops : List Session.Op, (∀ op ∈ ops, ∀ p ∈ op.ready, p.Made) →
      (∀ place c, (Session.run ops).clause? place = some c →
        ∀ p ∈ c.paramList, p.tag = p.value.tag) ∧
      ∀ t ∈ (Session.run ops).selects, ∀ p ∈ t.build.value.1.paramList, p.tag = p.value.tag := by
  constructor
  · intro v n name
    rw [Typed.toParam_eq_ofValue, Typed.value_iterate_byRef]
  · intro ops hready
    have hrun : (Session.run ops).Each AllMade (Select.All AllMade) :=
      invariantOn_allMade.run hready
    constructor
    · intro place c hc p hp
      exact (hrun.clause? (fun _ ht => ht) hc p hp).tag_eq
    · intro t ht p hp
      have hmem : t.build.value.1 ∈ t.built [.build] := List.mem_singleton.mpr rfl
      have hbuilt : t.build.value.1.AllMade := invariantOn_allMade.built (hrun.2 t ht) hmem
      exact (hbuilt p hp).tag_eq

/-- A name that is bound to a truth value, a number behind a reference, a text and a limit, in a clause
that is merged into a part of the select statement; a numbered list and a pattern beside it. -/
theorem tag_eq_tag_value_overwritten :
    let truth : Param := .ofValue "@p" (.bool true)
    let text : Param := (Typed.ofText "x").toParam "@p"
    let number : Typed := ⟨.int32, (7 : Int32)⟩
    let ops : List Session.Op :=
      [.create (.whereList .and), .change 0 (.addParam truth),
        .change 0 (.addFilter (.compare "a" .equal "@p" (some number.byRef))),
        .change 0 (.addFilter (.pattern false .atStart "b" "@q" (some "x"))),
        .createSelect "t", .changeSelect 0 (.edit .selectList (.addParams [text])),
        .changeSelect 0 (.top (some ⟨.int64, (5 : Int64)⟩) "@p"),
        .changeSelect 0
          (.edit .whereList (.addFilter (.member false "c" "@p" (some [number.byRef.byRef])))),
        .changeSelect 0 (.edit .whereList (.addClause (.clause 0))), .changeSelect 0 .build]
    number.byRef.byRef.toParam "@p" = .ofValue "@p" (.int32 7) ∧
      (∀ op ∈ ops, ∀ p ∈ op.ready, p.Made) ∧
      ∃ c, (Session.run ops).clause? (.clause 1) = some c ∧
        c.paramList.map (fun p => (p.name, p.tag)) =
          [("@p", .int32), ("@p1", .int32), ("@q", .text)] ∧
        ∀ p ∈ c.paramList, p.tag = p.value.tag := by
  intro truth text number ops
  have hready : ∀ op ∈ ops, ∀ p ∈ op.ready, p.Made := by
    intro op hop p hp
    have hmem : p ∈ [truth, text] := List.mem_flatMap.mpr ⟨op, hop, hp⟩
    rcases List.mem_pair.mp hmem with rfl | rfl
    · exact .ofValue "@p" (.bool true)
    · exact .toParam (.ofText "x") "@p"
  have hbound : ((Session.run ops).clause? (.clause 1)).map
      (fun c => c.paramList.map fun p => (p.name, p.tag)) =
        some [("@p", .int32), ("@p1", .int32), ("@q", .text)] := by decide +kernel
  obtain ⟨c, hc, hnames⟩ := Option.map_eq_some_iff.mp hbound
  obtain ⟨htyped, hrun⟩ := tag_eq_tag_value
  exact ⟨htyped number 2 "@p", hready, c, hc, hnames, (hrun ops hready).1 _ c hc⟩

end Clause

end SqlCompose
