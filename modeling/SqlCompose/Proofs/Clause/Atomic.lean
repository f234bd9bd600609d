import SqlCompose.Proofs.Clause.Log
import SqlCompose.Proofs.Clause.Written
import SqlCompose.Proofs.KeyedSeq.Permanence

/-! An expression under a key together with its parameters: both are added or neither is. -/
namespace SqlCompose.Clause

variable {c d : Clause} {key text : String} {ps : List Param} {overwrite : Bool}

/-- Whether an addition under a key is left out: it has no text, or the key is present and may not be
overwritten. -/
def Ignores (c : Clause) (key text : String) (overwrite : Bool) : Prop :=
  text = "" ∨ c.containsExpression key = true ∧ overwrite = false

/-- The clause `d` is `c` with a text under a key and with some parameters bound, and differs from it
in nothing else. -/
structure Joins (c : Clause) (key text : String) (ps : List Param) (d : Clause) : Prop where
  /-- The text stands where the key leads, or behind the others, and these stay. -/
  get? : ∀ i, d.expressions.get? i =
    if i = (c.expressions.indexOf? key).getD c.length then some text else c.expressions.get? i
  indexOf? : ∀ k, d.expressions.indexOf? k =
    if k = key then some ((c.expressions.indexOf? key).getD c.length)
    else c.expressions.indexOf? k
  /-- A name is bound to the last of the parameters that carries it, or else to what it was bound to. -/
  param? : ∀ n, d.param? n = (KeyedSeq.latest? Param.name ps n).or (c.param? n)
  /-- No parameter is moved. -/
  param_indexOf? : ∀ n i, c.params.indexOf? n = some i → d.params.indexOf? n = some i
  format : d.format = c.format

theorem ignores_iff :
    c.Ignores key text overwrite ↔
      (text.isEmpty || !c.expressions.accepts key overwrite) = true := by
  have haccepts : c.expressions.accepts key overwrite = (overwrite || !c.containsExpression key) :=
    rfl
  rw [haccepts, Ignores]
  cases overwrite <;> simp

theorem addKeyedWithParams_of_ignores (h : c.Ignores key text overwrite) (ps : List Param) :
    c.addKeyedWithParams key text ps overwrite = .accept c := by
  rw [addKeyedWithParams, if_pos (ignores_iff.mp h)]

/-- The clause with an expression under a key, where the addition is not left out. -/
theorem value_addKeyed_of_not_ignores (h : ¬ c.Ignores key text overwrite) :
    (c.addKeyed key text overwrite).value =
      { c with expressions := c.expressions.insert key text overwrite } := by
  have htext : ¬ text.isEmpty = true := fun ht => h (.inl (String.isEmpty_iff.mp ht))
  rw [value_addKeyed, if_neg htext]

/-- Both steps in one end as they do one after the other. -/
theorem addKeyedWithParams_of_not_ignores (h : ¬ c.Ignores key text overwrite)
    (hps : ∀ p ∈ ps, p.name ≠ "") :
    c.addKeyedWithParams key text ps overwrite =
      (c.addKeyed key text overwrite).value.addParams ps := by
  have hnamed : allNamed ps = true := allNamed_iff.mpr hps
  rw [addKeyedWithParams, if_neg (mt ignores_iff.mpr h), if_pos hnamed, addParams, if_pos hnamed,
    value_addKeyed_of_not_ignores h]

theorem addKeyedWithParams_of_unnamed (h : ¬ c.Ignores key text overwrite)
    (hps : ∃ p ∈ ps, p.name = "") :
    c.addKeyedWithParams key text ps overwrite = .refuse c .unnamedParam := by
  have hunnamed : ¬ allNamed ps = true := by
    obtain ⟨p, hp, hname⟩ := hps
    exact fun hall => allNamed_iff.mp hall p hp hname
  rw [addKeyedWithParams, if_neg (mt ignores_iff.mpr h), if_neg hunnamed]

/-- What is neither left out nor refused is joined to the clause. -/
theorem joins_insert (hc : c.WellFormed) (h : c.expressions.accepts key overwrite = true)
    (text : String) (ps : List Param) :
    c.Joins key text ps
      { c with
        expressions := c.expressions.insert key text overwrite
        params := c.params.insertAll Param.name ps } := by
  have hext : (c.params.insertAll Param.name ps).Extends c.params := .insertAll c.params ps
  constructor
  · exact KeyedSeq.get?_insert hc.keys h text
  · intro k
    rw [KeyedSeq.indexOf?_insert]
    simp only [beq_iff_eq]
    rfl
  · exact KeyedSeq.find?_insertAll hc.bound.wellKeyed ps
  · intro n i hi
    exact (hext.indexOf?_iff n i (hc.bound.wellKeyed.lt_length hi)).mpr hi
  · rfl

theorem joins_addKeyed_addParams (hc : c.WellFormed) (h : ¬ c.Ignores key text overwrite)
    (hps : ∀ p ∈ ps, p.name ≠ "") :
    c.Joins key text ps ((c.addKeyed key text overwrite).value.addParams ps).state := by
  have haccepts : c.expressions.accepts key overwrite = true := by
    by_contra hno
    exact h (ignores_iff.mpr (by simp [hno]))
  have hstate : ((c.addKeyed key text overwrite).value.addParams ps).state =
      { c with
        expressions := c.expressions.insert key text overwrite
        params := c.params.insertAll Param.name ps } := by
    rw [addParams, if_pos (allNamed_iff.mpr hps), Outcome.state_ofTraced, value_insertParams,
      value_addKeyed_of_not_ignores h]
  rw [hstate]
  exact joins_insert hc haccepts text ps

/-- A condition that is taken is joined to the clause under its key. -/
theorem joins_withPredicate {p : Predicate} (hc : c.WellFormed)
    (h : c.containsExpression p.key = false) :
    c.Joins p.key p.text p.params (c.withPredicate p) :=
  joins_insert hc (by rw [accepts_false, h]; rfl) p.text p.params

/-- Parameters with names of their own are all found under these names. -/
theorem Joins.param?_of_mem (h : c.Joins key text ps d) (hdistinct : (ps.map Param.name).Nodup)
    {p : Param} (hp : p ∈ ps) : d.param? p.name = some p := by
  rw [h.param?, KeyedSeq.latest?_of_mem_of_nodup hdistinct hp, Option.some_or]

/-- The other names are bound to what they were bound to. -/
theorem Joins.param?_of_not_mem (h : c.Joins key text ps d) {name : String}
    (hname : name ∉ ps.map Param.name) : d.param? name = c.param? name := by
  have hnone : KeyedSeq.latest? Param.name ps name = none := by
    rw [KeyedSeq.latest?_eq_none_iff]
    rintro p hp rfl
    exact hname (List.mem_map_of_mem hp)
  rw [h.param?, hnone, Option.none_or]

/-- An expression under a key and its parameters are added together or not at all. They are left out
without a fault, whatever the names, if there is no text or the key is present and may not be
overwritten; then they are refused if a parameter has no name; and otherwise the clause ends as it does
when the expression is added first and the parameters are bound after that. -/
theorem both_or_neither (hc : c.Reachable) (key text : String) (ps : List Param)
    (overwrite : Bool) :
    let o := c.addKeyedWithParams key text ps overwrite
    let two := (c.addKeyed key text overwrite).value.addParams ps
    (c.Ignores key text overwrite → o = .accept c) ∧
      (¬ c.Ignores key text overwrite → (∃ p ∈ ps, p.name = "") → o = .refuse c .unnamedParam) ∧
      (¬ c.Ignores key text overwrite → (∀ p ∈ ps, p.name ≠ "") →
        o.fault = none ∧ two.fault = none ∧ o.state = two.state ∧ c.Joins key text ps o.state) ∧
      ∀ p, c.addKeyedWithParam key text p overwrite =
        c.addKeyedWithParams key text [p] overwrite := by
  intro o two
  refine ⟨fun h => addKeyedWithParams_of_ignores h ps, addKeyedWithParams_of_unnamed,
    fun h hps => ?_, fun p => rfl⟩
  have htwo : o = two := addKeyedWithParams_of_not_ignores h hps
  have haccepted : two.fault = none := by
    simp only [two, addParams, if_pos (allNamed_iff.mpr hps)]
    rfl
  refine ⟨htwo ▸ haccepted, haccepted, congrArg Outcome.state htwo, ?_⟩
  rw [htwo]
  exact joins_addKeyed_addParams (invariant_wellFormed.reachable hc) h hps

/-- An expression that takes the place of another while two parameters of one name are bound, one that
is left out in spite of a missing name, and one that is refused for it. -/
theorem both_or_neither_age :
    let c := (empty.addKeyed "age" "age > @age" false).value.add "id = 1"
    let limits : List Param := [.ofValue "@age" (.int32 65), .ofValue "@age" (.int32 70)]
    let unnamed : List Param := [.ofValue "@age" (.int32 65), .ofValue "" (.int32 70)]
    let o := c.addKeyedWithParams "age" "age < @age" limits true
    c.Reachable ∧ ¬ c.Ignores "age" "age < @age" true ∧ (∀ p ∈ limits, p.name ≠ "") ∧
      o.fault = none ∧ o.state.expressions.get? 0 = some "age < @age" ∧
      o.state.expressions.get? 1 = some "id = 1" ∧
      o.state.param? "@age" = some (.ofValue "@age" (.int32 70)) ∧
      c.Ignores "age" "age < @age" false ∧ (∃ p ∈ unnamed, p.name = "") ∧
      c.addKeyedWithParams "age" "age < @age" unnamed false = .accept c ∧
      c.addKeyedWithParams "age" "age < @age" unnamed true = .refuse c .unnamedParam := by
  intro c limits unnamed o
  have hreach : c.Reachable :=
    ⟨[.create .empty, .change 0 (.addKeyed "age" "age > @age" false), .change 0 (.add "id = 1")],
      .clause 0, rfl⟩
  have htaken : ¬ c.Ignores "age" "age < @age" true := by simp [Ignores]
  have hnamed : ∀ p ∈ limits, p.name ≠ "" := by simp [limits, Param.ofValue]
  have hunnamed : ∃ p ∈ unnamed, p.name = "" := by simp [unnamed, Param.ofValue]
  have hignored : c.Ignores "age" "age < @age" false := .inr ⟨rfl, rfl⟩
  obtain ⟨hfault, -, -, hjoins⟩ :=
    (both_or_neither hreach "age" "age < @age" limits true).2.2.1 htaken hnamed
  refine ⟨hreach, htaken, hnamed, hfault, hjoins.get? 0, hjoins.get? 1, hjoins.param? "@age",
    hignored, hunnamed, ?_, ?_⟩
  · exact (both_or_neither hreach "age" "age < @age" unnamed false).1 hignored
  · exact (both_or_neither hreach "age" "age < @age" unnamed true).2.1 htaken hunnamed

end SqlCompose.Clause
