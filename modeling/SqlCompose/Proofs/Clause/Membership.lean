import SqlCompose.Proofs.Clause.Atomic
import SqlCompose.Proofs.Clause.Supplied

/-!
Conditions on a list of values, each of which is bound under the name of the list with its own
number behind it.
-/
namespace SqlCompose

namespace Filter

variable {name : String} {vs : List Typed}

/-- The name under which the value at a position of a list is bound; values are counted from one. -/
def placeholder (name : String) (i : Nat) : String := name ++ toString (i + 1)

theorem placeholder_injective {i j : Nat} (h : placeholder name i = placeholder name j) : i = j := by
  have hdigits : Nat.toDigits 10 (i + 1) = Nat.toDigits 10 (j + 1) := by
    simpa [placeholder] using congrArg String.toList h
  have hnumber : i + 1 = j + 1 := by
    rw [← Nat.ofDigitChars_ten_toDigits (n := i + 1), hdigits, Nat.ofDigitChars_ten_toDigits]
  exact Nat.succ_injective hnumber

theorem placeholder_ne_empty (name : String) (i : Nat) : placeholder name i ≠ "" := by
  simp [placeholder]

/-- The parameters that bind the values of a list, each under a name of its own. -/
def placed (name : String) (vs : List Typed) : List Param :=
  vs.mapIdx fun i v => v.toParam (placeholder name i)

theorem mem_placed {q : Param} :
    q ∈ placed name vs ↔
      ∃ (i : Nat) (v : Typed), vs[i]? = some v ∧ q = v.toParam (placeholder name i) := by
  rw [placed, List.mem_mapIdx]
  constructor
  · rintro ⟨i, hi, rfl⟩
    exact ⟨i, vs[i], List.getElem?_eq_getElem hi, rfl⟩
  · rintro ⟨i, v, hv, rfl⟩
    obtain ⟨hi, rfl⟩ := List.getElem?_eq_some_iff.mp hv
    exact ⟨i, hi, rfl⟩

theorem map_name_placed (name : String) (vs : List Typed) :
    (placed name vs).map Param.name = (List.range vs.length).map (placeholder name) := by
  apply List.ext_getElem
  · simp [placed]
  · intro i _ _
    simp [placed, Typed.toParam]

/-- No name has two numbers behind it, so the names are distinct, however long the list is. -/
theorem nodup_names_placed (name : String) (vs : List Typed) :
    ((placed name vs).map Param.name).Nodup := by
  rw [map_name_placed]
  exact List.nodup_range.map fun _ _ => placeholder_injective

/-- A list that is not empty asks for a condition, whose key is the name of the list. -/
theorem exists_predicate?_member (negated : Bool) (column name : String) (hvs : vs ≠ []) :
    ∃ p, (Filter.member negated column name (some vs)).predicate? = some p ∧ p.key = name ∧
      p.text = column ++ " " ++ (if negated then "not in" else "in") ++ " (" ++
        ", ".intercalate ((List.range vs.length).map (placeholder name)) ++ ")" := by
  obtain ⟨v, rest, rfl⟩ := List.exists_cons_of_ne_nil hvs
  refine ⟨_, rfl, rfl, ?_⟩
  have hnumbered : numbered name 1 (v :: rest) = placed name (v :: rest) :=
    numbered_eq_mapIdx name 1 (v :: rest)
  rw [Predicate.text, hnumbered, map_name_placed]
  cases negated <;> rfl

end Filter

namespace Clause

variable {c : Clause} {name : String} {vs : List Typed}

/-- A condition on a list of values is accepted if its name is no key yet, be the name what it may. It
becomes one more expression, under that name, and no two values share a placeholder: each is bound to
its own, with its type, where the placeholder was bound before or behind the other parameters. Nothing
else changes. -/
theorem list_binds_each_value_once (hc : c.Reachable) (hkey : c.containsExpression name = false)
    (hvs : vs ≠ []) (negated : Bool) (column : String) :
    let o := c.addFilter (.member negated column name (some vs))
    let d := o.state
    let names := (List.range vs.length).map (Filter.placeholder name)
    let ps := Filter.placed name vs
    o.fault = none ∧
      d.expressions.toList = c.expressions.toList ++
        [column ++ " " ++ (if negated then "not in" else "in") ++ " (" ++ ", ".intercalate names ++
          ")"] ∧
      (∀ k, d.expressions.indexOf? k =
        if k = name then some c.length else c.expressions.indexOf? k) ∧
      names.Nodup ∧
      (∀ i v, vs[i]? = some v →
        d.param? (Filter.placeholder name i) = some (v.toParam (Filter.placeholder name i))) ∧
      d.paramList =
        c.paramList.map (fun p => (KeyedSeq.latest? Param.name ps p.name).getD p) ++
          ps.filter (fun p => !c.containsParam p.name) ∧
      (∀ n, n ∉ names → d.param? n = c.param? n) ∧ d.format = c.format ∧
      c.addFilter (.memberOf negated column name vs) = o := by
  intro o d names ps
  have hwell : c.WellFormed := invariant_wellFormed.reachable hc
  obtain ⟨p, hp, hpkey, htext⟩ := Filter.exists_predicate?_member negated column name hvs
  subst hpkey
  have hparams : p.params = ps := (Filter.supplied_of_predicate? hp).symm
  have hnamed : ∀ q ∈ (Filter.member negated column p.key (some vs)).supplied, q.name ≠ "" := by
    intro q hq
    obtain ⟨i, v, -, rfl⟩ := Filter.mem_placed.mp hq
    exact Filter.placeholder_ne_empty p.key i
  obtain ⟨hfault, hstate⟩ := addFilter_of_new hp hnamed hkey
  have hd : d = c.withPredicate p := hstate
  have hjoins : c.Joins p.key p.text p.params d := by
    rw [hd]
    exact joins_withPredicate hwell hkey
  rw [hparams] at hjoins
  have hnames : ps.map Param.name = names := Filter.map_name_placed p.key vs
  have hdistinct : (ps.map Param.name).Nodup := Filter.nodup_names_placed p.key vs
  have hnew : c.expressions.indexOf? p.key = none := KeyedSeq.indexOf?_eq_none_iff.mpr hkey
  refine ⟨hfault, ?_, fun k => ?_, hnames ▸ hdistinct, fun i v hv => ?_, ?_, fun n hn => ?_,
    hjoins.format, rfl⟩
  · rw [hd, toList_withPredicate hkey, htext]
  · rw [hjoins.indexOf? k, hnew, Option.getD_none]
  · exact hjoins.param?_of_mem hdistinct (Filter.mem_placed.mpr ⟨i, v, hv, rfl⟩)
  · have hmerged : d.params = c.params.insertAll Param.name ps := by rw [hd, withPredicate, hparams]
    rw [paramList, hmerged]
    exact hwell.bound.toList_insertAll hdistinct
  · exact hjoins.param?_of_not_mem (hnames.symm ▸ hn)

/-- A list of which the second placeholder is bound before, to a value of another type. -/
theorem list_binds_each_value_once_ids :
    let c := ((whereList .and).addParam (.ofValue "@id2" (.bool true))).state
    let vs : List Typed := [⟨.int32, (7 : Int32)⟩, ⟨.text, "x"⟩, ⟨.int64, (9 : Int64)⟩]
    let o := c.addFilter (.member true "id" "@id" (some vs))
    c.Reachable ∧ c.containsExpression "@id" = false ∧ vs ≠ [] ∧ o.fault = none ∧
      o.state.expressions.toList = ["id not in (@id1, @id2, @id3)"] ∧
      o.state.expressions.indexOf? "@id" = some 0 ∧
      o.state.param? "@id3" = some (.ofValue "@id3" (.int64 9)) ∧
      o.state.paramList =
        [.ofValue "@id2" (.text "x"), .ofValue "@id1" (.int32 7), .ofValue "@id3" (.int64 9)] := by
  intro c vs o
  have hreach : c.Reachable :=
    ⟨[.create (.whereList .and), .change 0 (.addParam (.ofValue "@id2" (.bool true)))],
      .clause 0, rfl⟩
  have hvs : vs ≠ [] := List.cons_ne_nil _ _
  obtain ⟨hfault, htexts, hkeys, -, hbound, hparams, -⟩ :=
    list_binds_each_value_once hreach rfl hvs true "id"
  exact ⟨hreach, rfl, hvs, hfault, htexts, hkeys "@id", hbound 2 ⟨.int64, (9 : Int64)⟩ rfl, hparams⟩

end Clause

end SqlCompose
