import Mathlib.Order.Defs.LinearOrder
import SqlCompose.Proofs.Clause.Fresh

/-! Conditions on a range, and their negations, read as statements on the values of a column. -/
namespace SqlCompose

universe u

variable {α : Type u} [LinearOrder α] {meaning : Value → α} {x : α} {column lowName highName : String}
  {low high : Option Typed} {negated : Bool} {placeholders : List String} {ps : List Param}

/-- What can stand between a column and its bounds. -/
inductive RangeOperator where
  | atLeast
  | atMost
  | below
  | above
  | between
  | notBetween
deriving DecidableEq, Repr

namespace RangeOperator

variable {o o' : RangeOperator}

def word : RangeOperator → String
  | .atLeast => ">="
  | .atMost => "<="
  | .below => "<"
  | .above => ">"
  | .between => "between"
  | .notBetween => "not between"

/-- A condition on a column in words, with placeholders for the bounds. -/
def text (o : RangeOperator) (column : String) (placeholders : List String) : String :=
  column ++ " " ++ o.word ++ " " ++ " and ".intercalate placeholders

/-- Whether a value is as the operator says, given the bounds in order. -/
def Holds (o : RangeOperator) (bounds : List α) (x : α) : Prop :=
  match o, bounds with
  | .atLeast, [a] => a ≤ x
  | .atMost, [b] => x ≤ b
  | .below, [a] => x < a
  | .above, [b] => b < x
  | .between, [a, b] => a ≤ x ∧ x ≤ b
  | .notBetween, [a, b] => ¬ (a ≤ x ∧ x ≤ b)
  | _, _ => False

theorem word_injective (h : o.word = o'.word) : o = o' := by
  cases o <;> cases o' <;> first | rfl | exact absurd h (by decide)

/-- A text is read in one way only. -/
theorem text_injective (h : o.text column placeholders = o'.text column placeholders) : o = o' := by
  have hfront := (String.append_left_inj _).mp h
  have hwords := (String.append_left_inj _).mp hfront
  exact word_injective ((String.append_right_inj _).mp hwords)

end RangeOperator

/-- What the clause says by a text about a value of the column: the placeholders stand for what the
clause binds to them. -/
def Clause.Says (c : Clause) (meaning : Value → α) (column : String) (placeholders : List String)
    (text : String) (x : α) : Prop :=
  ∃ (o : RangeOperator) (bounds : List Param), text = o.text column placeholders ∧
    placeholders.map c.param? = bounds.map some ∧ o.Holds (bounds.map fun p => meaning p.value) x

theorem Clause.says_text {c : Clause} {o : RangeOperator}
    (h : placeholders.map c.param? = ps.map some) :
    c.Says meaning column placeholders (o.text column placeholders) x ↔
      o.Holds (ps.map fun p => meaning p.value) x := by
  constructor
  · rintro ⟨o', bounds, htext, hbounds, hholds⟩
    obtain rfl : o = o' := RangeOperator.text_injective htext
    have hsame : ps = bounds :=
      List.map_injective_iff.mpr (Option.some_injective _) (h.symm.trans hbounds)
    rwa [hsame]
  · intro hholds
    exact ⟨o, ps, rfl, h, hholds⟩

namespace Filter

/-- The parameters for the bounds that are present. -/
def bounds (lowName : String) (low : Option Typed) (highName : String) (high : Option Typed) :
    List Param :=
  low.toList.map (·.toParam lowName) ++ high.toList.map (·.toParam highName)

/-- The operator of a range, or of its negation, for the bounds that are present. -/
def rangeOperator (negated : Bool) (low high : Option Typed) : RangeOperator :=
  match low, high with
  | some _, some _ => if negated then .notBetween else .between
  | some _, none => if negated then .below else .atLeast
  | none, _ => if negated then .above else .atMost

/-- Whether a value respects each bound that is present. -/
def Respects (meaning : Value → α) (low high : Option Typed) (x : α) : Prop :=
  (∀ a ∈ low, meaning a.value ≤ x) ∧ ∀ b ∈ high, x ≤ meaning b.value

theorem exists_predicate?_between (negated : Bool) (column lowName highName : String)
    (h : low.isSome ∨ high.isSome) :
    ∃ p, (Filter.between negated column lowName low highName high).predicate? = some p ∧
      p.text = (rangeOperator negated low high).text column
        ((bounds lowName low highName high).map Param.name) := by
  cases low with
  | none =>
    obtain ⟨b, rfl⟩ := Option.isSome_iff_exists.mp (h.resolve_left (by simp))
    cases negated <;> exact ⟨_, rfl, rfl⟩
  | some a =>
    cases high with
    | none => cases negated <;> exact ⟨_, rfl, rfl⟩
    | some b =>
      refine ⟨_, rfl, ?_⟩
      have hnames : (bounds lowName (some a) highName (some b)).map Param.name =
          [lowName, highName] := rfl
      have hand : " and ".intercalate [lowName, highName] = lowName ++ " and " ++ highName := rfl
      rw [hnames, RangeOperator.text, hand]
      cases negated <;> simp [Predicate.text, Predicate.operator, rangeOperator, RangeOperator.word,
        Typed.toParam, String.append_assoc]

/-- The operator holds what respects the bounds, and that of the negation holds the rest. -/
theorem holds_rangeOperator (h : low.isSome ∨ high.isSome) :
    (rangeOperator negated low high).Holds
        ((bounds lowName low highName high).map fun p => meaning p.value) x ↔
      if negated then ¬ Respects meaning low high x else Respects meaning low high x := by
  cases low with
  | none =>
    obtain ⟨b, rfl⟩ := Option.isSome_iff_exists.mp (h.resolve_left (by simp))
    cases negated <;> simp [bounds, rangeOperator, RangeOperator.Holds, Respects, Typed.toParam]
  | some a =>
    cases high with
    | none =>
      cases negated <;> simp [bounds, rangeOperator, RangeOperator.Holds, Respects, Typed.toParam]
    | some b =>
      cases negated <;> simp [bounds, rangeOperator, RangeOperator.Holds, Respects, Typed.toParam]

end Filter

namespace Clause

variable {c : Clause}

theorem freshFor_between (negated : Bool) (column : String) (hdistinct : lowName ≠ highName)
    (hlow : low.isSome → c.Lacks lowName) (hhigh : high.isSome → c.Lacks highName) :
    c.FreshFor [.between negated column lowName low highName high] := by
  refine .of_lacks rfl ?_ fun q hq => ?_
  · cases low <;> cases high <;> simp [Filter.supplied, Typed.toParam, hdistinct]
  · rcases List.mem_append.mp hq with hq | hq
    · obtain ⟨a, ha, rfl⟩ := List.mem_map.mp hq
      exact hlow (Option.isSome_of_mem (Option.mem_toList.mp ha))
    · obtain ⟨b, hb, rfl⟩ := List.mem_map.mp hq
      exact hhigh (Option.isSome_of_mem (Option.mem_toList.mp hb))

/-- What a range or its negation adds, if a bound is present and the clause has no use for the names. -/
theorem FreshFor.addFilter_between (hc : c.WellFormed) (hsome : low.isSome ∨ high.isSome)
    (h : c.FreshFor [.between negated column lowName low highName high]) (meaning : Value → α) :
    let o := c.addFilter (.between negated column lowName low highName high)
    let bounds := Filter.bounds lowName low highName high
    o.fault = none ∧ o.state.paramList = c.paramList ++ bounds ∧
      ∃ t, o.state.expressions.toList = c.expressions.toList ++ [t] ∧
        ∀ x, o.state.Says meaning column (bounds.map Param.name) t x ↔
          if negated then ¬ Filter.Respects meaning low high x
          else Filter.Respects meaning low high x := by
  intro o bounds
  obtain ⟨p, hp, htext⟩ := Filter.exists_predicate?_between negated column lowName highName hsome
  obtain ⟨hfault, htexts, hparams⟩ := h.addFilter hp
  have hbound : (bounds.map Param.name).map o.state.param? = bounds.map some := by
    rw [List.map_map]
    exact List.map_congr_left fun q hq => h.param?_addFilter hc hp hq
  refine ⟨hfault, hparams, p.text, htexts, fun x => ?_⟩
  rw [htext, says_text hbound]
  exact Filter.holds_rangeOperator hsome

/-- A range and its negation with the same bounds, one or two of them, bind these bounds alike and say
the opposite of each other: the one holds a value that respects the bounds, the other any other value.
Without bounds neither changes anything. -/
theorem range_and_negation_complementary (meaning : Value → α) (column : String)
    (low high : Option Typed) (hc : c.Reachable) (hdistinct : lowName ≠ highName)
    (hlow : low.isSome → c.Lacks lowName) (hhigh : high.isSome → c.Lacks highName) :
    let inside := c.addFilter (.between false column lowName low highName high)
    let outside := c.addFilter (.between true column lowName low highName high)
    let bounds := Filter.bounds lowName low highName high
    let names := bounds.map Param.name
    (low = none → high = none → inside = .accept c ∧ outside = .accept c) ∧
      (low.isSome ∨ high.isSome →
        inside.fault = none ∧ outside.fault = none ∧
          inside.state.paramList = c.paramList ++ bounds ∧
          outside.state.paramList = c.paramList ++ bounds ∧
          ∃ t u, inside.state.expressions.toList = c.expressions.toList ++ [t] ∧
            outside.state.expressions.toList = c.expressions.toList ++ [u] ∧
            ∀ x, (inside.state.Says meaning column names t x ↔
                (∀ a ∈ low, meaning a.value ≤ x) ∧ ∀ b ∈ high, x ≤ meaning b.value) ∧
              (outside.state.Says meaning column names u x ↔
                ¬ inside.state.Says meaning column names t x)) := by
  intro inside outside bounds names
  refine ⟨?_, fun hsome => ?_⟩
  · rintro rfl rfl
    exact ⟨rfl, rfl⟩
  have hwell : c.WellFormed := invariant_wellFormed.reachable hc
  have hfresh : ∀ negated, c.FreshFor [.between negated column lowName low highName high] :=
    fun negated => freshFor_between negated column hdistinct hlow hhigh
  obtain ⟨hinFault, hinParams, t, ht, hin⟩ :=
    (hfresh false).addFilter_between hwell hsome meaning
  obtain ⟨houtFault, houtParams, u, hu, hout⟩ :=
    (hfresh true).addFilter_between hwell hsome meaning
  refine ⟨hinFault, houtFault, hinParams, houtParams, t, u, ht, hu, fun x => ⟨hin x, ?_⟩⟩
  exact (hout x).trans (not_congr (hin x)).symm

/-- Ages within two bounds, and ages with an upper bound alone. -/
theorem range_and_negation_complementary_ages :
    let c := whereList .and
    let years : Value → Int := fun v => match v with
      | .int32 n => n.toInt
      | _ => 0
    let low : Option Typed := some ⟨.int32, (18 : Int32)⟩
    let high : Option Typed := some ⟨.int32, (65 : Int32)⟩
    let inside := (c.addFilter (.between false "age" "@low" low "@high" high)).state
    let outside := (c.addFilter (.between true "age" "@low" low "@high" high)).state
    let above := (c.addFilter (.between true "age" "@low" none "@high" high)).state
    c.Reachable ∧ "@low" ≠ "@high" ∧ c.Lacks "@low" ∧ c.Lacks "@high" ∧
      inside.Says years "age" ["@low", "@high"] "age between @low and @high" 18 ∧
      outside.Says years "age" ["@low", "@high"] "age not between @low and @high" 66 ∧
      ¬ above.Says years "age" ["@high"] "age > @high" 65 := by
  intro c years low high inside outside above
  have hreach : c.Reachable := ⟨[.create (.whereList .and)], .clause 0, rfl⟩
  have hdistinct : "@low" ≠ "@high" := by decide
  have hlow : c.Lacks "@low" := ⟨by decide, by decide, by decide⟩
  have hhigh : c.Lacks "@high" := ⟨by decide, by decide, by decide⟩
  obtain ⟨-, hboth⟩ := range_and_negation_complementary years "age" low high hreach
    hdistinct (fun _ => hlow) fun _ => hhigh
  obtain ⟨-, -, -, -, t, u, ht, hu, hages⟩ := hboth (.inl rfl)
  obtain rfl : "age between @low and @high" = t := (List.cons.inj ht).1
  obtain rfl : "age not between @low and @high" = u := (List.cons.inj hu).1
  obtain ⟨-, hone⟩ := range_and_negation_complementary years "age" none high hreach
    hdistinct (fun h => absurd h (by decide)) fun _ => hhigh
  obtain ⟨-, -, -, -, v, w, hv, hw, habove⟩ := hone (.inr rfl)
  obtain rfl : "age > @high" = w := (List.cons.inj hw).1
  refine ⟨hreach, hdistinct, hlow, hhigh, (hages 18).1.mpr (by decide), ?_, ?_⟩
  · exact (hages 66).2.mpr fun h => absurd ((hages 66).1.mp h) (by decide)
  · exact fun h => (habove 65).2.mp h ((habove 65).1.mpr (by decide))

end Clause

end SqlCompose
