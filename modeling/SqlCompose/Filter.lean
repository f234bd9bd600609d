import SqlCompose.Clause.Basic
import SqlCompose.Like

/-! Conditions on a column, and filters that ask for one only if their values are present. -/
namespace SqlCompose

/-- The comparisons of a column with one value. -/
inductive Comparison where
  | equal
  | notEqual
  | greater
  | greaterOrEqual
  | less
  | lessOrEqual
  | like
  | notLike
deriving DecidableEq, Repr

def Comparison.symbol : Comparison → String
  | .equal => "="
  | .notEqual => "<>"
  | .greater => ">"
  | .greaterOrEqual => ">="
  | .less => "<"
  | .lessOrEqual => "<="
  | .like => "like"
  | .notLike => "not like"

/-- A condition on a column. -/
inductive Predicate where
  /-- The column compared with a value. -/
  | compare (column : String) (op : Comparison) (param : Param)
  /-- The column between two values, ends included, or its negation. -/
  | between (negated : Bool) (column : String) (low high : Param)
  /-- The column among some values, or its negation. -/
  | member (negated : Bool) (column key : String) (params : List Param)

namespace Predicate

/-- The operator of a condition that can be negated. -/
def operator (negated : Bool) (word : String) : String := if negated then "not " ++ word else word

/-- The key under which the condition is added: the name of its only or first parameter, or the name
given to its list. -/
def key : Predicate → String
  | .compare _ _ p => p.name
  | .between _ _ low _ => low.name
  | .member _ _ key _ => key

/-- The condition in words, with the names of the parameters in the places of the values. -/
def text : Predicate → String
  | .compare column op p => column ++ " " ++ op.symbol ++ " " ++ p.name
  | .between negated column low high =>
    column ++ " " ++ operator negated "between" ++ " " ++ low.name ++ " and " ++ high.name
  | .member negated column _ ps =>
    column ++ " " ++ operator negated "in" ++ " (" ++ ", ".intercalate (ps.map Param.name) ++ ")"

/-- The parameters in the order in which the text mentions them. -/
def params : Predicate → List Param
  | .compare _ _ p => [p]
  | .between _ _ low high => [low, high]
  | .member _ _ _ ps => ps

/-- Whether the condition compares with no value at all. -/
def isVacuous (p : Predicate) : Bool := p.params.isEmpty

end Predicate

/-- Adds a condition with its parameters. One that compares with nothing is left out, and so is one
whose key is present. -/
def Clause.addPredicate (c : Clause) (p : Predicate) : Outcome Clause :=
  if p.isVacuous then .accept c else c.addKeyedWithParams p.key p.text p.params false

/-- A condition on a column with the values themselves and the names to bind them under. -/
inductive Filter where
  | compare (column : String) (op : Comparison) (name : String) (value : Option Typed)
  /-- The column between two bounds, ends included, or its negation. -/
  | between (negated : Bool) (column lowName : String) (low : Option Typed) (highName : String)
      (high : Option Typed)
  /-- The column among some values, or its negation. -/
  | member (negated : Bool) (column name : String) (values : Option (List Typed))
  /-- A text in the column, at the given place, or its absence there. -/
  | pattern (negated : Bool) (anchor : Like.Anchor) (column name : String) (value : Option String)

namespace Filter

/-- The condition on a list of values that is always there. -/
def memberOf (negated : Bool) (column name : String) (values : List Typed) : Filter :=
  .member negated column name (some values)

/-- The parameters of a list of values: the name with the number of the value behind it, counted
from the given number. -/
def numbered (name : String) : Nat → List Typed → List Param
  | _, [] => []
  | n, v :: vs => v.toParam (name ++ toString n) :: numbered name (n + 1) vs

/-- The condition to add, if the values present ask for one. -/
def predicate? : Filter → Option Predicate
  | .compare column op name value => value.map fun v => .compare column op (v.toParam name)
  | .between negated column lowName low highName high =>
    match low, high with
    | some a, some b => some (.between negated column (a.toParam lowName) (b.toParam highName))
    | some a, none =>
      some (.compare column (if negated then .less else .greaterOrEqual) (a.toParam lowName))
    | none, some b =>
      some (.compare column (if negated then .greater else .lessOrEqual) (b.toParam highName))
    | none, none => none
  | .member negated column name values =>
    match values with
    | none | some [] => none
    | some vs => some (.member negated column name (numbered name 1 vs))
  | .pattern negated anchor column name value =>
    (value.filter fun s => !s.isEmpty).map fun s =>
      let pattern := Typed.ofText (.ofList (anchor.pattern s.toList))
      .compare column (if negated then .notLike else .like) (pattern.toParam name)

end Filter

/-- Adds the condition of a filter, if it asks for one. -/
def Clause.addFilter (c : Clause) (f : Filter) : Outcome Clause :=
  match f.predicate? with
  | none => .accept c
  | some p => c.addPredicate p

end SqlCompose
