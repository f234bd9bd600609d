import SqlCompose.Format.Basic
import SqlCompose.KeyedSeq.Basic
import SqlCompose.Param
import SqlCompose.Text.Cut

/-!
Clauses: pieces of text in order, the parameters that the text mentions, and the decoration that
turns them into one text.
-/
namespace SqlCompose

/-- Expressions may carry a key; parameters are keyed by their names. -/
structure Clause where
  expressions : KeyedSeq String String := ∅
  params : KeyedSeq String Param := ∅
  format : Format := {}

namespace Clause

def empty : Clause := {}

instance : Inhabited Clause := ⟨empty⟩

def ofFormat (f : Format) : Clause := { format := f }

/-- The text of the clause. -/
def sql (c : Clause) : String := c.format.render c.expressions.toList

instance : ToString Clause := ⟨sql⟩

def length (c : Clause) : Nat := c.expressions.length

def isEmpty (c : Clause) : Bool := c.expressions.isEmpty

def paramList (c : Clause) : List Param := c.params.toList

def paramCount (c : Clause) : Nat := c.params.length

def containsExpression (c : Clause) (key : String) : Bool := c.expressions.containsKey key

def containsParam (c : Clause) (name : String) : Bool := c.params.containsKey name

def param? (c : Clause) (name : String) : Option Param := c.params.find? name

/-- The JSON text of the parameters in order. -/
def paramsJsonText (c : Clause) : String := Json.arrayText (c.paramList.map Param.jsonText)

def decorate (c : Clause) (s : Format.Setting) : Clause := { c with format := c.format.set s }

/-- Appends an expression; the empty text is no expression. -/
def add (c : Clause) (text : String) : Clause :=
  if text.isEmpty then c else { c with expressions := c.expressions.push text }

def ofText (text : String) : Clause := empty.add text

def addAll (c : Clause) (texts : List String) : Clause := texts.foldl add c

/-- Puts an expression under a key. Without `overwrite` a present key keeps its expression, which is
reported. -/
def addKeyed (c : Clause) (key text : String) (overwrite : Bool) : Traced Clause := do
  if text.isEmpty then return c
  if !c.expressions.accepts key overwrite then Traced.report (.expressionIgnored key)
  return { c with expressions := c.expressions.insert key text overwrite }

/-- Binds a parameter. One of the same name is replaced where it stands, which is reported. -/
def insertParam (c : Clause) (p : Param) : Traced Clause := do
  if c.params.containsKey p.name then Traced.report (.paramOverwritten p.name)
  return { c with params := c.params.insert p.name p true }

def insertParams (c : Clause) (ps : List Param) : Traced Clause := ps.foldlM insertParam c

/-- Whether every parameter of a list has a name. -/
def allNamed (ps : List Param) : Bool := ps.all fun p => !p.name.isEmpty

/-- Binds parameters in order, all of them or, if one has no name, none. -/
def addParams (c : Clause) (ps : List Param) : Outcome Clause :=
  if allNamed ps then .ofTraced (c.insertParams ps) else .refuse c .unnamedParam

def addParam (c : Clause) (p : Param) : Outcome Clause := c.addParams [p]

/-- Puts an expression under a key together with the parameters that it mentions. An empty text,
and a present key without `overwrite`, leave the clause as it is, whatever the parameters. -/
def addKeyedWithParams (c : Clause) (key text : String) (ps : List Param) (overwrite : Bool) :
    Outcome Clause :=
  if text.isEmpty || !c.expressions.accepts key overwrite then .accept c
  else if allNamed ps then
    .ofTraced ({ c with expressions := c.expressions.insert key text overwrite }.insertParams ps)
  else .refuse c .unnamedParam

/-- The same with a single parameter. -/
def addKeyedWithParam (c : Clause) (key text : String) (p : Param) (overwrite : Bool) :
    Outcome Clause :=
  c.addKeyedWithParams key text [p] overwrite

/-- Appends the text of another clause as one expression and binds its parameters. A clause without
text still hands over its parameters. -/
def addClause (c other : Clause) : Traced Clause := (c.add other.sql).insertParams other.paramList

/-- The same under a key. Without `overwrite` a present key leaves the clause as it is, which is
reported. -/
def addKeyedClause (c : Clause) (key : String) (other : Clause) (overwrite : Bool) :
    Traced Clause := do
  if c.expressions.accepts key overwrite then
    let c ← c.addKeyed key other.sql overwrite
    c.insertParams other.paramList
  else
    Traced.report (.clauseIgnored key)
    return c

end Clause

/-- How the text of a clause is reported. -/
structure Trace where
  level : Level := .debug
  /-- The most bytes of text that are reported whole; without a number every text is. -/
  maxBytes : Option Nat := some 200
deriving DecidableEq, Repr

namespace Trace

/-- The text itself if it fits, else as many whole characters as fit, with three dots behind them.
-/
def excerpt (t : Trace) (sql : String) : String :=
  match t.maxBytes with
  | none => sql
  | some n =>
    if sql.utf8ByteSize ≤ n then sql else Text.takeBytes n sql ++ "..."

/-- Reports the text of a clause under a tag. -/
def emit (t : Trace) (tag : String) (c : Clause) : Traced Unit :=
  .report (.rendered t.level tag c.paramCount (t.excerpt c.sql))

end Trace

end SqlCompose
