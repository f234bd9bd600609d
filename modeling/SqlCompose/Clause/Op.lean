import SqlCompose.Filter

/-!
How clauses come into being and the operations that change them, as data as well, so that whole runs
can be spoken about.
-/
namespace SqlCompose.Clause

/-- The clause of some columns; an empty name is no column. -/
def ofColumns (f : Format) (columns : List String) : Clause := (ofFormat f).addAll columns

def selectList (columns : List String) : Clause := ofColumns .selectList columns

def fromTable (table : String) : Clause := ofFormat (.fromTable table)

def whereList (j : Joiner) : Clause := ofFormat (.whereList j)

def groupByList (columns : List String) : Clause := ofColumns .groupByList columns

def havingList (j : Joiner) : Clause := ofFormat (.havingList j)

def orderByList (columns : List String) : Clause := ofColumns .orderByList columns

def cte (name : String) : Clause := ofFormat (.cte name)

def deleteFrom (table : String) : Clause := ofFormat (.deleteFrom table)

def updateTable (table : String) : Clause := ofFormat (.updateTable table)

def insertColumns (columns : List String) : Clause := ofColumns .insertColumns columns

/-- An insertion with its columns, which are left out if there are none. -/
def insertInto (table : String) (columns : List String) : Clause :=
  (ofFormat (.insertInto table)).add (insertColumns columns).sql

def valuesRow : Clause := ofFormat .valuesRow

/-- The texts of some clauses behind one another, with the parameters of all. -/
def statement (clauses : List Clause) : Traced Clause := clauses.foldlM addClause empty

/-- The ways to make a clause that read no other clause, as data. -/
inductive Origin where
  | empty
  | ofText (text : String)
  | ofFormat (format : Format)
  | selectList (columns : List String)
  | fromTable (table : String)
  | whereList (joiner : Joiner)
  | groupByList (columns : List String)
  | havingList (joiner : Joiner)
  | orderByList (columns : List String)
  | cte (name : String)
  | deleteFrom (table : String)
  | updateTable (table : String)
  | insertColumns (columns : List String)
  | insertInto (table : String) (columns : List String)
  | valuesRow
deriving DecidableEq, Repr

def Origin.clause : Origin → Clause
  | .empty => .empty
  | .ofText text => .ofText text
  | .ofFormat format => .ofFormat format
  | .selectList columns => .selectList columns
  | .fromTable table => .fromTable table
  | .whereList joiner => .whereList joiner
  | .groupByList columns => .groupByList columns
  | .havingList joiner => .havingList joiner
  | .orderByList columns => .orderByList columns
  | .cte name => .cte name
  | .deleteFrom table => .deleteFrom table
  | .updateTable table => .updateTable table
  | .insertColumns columns => .insertColumns columns
  | .insertInto table columns => .insertInto table columns
  | .valuesRow => .valuesRow

/-- One operation that may change a clause. Other clauses that it reads are given as clauses or, in
a program that keeps many of them, in another way. -/
inductive Op (ρ : Type := Clause) where
  | add (text : String)
  | addKeyed (key text : String) (overwrite : Bool)
  | addKeyedWithParams (key text : String) (params : List Param) (overwrite : Bool)
  | addParam (param : Param)
  | addParams (params : List Param)
  | addClause (other : ρ)
  | addKeyedClause (key : String) (other : ρ) (overwrite : Bool)
  | addPredicate (predicate : Predicate)
  | addFilter (filter : Filter)
  /-- Replaces one field of the decoration. -/
  | decorate (setting : Format.Setting)
  /-- Replaces the whole decoration. -/
  | reformat (format : Format)

/-- The operation with the clauses that it reads given in another way. -/
def Op.map {ρ σ : Type} (f : ρ → σ) : Op ρ → Op σ
  | .add text => .add text
  | .addKeyed key text overwrite => .addKeyed key text overwrite
  | .addKeyedWithParams key text params overwrite => .addKeyedWithParams key text params overwrite
  | .addParam param => .addParam param
  | .addParams params => .addParams params
  | .addClause other => .addClause (f other)
  | .addKeyedClause key other overwrite => .addKeyedClause key (f other) overwrite
  | .addPredicate predicate => .addPredicate predicate
  | .addFilter filter => .addFilter filter
  | .decorate setting => .decorate setting
  | .reformat format => .reformat format

def apply (c : Clause) : Op → Outcome Clause
  | .add text => .accept (c.add text)
  | .addKeyed key text overwrite => .ofTraced (c.addKeyed key text overwrite)
  | .addKeyedWithParams key text params overwrite => c.addKeyedWithParams key text params overwrite
  | .addParam param => c.addParam param
  | .addParams params => c.addParams params
  | .addClause other => .ofTraced (c.addClause other)
  | .addKeyedClause key other overwrite => .ofTraced (c.addKeyedClause key other overwrite)
  | .addPredicate predicate => c.addPredicate predicate
  | .addFilter filter => c.addFilter filter
  | .decorate setting => .accept (c.decorate setting)
  | .reformat format => .accept { c with format }

/-- The clause after a run of operations, refused ones among them. -/
def run (c : Clause) (ops : List Op) : Clause := ops.foldl (fun c op => (c.apply op).state) c

end SqlCompose.Clause
