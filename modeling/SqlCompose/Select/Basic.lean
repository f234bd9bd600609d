import SqlCompose.Clause.Op

/-!
Select statements in parts, some of which come into being only when they are first opened, and the
operations on them.
-/
namespace SqlCompose

structure Select where
  selectList : Clause
  fromTable : Clause
  whereList : Option Clause := none
  groupByList : Option Clause := none
  havingList : Option Clause := none
  orderByList : Option Clause := none
  /-- What joins the predicates of the where list. -/
  whereJoiner : Joiner := .and
  /-- What joins the predicates of the having list. -/
  havingJoiner : Joiner := .and

namespace Select

/-- The parts of a statement in the order of its grammar. -/
inductive Part where
  | selectList
  | fromTable
  | whereList
  | groupByList
  | havingList
  | orderByList
deriving DecidableEq, Repr

def Part.all : List Part :=
  [.selectList, .fromTable, .whereList, .groupByList, .havingList, .orderByList]

/-- The statement that selects from a table. -/
def ofTable (table : String) : Select :=
  { selectList := .selectList [], fromTable := .fromTable table }

/-- A part that exists. -/
def part? (s : Select) : Part → Option Clause
  | .selectList => some s.selectList
  | .fromTable => some s.fromTable
  | .whereList => s.whereList
  | .groupByList => s.groupByList
  | .havingList => s.havingList
  | .orderByList => s.orderByList

/-- A part, or what it comes into being as. -/
def part (s : Select) : Part → Clause
  | .selectList => s.selectList
  | .fromTable => s.fromTable
  | .whereList => s.whereList.getD (.whereList s.whereJoiner)
  | .groupByList => s.groupByList.getD (.groupByList [])
  | .havingList => s.havingList.getD (.havingList s.havingJoiner)
  | .orderByList => s.orderByList.getD (.orderByList [])

def setPart (s : Select) (p : Part) (c : Clause) : Select :=
  match p with
  | .selectList => { s with selectList := c }
  | .fromTable => { s with fromTable := c }
  | .whereList => { s with whereList := some c }
  | .groupByList => { s with groupByList := some c }
  | .havingList => { s with havingList := some c }
  | .orderByList => { s with orderByList := some c }

/-- Brings a part into being. -/
def openPart (s : Select) (p : Part) : Select := s.setPart p (s.part p)

/-- Changes a part, which comes into being even if the change is refused. -/
def edit (s : Select) (p : Part) (op : Clause.Op) : Outcome Select :=
  ((s.part p).apply op).map (s.setPart p)

/-- Chooses what joins the predicates of the where list. A list that exists takes on the whole
decoration for this joiner. -/
def setWhereJoiner (s : Select) (j : Joiner) : Select :=
  { s with
    whereJoiner := j
    whereList := s.whereList.map fun c => { c with format := .whereList j } }

/-- Chooses what joins the predicates of the having list. A list that exists takes on the whole
decoration for this joiner. -/
def setHavingJoiner (s : Select) (j : Joiner) : Select :=
  { s with
    havingJoiner := j
    havingList := s.havingList.map fun c => { c with format := .havingList j } }

/-- What stands between the keyword and the name of a limit. -/
def limitMarker : String := " top("

/-- The head of the select list with a limit under the given name in place of any it has. -/
def limitedHead (head name : String) : String :=
  .ofList (Text.cutBefore limitMarker.toList (Text.trimEnd head.toList))
    ++ limitMarker ++ name ++ ")\n"

/-- Limits the number of rows to a value bound under a name. An absent value is no limit. -/
def top (s : Select) (value : Option Typed) (name : String) : Outcome Select :=
  match value with
  | none => .accept s
  | some v =>
    (s.edit .selectList (.addParam (v.toParam name))).andThen fun s =>
      s.edit .selectList (.decorate (.text .head (limitedHead s.selectList.format.head name)))

/-- The name of a limit that is given none. -/
def defaultLimitName : String := "@top"

/-- The parts that exist, in order. -/
def parts (s : Select) : List Clause := Part.all.filterMap s.part?

/-- Makes an empty select list ask for all columns. -/
def withColumns (s : Select) : Select :=
  if s.selectList.isEmpty then { s with selectList := s.selectList.add "*" } else s

/-- The statement of the parts that exist, and the parts, whose select list is not empty any more.
The statement is reported. -/
def build (s : Select) : Traced (Clause × Select) := do
  let s := s.withColumns
  let c ← Clause.statement s.parts
  Trace.emit {} "select" c
  return (c, s)

/-- One operation on a select statement. A part is changed only through the operations on its clause:
to put another clause in the place of a whole part is left out. Other clauses that it reads are given as
clauses or in another way, as in an operation on a clause. -/
inductive Op (ρ : Type := Clause) where
  /-- Changes a part. -/
  | edit (part : Part) (op : Clause.Op ρ)
  /-- Brings a part into being without a change. -/
  | openPart (part : Part)
  | top (value : Option Typed) (name : String)
  | whereJoiner (joiner : Joiner)
  | havingJoiner (joiner : Joiner)
  | build

/-- The operation with the clauses that it reads given in another way. -/
def Op.map {ρ σ : Type} (f : ρ → σ) : Op ρ → Op σ
  | .edit part op => .edit part (op.map f)
  | .openPart part => .openPart part
  | .top value name => .top value name
  | .whereJoiner joiner => .whereJoiner joiner
  | .havingJoiner joiner => .havingJoiner joiner
  | .build => .build

def apply (s : Select) : Op → Outcome Select
  | .edit part op => s.edit part op
  | .openPart part => .accept (s.openPart part)
  | .top value name => s.top value name
  | .whereJoiner j => .accept (s.setWhereJoiner j)
  | .havingJoiner j => .accept (s.setHavingJoiner j)
  | .build => .ofTraced (Prod.snd <$> s.build)

/-- The statement after a run of operations, refused ones among them. -/
def run (s : Select) (ops : List Op) : Select := ops.foldl (fun s op => (s.apply op).state) s

/-- The clauses that the operations of a run build, in order. -/
def built (s : Select) : List Op → List Clause
  | [] => []
  | .build :: ops => s.build.value.1 :: (s.apply .build).state.built ops
  | op :: ops => (s.apply op).state.built ops

end Select

end SqlCompose
