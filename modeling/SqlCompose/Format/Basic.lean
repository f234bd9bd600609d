/-!
The decoration of a clause: the texts around and between its expressions, as each part of a
statement has them.
-/
namespace SqlCompose

/-- The boolean operators that join the predicates of a list. -/
inductive Joiner where
  | and
  | or
deriving DecidableEq, Repr

namespace Joiner

instance : Inhabited Joiner := ⟨.and⟩

def all : List Joiner := [.and, .or]

def keyword : Joiner → String
  | .and => "and"
  | .or => "or"

def ofKeyword? (s : String) : Option Joiner := all.find? fun j => j.keyword == s

theorem ofKeyword?_keyword (j : Joiner) : ofKeyword? j.keyword = some j := by
  cases j <;> decide

instance : ToString Joiner := ⟨keyword⟩

end Joiner

/-- The texts a clause is rendered with. An empty text stands for no text. -/
structure Format where
  /-- In front of everything. -/
  head : String := ""
  /-- Behind everything. -/
  tail : String := ""
  /-- In front of the first expression. -/
  listHead : String := ""
  /-- Behind the last expression. -/
  listTail : String := ""
  /-- Between neighbouring expressions. -/
  separator : String := ""
  /-- Whether head and tail are rendered even without expressions. -/
  renderIfEmpty : Bool := false
deriving DecidableEq, Repr, Inhabited

namespace Format

/-- The texts of a format. -/
inductive TextField where
  | head
  | tail
  | listHead
  | listTail
  | separator
deriving DecidableEq, Repr

/-- The fields of a format. -/
inductive Field where
  | text (field : TextField)
  | renderIfEmpty
deriving DecidableEq, Repr

/-- A new content for one field. -/
inductive Setting where
  | text (field : TextField) (content : String)
  | renderIfEmpty (content : Bool)
deriving DecidableEq, Repr

def Setting.field : Setting → Field
  | .text field _ => .text field
  | .renderIfEmpty _ => .renderIfEmpty

def text (f : Format) : TextField → String
  | .head => f.head
  | .tail => f.tail
  | .listHead => f.listHead
  | .listTail => f.listTail
  | .separator => f.separator

/-- Replaces one field. -/
def set (f : Format) : Setting → Format
  | .text .head s => { f with head := s }
  | .text .tail s => { f with tail := s }
  | .text .listHead s => { f with listHead := s }
  | .text .listTail s => { f with listTail := s }
  | .text .separator s => { f with separator := s }
  | .renderIfEmpty b => { f with renderIfEmpty := b }

@[simp] theorem text_set (f : Format) (field : TextField) (s : String) :
    (f.set (.text field s)).text field = s := by
  cases field <;> rfl

/-- The expressions behind the first one, each with the separator in front of it. -/
def followers (f : Format) : List String → String
  | [] => ""
  | e :: es => f.separator ++ e ++ f.followers es

/-- The text of a list of expressions. Without expressions it is empty unless the format says
otherwise. -/
def render (f : Format) : List String → String
  | [] => if f.renderIfEmpty then f.head ++ f.tail else ""
  | e :: es => f.head ++ f.listHead ++ e ++ f.followers es ++ f.listTail ++ f.tail

/-- One column a line, with a comma behind each but the last. -/
def columns (head : String) : Format :=
  { head, listHead := "\t", separator := ",\n\t", listTail := "\n" }

/-- One column a line, with the parenthesis closed on the line behind the last. -/
def parenthesized (head : String) : Format := { columns head with tail := ")\n" }

/-- One predicate a line, each in parentheses of its own. -/
def predicates (head : String) (j : Joiner) : Format :=
  { head, listHead := "\t(", separator := ")\n\t" ++ j.keyword ++ " (", listTail := ")\n" }

def selectList : Format := columns "select\n"

/-- The table stands in the head, so it is rendered without expressions too. -/
def fromTable (table : String) : Format :=
  { head := "from\n\t" ++ table ++ "\n", renderIfEmpty := true }

def whereList (j : Joiner) : Format := predicates "where\n" j

def groupByList : Format := columns "group by\n"

def havingList (j : Joiner) : Format := predicates "having\n" j

def orderByList : Format := columns "order by\n"

/-- A common table expression, its body one expression a line. -/
def cte (name : String) : Format :=
  { head := ";with " ++ name ++ " as (\n"
    listHead := "\t", separator := "\n\t", listTail := "\n", tail := ")\n" }

def deleteFrom (table : String) : Format :=
  { head := "delete from " ++ table ++ "\n"
    separator := "\n", listTail := "\n", renderIfEmpty := true }

/-- The assignments of an update; without one there is no text. -/
def updateTable (table : String) : Format :=
  { head := "update " ++ table ++ "\n"
    listHead := "set\n\t", separator := ",\n\t", listTail := "\n" }

def insertInto (table : String) : Format :=
  { head := "insert into " ++ table ++ "\n", renderIfEmpty := true }

def insertColumns : Format := parenthesized "(\n"

def valuesRow : Format := parenthesized "values\n(\n"

end Format

end SqlCompose
