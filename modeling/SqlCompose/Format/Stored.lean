import SqlCompose.Format.Basic
import SqlCompose.Json.Reading.Value

/-! Formats and joiners as JSON text. -/
namespace SqlCompose

open Json

namespace Format

/-- The fields in the order in which they are written. -/
def Field.all : List Field :=
  [.text .head, .text .tail, .text .listHead, .text .listTail, .text .separator, .renderIfEmpty]

/-- The name under which a field is stored. -/
def Field.name : Field → String
  | .text .head => "prefix"
  | .text .tail => "suffix"
  | .text .listHead => "expressions_prefix"
  | .text .listTail => "expressions_suffix"
  | .text .separator => "expressions_separator"
  | .renderIfEmpty => "render_if_empty"

def Field.ofName? (name : String) : Option Field := all.find? fun f => f.name == name

theorem Field.ofName?_name (f : Field) : ofName? f.name = some f := by
  obtain (_ | _ | _ | _ | _) | _ := f <;> decide

def fieldText (f : Format) : Field → String
  | .text field => quote (f.text field)
  | .renderIfEmpty => boolText f.renderIfEmpty

/-- The JSON text of a format. -/
def jsonText (f : Format) : String :=
  objectText (Field.all.map fun field => (field.name, f.fieldText field))

/-- Reads the content of a field. -/
def Field.read (cs : List Char) : Field → Except ReadError (Setting × List Char)
  | .text field => do
    let (s, rest) ← readString cs
    return (.text field s, rest)
  | .renderIfEmpty => do
    let (b, rest) ← readBool cs
    return (.renderIfEmpty b, rest)

/-- Reads the members of an object up to its end, within a number of steps. A second member of a
field already read is refused at its name; members of other names are passed over. -/
def readMembers : Nat → Bool → List Field → Format → List Char →
    Except ReadError (Format × List Char)
  | 0, _, _, _, _ => .error .truncated
  | n + 1, first, seen, f, cs => do
    let (more, rest) ← nextMember first cs
    if !more then return (f, rest)
    let (name, rest) ← string rest
    match Field.ofName? name with
    | some field =>
      if field ∈ seen then throw .mismatched
      let rest ← colon rest
      let (s, rest) ← field.read rest
      readMembers n false (field :: seen) (f.set s) rest
    | none =>
      let rest ← colon rest
      let rest ← skipValue rest
      readMembers n false seen f rest

/-- Reads the elements of an array as the given fields; the array may end early. -/
def readElements : List Field → Bool → Format → List Char →
    Except ReadError (Format × List Char)
  | [], _, f, cs => do return (f, ← arrayEnd cs)
  | field :: fields, first, f, cs => do
    let (more, rest) ← nextElement first cs
    if !more then return (f, rest)
    let (s, rest) ← field.read rest
    readElements fields false (f.set s) rest

/-- Reads a format as a JSON library reads a record, every field of which has a default. What such a
library documents is taken for granted here, and by all that is said about stored formats: the text is read
from left to right and its first problem decides; an object holds its members in any order; a member of
another name is passed over, whatever JSON value it has; a second member of one field is refused; a field
without a member is empty; an array holds the fields in their order and may end early. -/
def read (cs : List Char) : Except ReadError (Format × List Char) :=
  match skipSpace cs with
  | '{' :: rest => readMembers (rest.length + 1) true [] {} rest
  | '[' :: rest => readElements Field.all true {} rest
  | r => .error (wrongKind r)

/-- The format that a whole text holds, which only blanks may follow. -/
def parse (s : String) : Except ReadError Format := complete (read s.toList)

end Format

namespace Joiner

/-- The JSON text of a joiner. -/
def jsonText (j : Joiner) : String := quote j.keyword

def named (keyword : String) : Except ReadError Joiner :=
  match ofKeyword? keyword with
  | some j => .ok j
  | none => .error .mismatched

/-- Reads a keyword, or an object with the keyword as its only name and null as the value. -/
def read (cs : List Char) : Except ReadError (Joiner × List Char) :=
  match skipSpace cs with
  | [] => .error .truncated
  | '"' :: rest => do
    let (s, rest) ← string rest
    return (← named s, rest)
  | '{' :: rest => do
    let (s, rest) ← readName rest
    let j ← named s
    let rest ← colon rest
    let rest ← readNull rest
    return (j, ← objectEnd rest)
  | _ => .error .malformed

/-- The joiner that a whole text holds. -/
def parse (s : String) : Except ReadError Joiner := complete (read s.toList)

end Joiner

end SqlCompose
