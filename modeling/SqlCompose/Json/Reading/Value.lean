import SqlCompose.Json.Reading.Numeral

/-!
Reading a JSON value of any shape or of one wanted shape, and passing over one of which only the
form counts.
-/
namespace SqlCompose.Json

/-- Takes the colon between the name and the value of a member. -/
def colon (cs : List Char) : Except ReadError (List Char) :=
  match skipSpace cs with
  | [] => .error .truncated
  | c :: rest => if c = ':' then .ok rest else .error .malformed

/-- What stands where an array goes on or ends: whether an element follows, and the text from there
or behind the end. A comma stands between two elements and nowhere else. -/
def nextElement (first : Bool) (cs : List Char) : Except ReadError (Bool × List Char) :=
  match skipSpace cs with
  | [] => .error .truncated
  | ']' :: rest => .ok (false, rest)
  | c :: rest =>
    if first then .ok (true, c :: rest)
    else if c = ',' then
      match skipSpace rest with
      | [] => .error .truncated
      | ']' :: _ => .error .malformed
      | r => .ok (true, r)
    else .error .malformed

/-- What stands where an object goes on or ends: whether a member follows, and the text behind the
opening quote of its name or behind the end. -/
def nextMember (first : Bool) (cs : List Char) : Except ReadError (Bool × List Char) :=
  match skipSpace cs with
  | [] => .error .truncated
  | '}' :: rest => .ok (false, rest)
  | c :: rest =>
    if first then
      if c = '"' then .ok (true, rest) else .error .malformed
    else if c = ',' then
      match skipSpace rest with
      | [] => .error .truncated
      | '"' :: r => .ok (true, r)
      | _ => .error .malformed
    else .error .malformed

mutual

/-- Reads a value within a number of steps. A value takes one step, and one more for each of its
elements or members and for its end, so twice the length of the text and one are enough. -/
def valueWithin : Nat → List Char → Except ReadError (Json × List Char)
  | 0, _ => .error .truncated
  | n + 1, cs =>
    match skipSpace cs with
    | [] => .error .truncated
    | '"' :: rest => do
      let (s, rest) ← string rest
      return (.str s, rest)
    | '[' :: rest => do
      let (es, rest) ← elementsWithin n true [] rest
      return (.arr es, rest)
    | '{' :: rest => do
      let (ms, rest) ← membersWithin n true [] rest
      return (ofMembers ms, rest)
    | 'n' :: rest => do return (.null, ← word ['u', 'l', 'l'] rest)
    | 't' :: rest => do return (.bool true, ← word ['r', 'u', 'e'] rest)
    | 'f' :: rest => do return (.bool false, ← word ['a', 'l', 's', 'e'] rest)
    | '-' :: rest => number true rest
    | c :: rest => if c.isDigit then number false (c :: rest) else .error .malformed

/-- Reads the elements of an array up to its end; `acc` holds those before, the latest first. -/
def elementsWithin : Nat → Bool → List Json → List Char →
    Except ReadError (List Json × List Char)
  | 0, _, _, _ => .error .truncated
  | n + 1, first, acc, cs => do
    let (more, rest) ← nextElement first cs
    if more then
      let (v, rest) ← valueWithin n rest
      elementsWithin n false (v :: acc) rest
    else return (acc.reverse, rest)

/-- Reads the members of an object up to its end; `acc` holds those before, the latest first. -/
def membersWithin : Nat → Bool → List (String × Json) → List Char →
    Except ReadError (List (String × Json) × List Char)
  | 0, _, _, _ => .error .truncated
  | n + 1, first, acc, cs => do
    let (more, rest) ← nextMember first cs
    if more then
      let (name, rest) ← string rest
      let rest ← colon rest
      let (v, rest) ← valueWithin n rest
      membersWithin n false ((name, v) :: acc) rest
    else return (acc.reverse, rest)

end

mutual

/-- Passes over a value of which only the form counts, within a number of steps. -/
def skipWithin : Nat → List Char → Except ReadError (List Char)
  | 0, _ => .error .truncated
  | n + 1, cs =>
    match skipSpace cs with
    | [] => .error .truncated
    | '"' :: rest => skipString rest
    | '[' :: rest => skipElementsWithin n true rest
    | '{' :: rest => skipMembersWithin n true rest
    | 'n' :: rest => word ['u', 'l', 'l'] rest
    | 't' :: rest => word ['r', 'u', 'e'] rest
    | 'f' :: rest => word ['a', 'l', 's', 'e'] rest
    | '-' :: rest => (·.2) <$> numeral .malformed rest
    | c :: rest => if c.isDigit then (·.2) <$> numeral .malformed (c :: rest) else .error .malformed

def skipElementsWithin : Nat → Bool → List Char → Except ReadError (List Char)
  | 0, _, _ => .error .truncated
  | n + 1, first, cs => do
    let (more, rest) ← nextElement first cs
    if more then
      let rest ← skipWithin n rest
      skipElementsWithin n false rest
    else return rest

def skipMembersWithin : Nat → Bool → List Char → Except ReadError (List Char)
  | 0, _, _ => .error .truncated
  | n + 1, first, cs => do
    let (more, rest) ← nextMember first cs
    if more then
      let rest ← skipString rest
      let rest ← colon rest
      let rest ← skipWithin n rest
      skipMembersWithin n false rest
    else return rest

end

/-- Passes over a value of which only the form counts. Escaped surrogates need no partner there, and
numbers have no limit. -/
def skipValue (cs : List Char) : Except ReadError (List Char) := skipWithin (2 * cs.length + 1) cs

/-- The value that a whole text holds. -/
def parse (s : String) : Except ReadError Json :=
  let cs := s.toList
  complete (valueWithin (2 * cs.length + 1) cs)

/-- The problem of a text that should hold a value of another kind: its own, if already its first
word, number or string is broken, and a mismatch otherwise. -/
def wrongKind (cs : List Char) : ReadError :=
  let outcome (r : Except ReadError (List Char)) : ReadError :=
    match r with
    | .ok _ => .mismatched
    | .error e => e
  match skipSpace cs with
  | [] => .truncated
  | '"' :: rest => outcome ((·.2) <$> string rest)
  | '[' :: _ | '{' :: _ => .mismatched
  | 'n' :: rest => outcome (word ['u', 'l', 'l'] rest)
  | 't' :: rest => outcome (word ['r', 'u', 'e'] rest)
  | 'f' :: rest => outcome (word ['a', 'l', 's', 'e'] rest)
  | '-' :: rest => outcome ((·.2) <$> number true rest)
  | c :: rest => if c.isDigit then outcome ((·.2) <$> number false (c :: rest)) else .malformed

def readString (cs : List Char) : Except ReadError (String × List Char) :=
  match skipSpace cs with
  | '"' :: rest => string rest
  | r => .error (wrongKind r)

def readBool (cs : List Char) : Except ReadError (Bool × List Char) :=
  match skipSpace cs with
  | 't' :: rest => do return (true, ← word ['r', 'u', 'e'] rest)
  | 'f' :: rest => do return (false, ← word ['a', 'l', 's', 'e'] rest)
  | r => .error (wrongKind r)

def readNull (cs : List Char) : Except ReadError (List Char) :=
  match skipSpace cs with
  | 'n' :: rest => word ['u', 'l', 'l'] rest
  | r => .error (wrongKind r)

/-- Reads the name of a member that an object has to hold. Nothing but a string can be a name, so
what starts otherwise is not JSON. -/
def readName (cs : List Char) : Except ReadError (String × List Char) :=
  match skipSpace cs with
  | [] => .error .truncated
  | '"' :: rest => string rest
  | _ => .error .malformed

/-- Takes the end of an array that can hold no further element. -/
def arrayEnd (cs : List Char) : Except ReadError (List Char) :=
  match skipSpace cs with
  | [] => .error .truncated
  | c :: rest => if c = ']' then .ok rest else .error .malformed

/-- Takes the end of an object that can hold no further member. -/
def objectEnd (cs : List Char) : Except ReadError (List Char) :=
  match skipSpace cs with
  | [] => .error .truncated
  | c :: rest => if c = '}' then .ok rest else .error .malformed

end SqlCompose.Json
