import SqlCompose.Number.Decimal
import SqlCompose.Text.Cut

/-!
Reading JSON text from left to right, where the first problem met is the one reported: blanks, fixed
words and string literals.
-/
namespace SqlCompose.Json

/-- The first problem of a text. -/
inductive ReadError where
  /-- The text ends inside or in front of the value. -/
  | truncated
  /-- The text is not JSON. -/
  | malformed
  /-- The text is JSON so far, but not of the shape wanted. -/
  | mismatched
deriving DecidableEq, Repr

def isSpace (c : Char) : Bool := c == ' ' || c == '\n' || c == '\t' || c == '\r'

def skipSpace (cs : List Char) : List Char := cs.dropWhile isSpace

/-- Takes a fixed word from the front. -/
def word : List Char → List Char → Except ReadError (List Char)
  | [], cs => .ok cs
  | _ :: _, [] => .error .truncated
  | w :: ws, c :: cs => if w = c then word ws cs else .error .malformed

/-- Takes what was read if nothing but blanks follows it. -/
def complete {α : Type} (r : Except ReadError (α × List Char)) : Except ReadError α :=
  match r with
  | .error e => .error e
  | .ok (a, rest) => if (skipSpace rest).isEmpty then .ok a else .error .malformed

/-- The unit that four hexadecimal digits stand for. The digits are looked at only once four bytes
are there to be read. -/
def hexUnit (cs : List Char) : Except ReadError Nat :=
  if Text.byteLength (cs.take 4) < 4 then .error .truncated
  else match cs with
    | a :: b :: c :: d :: _ =>
      match Hex.value? a, Hex.value? b, Hex.value? c, Hex.value? d with
      | some a, some b, some c, some d => .ok (((a * 16 + b) * 16 + c) * 16 + d)
      | _, _, _, _ => .error .malformed
    | _ => .error .malformed

/-- The character for the letter of a short escape. -/
def shortEscape? : Char → Option Char
  | '"' => some '"'
  | '\\' => some '\\'
  | '/' => some '/'
  | 'b' => some '\x08'
  | 'f' => some '\x0c'
  | 'n' => some '\n'
  | 'r' => some '\r'
  | 't' => some '\t'
  | _ => none

def isLeading (u : Nat) : Bool := 0xD800 ≤ u && u < 0xDC00

def isTrailing (u : Nat) : Bool := 0xDC00 ≤ u && u < 0xE000

/-- What an escape stands for, given the text behind its backslash, and how many characters it takes
there. A leading surrogate must be followed by the escape of a trailing one. -/
def escapeAt : List Char → Except ReadError (Char × Nat)
  | [] => .error .truncated
  | 'u' :: cs => do
    let u ← hexUnit cs
    if isTrailing u then throw .malformed
    if !isLeading u then return (Char.ofNat u, 5)
    match cs.drop 4 with
    | [] => throw .truncated
    | ['\\'] => throw .truncated
    | '\\' :: 'u' :: rest =>
      let v ← hexUnit rest
      if isTrailing v then return (Char.ofNat (0x10000 + (u - 0xD800) * 0x400 + (v - 0xDC00)), 11)
      throw .malformed
    | _ => throw .malformed
  | c :: _ =>
    match shortEscape? c with
    | some d => .ok (d, 1)
    | none => .error .malformed

/-- An escape of which only the form counts: surrogates need no partner. -/
def escapeFormAt : List Char → Except ReadError (Char × Nat)
  | [] => .error .truncated
  | 'u' :: cs => do
    let _ ← hexUnit cs
    return ('u', 5)
  | c :: _ => if (shortEscape? c).isSome then .ok (c, 1) else .error .malformed

/-- Reads up to the closing quote. The number counts the characters that belong to an escape already
taken, and `acc` holds what was read, the latest character first. -/
def stringBody (escape : List Char → Except ReadError (Char × Nat)) (acc : List Char) :
    Nat → List Char → Except ReadError (List Char × List Char)
  | _, [] => .error .truncated
  | n + 1, _ :: cs => stringBody escape acc n cs
  | 0, c :: cs =>
    if c = '"' then .ok (acc.reverse, cs)
    else if c = '\\' then do
      let (d, n) ← escape cs
      stringBody escape (d :: acc) n cs
    else if c.toNat < 0x20 then .error .malformed
    else stringBody escape (c :: acc) 0 cs

/-- Reads a string literal behind its opening quote. -/
def string (cs : List Char) : Except ReadError (String × List Char) := do
  let (s, rest) ← stringBody escapeAt [] 0 cs
  return (.ofList s, rest)

/-- Passes over a string literal behind its opening quote. -/
def skipString (cs : List Char) : Except ReadError (List Char) := do
  let (_, rest) ← stringBody escapeFormAt [] 0 cs
  return rest

end SqlCompose.Json
