import SqlCompose.Number.Decimal

/-! JSON values, their equality and their compact text. -/
namespace SqlCompose

namespace Json

/-- How a character stands between quotes. -/
def escapeChar (c : Char) : List Char :=
  if c = '"' then ['\\', '"']
  else if c = '\\' then ['\\', '\\']
  else if c = '\x08' then ['\\', 'b']
  else if c = '\t' then ['\\', 't']
  else if c = '\n' then ['\\', 'n']
  else if c = '\x0c' then ['\\', 'f']
  else if c = '\r' then ['\\', 'r']
  else if c.toNat < 0x20 then
    ['\\', 'u', '0', '0', Hex.digit (c.toNat / 16), Hex.digit (c.toNat % 16)]
  else [c]

/-- The text between the quotes. -/
def escapeText (cs : List Char) : List Char := cs.flatMap escapeChar

/-- The string literal of a text. -/
def quote (s : String) : String := String.ofList ('"' :: (escapeText s.toList ++ ['"']))

end Json

/-- A JSON value. Integers and binary numbers are told apart, and the members of an object stand in
the order of their names. -/
inductive Json where
  | null
  | bool (b : Bool)
  | int (n : Int)
  /-- A finite number of 64 bits, by its bit pattern. -/
  | float (bits : UInt64)
  | str (s : String)
  | arr (elements : List Json)
  | obj (members : List (String × Json))
deriving Inhabited

namespace Json

/-- Puts a member into its place among members in the order of their names; the value under a name
that is present is replaced. -/
def insertMember (name : String) (value : Json) : List (String × Json) → List (String × Json)
  | [] => [(name, value)]
  | (n, v) :: ms =>
    if name = n then (name, value) :: ms
    else if name < n then (name, value) :: (n, v) :: ms
    else (n, v) :: insertMember name value ms

/-- The object of some members in any order; of two with one name the later counts. -/
def ofMembers (ms : List (String × Json)) : Json :=
  .obj (ms.foldl (fun acc m => insertMember m.1 m.2 acc) [])

/-- The text of an array whose elements have the given texts. -/
def arrayText (elements : List String) : String := "[" ++ ",".intercalate elements ++ "]"

/-- The text of an object whose member values have the given texts. -/
def objectText (members : List (String × String)) : String :=
  "\x7b" ++ ",".intercalate (members.map fun m => quote m.1 ++ ":" ++ m.2) ++ "\x7d"

def boolText (b : Bool) : String := if b then "true" else "false"

/-- The text of a number of 64 bits; NaN and the infinities have none and are written as null. -/
def doubleText (bits : Nat) : String := (BinaryFormat.double.write? .double bits).getD "null"

mutual

/-- The compact text of a value. -/
def text : Json → String
  | .null => "null"
  | .bool b => boolText b
  | .int n => toString n
  | .float bits => doubleText bits.toNat
  | .str s => quote s
  | .arr es => arrayText (texts es)
  | .obj ms => objectText (memberTexts ms)

def texts : List Json → List String
  | [] => []
  | e :: es => e.text :: texts es

def memberTexts : List (String × Json) → List (String × String)
  | [] => []
  | (n, v) :: ms => (n, v.text) :: memberTexts ms

end

mutual

/-- Whether two values are equal: an integer never equals a binary number, and binary numbers are
compared as numbers. -/
def same : Json → Json → Bool
  | .null, .null => true
  | .bool a, .bool b => a == b
  | .int a, .int b => a == b
  | .float a, .float b => BinaryFormat.double.same a.toNat b.toNat
  | .str a, .str b => a == b
  | .arr as, .arr bs => sameElements as bs
  | .obj as, .obj bs => sameMembers as bs
  | _, _ => false

def sameElements : List Json → List Json → Bool
  | [], [] => true
  | a :: as, b :: bs => a.same b && sameElements as bs
  | _, _ => false

def sameMembers : List (String × Json) → List (String × Json) → Bool
  | [], [] => true
  | (m, a) :: as, (n, b) :: bs => m == n && a.same b && sameMembers as bs
  | _, _ => false

end

end Json

end SqlCompose
