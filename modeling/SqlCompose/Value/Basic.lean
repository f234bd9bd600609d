import SqlCompose.Json.Basic
import SqlCompose.Value.Calendar

/-! The values that a parameter can carry, their types, equality and JSON text. -/
namespace SqlCompose

/-- A universally unique identifier. -/
structure Uuid where
  bits : BitVec 128
deriving DecidableEq, Repr

namespace Uuid

/-- Puts a hyphen between groups of the given lengths; the last group takes what remains. -/
def hyphenated : List Nat → List Char → List Char
  | n :: m :: ns, cs => cs.take n ++ '-' :: hyphenated (m :: ns) (cs.drop n)
  | _, cs => cs

/-- Five groups of digits with hyphens between them. -/
def text (u : Uuid) : String :=
  String.ofList (hyphenated [8, 4, 4, 4, 12] (Hex.digits 32 u.bits.toNat))

/-- The identifier with the given text. -/
def ofText? (s : String) : Option Uuid := do
  let n ← Hex.ofDigits? (s.toList.filter (· != '-'))
  let u : Uuid := ⟨BitVec.ofNat 128 n⟩
  if u.text = s then some u else none

end Uuid

/-- The type of a value as it is stated to a database. -/
inductive TypeTag where
  | bool
  | int16
  | int32
  | int64
  | float32
  | float64
  | decimal
  | text
  | uuid
  | date
  | time
  | dateTime
  | dateTimeUtc
  | binary
  | json
  | null
deriving DecidableEq, Repr

namespace TypeTag

def all : List TypeTag :=
  [.bool, .int16, .int32, .int64, .float32, .float64, .decimal, .text, .uuid, .date, .time,
    .dateTime, .dateTimeUtc, .binary, .json, .null]

def name : TypeTag → String
  | .bool => "bool"
  | .int16 => "int16"
  | .int32 => "int32"
  | .int64 => "int64"
  | .float32 => "float32"
  | .float64 => "float64"
  | .decimal => "decimal"
  | .text => "text"
  | .uuid => "uuid"
  | .date => "date"
  | .time => "time"
  | .dateTime => "date_time"
  | .dateTimeUtc => "date_time_utc"
  | .binary => "binary"
  | .json => "json"
  | .null => "null"

def ofName? (s : String) : Option TypeTag := all.find? fun t => t.name == s

theorem ofName?_name (t : TypeTag) : ofName? t.name = some t := by
  cases t <;> decide

end TypeTag

/-- A value to be bound. Binary numbers are held as bit patterns. -/
inductive Value where
  | null
  | bool (b : Bool)
  | int16 (n : Int16)
  | int32 (n : Int32)
  | int64 (n : Int64)
  | float32 (bits : UInt32)
  | float64 (bits : UInt64)
  | decimal (d : Decimal)
  | text (s : String)
  | uuid (u : Uuid)
  | date (d : Date)
  | time (t : Time)
  | dateTime (d : DateTime)
  | dateTimeUtc (d : DateTime)
  | binary (bytes : List UInt8)
  | json (j : Json)

namespace Value

def tag : Value → TypeTag
  | .null => .null
  | .bool _ => .bool
  | .int16 _ => .int16
  | .int32 _ => .int32
  | .int64 _ => .int64
  | .float32 _ => .float32
  | .float64 _ => .float64
  | .decimal _ => .decimal
  | .text _ => .text
  | .uuid _ => .uuid
  | .date _ => .date
  | .time _ => .time
  | .dateTime _ => .dateTime
  | .dateTimeUtc _ => .dateTimeUtc
  | .binary _ => .binary
  | .json _ => .json

def isNull : Value → Bool
  | .null => true
  | _ => false

def asText? : Value → Option String
  | .text s => some s
  | _ => none

/-- Whether two values are equal. Values of different types never are; numbers are compared as
numbers: a decimal may have other places, the two zeros are equal, and NaN differs from itself. -/
def same : Value → Value → Bool
  | .null, .null => true
  | .bool a, .bool b => a == b
  | .int16 a, .int16 b => a == b
  | .int32 a, .int32 b => a == b
  | .int64 a, .int64 b => a == b
  | .float32 a, .float32 b => BinaryFormat.single.same a.toNat b.toNat
  | .float64 a, .float64 b => BinaryFormat.double.same a.toNat b.toNat
  | .decimal a, .decimal b => a.same b
  | .text a, .text b => a == b
  | .uuid a, .uuid b => a == b
  | .date a, .date b => a == b
  | .time a, .time b => a == b
  | .dateTime a, .dateTime b => a == b
  | .dateTimeUtc a, .dateTimeUtc b => a == b
  | .binary a, .binary b => a == b
  | .json a, .json b => a.same b
  | _, _ => false

/-- The JSON text of a value, which does not show its type. What JSON has no notation for is a
string; NaN and the infinities are null. -/
def jsonText : Value → String
  | .null => "null"
  | .bool b => Json.boolText b
  | .int16 n => toString n.toInt
  | .int32 n => toString n.toInt
  | .int64 n => toString n.toInt
  | .float32 bits => (BinaryFormat.single.write? .single bits.toNat).getD "null"
  | .float64 bits => Json.doubleText bits.toNat
  | .decimal d => Json.quote d.write
  | .text s => Json.quote s
  | .uuid u => Json.quote u.text
  | .date d => Json.quote d.text
  | .time t => Json.quote t.text
  | .dateTime d => Json.quote d.text
  | .dateTimeUtc d => Json.quote d.utcText
  | .binary bytes => Json.arrayText (bytes.map fun b => toString b.toNat)
  | .json j => j.text

end Value

end SqlCompose
