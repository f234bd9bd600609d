import SqlCompose.Value.Basic

/-! Named parameters, and the values of a static type that they are made of. -/
namespace SqlCompose

/-- A value to be bound, with the type stated for it. -/
structure Param where
  /-- The placeholder that stands in the text. -/
  name : String
  value : Value
  tag : TypeTag

namespace Param

/-- A parameter whose type is that of its value. -/
def ofValue (name : String) (value : Value) : Param := { name, value, tag := value.tag }

/-- A parameter without a value, of a stated type. -/
def ofNull (name : String) (tag : TypeTag) : Param := { name, value := .null, tag }

/-- Whether name, value and type are equal, the values as `Value.same` says. -/
def same (p q : Param) : Bool := p.name == q.name && p.value.same q.value && p.tag == q.tag

def jsonText (p : Param) : String :=
  Json.objectText
    [("name", Json.quote p.name), ("value", p.value.jsonText), ("type", Json.quote p.tag.name)]

end Param

/-- The types whose values can be bound. -/
inductive SqlType where
  | bool
  | int16
  | int32
  | int64
  | float32
  | float64
  | decimal
  | text
  | uuid
  | date
  | time
  | dateTime
  | dateTimeUtc
  | binary
  | json
  /-- References to values of another type. -/
  | ref (target : SqlType)
deriving DecidableEq, Repr

namespace SqlType

/-- The values of a type. A reference is the value that it leads to. -/
abbrev Carrier : SqlType → Type
  | .bool => Bool
  | .int16 => Int16
  | .int32 => Int32
  | .int64 => Int64
  | .float32 => UInt32
  | .float64 => UInt64
  | .decimal => Decimal
  | .text => String
  | .uuid => Uuid
  | .date => Date
  | .time => Time
  | .dateTime => DateTime
  | .dateTimeUtc => DateTime
  | .binary => List UInt8
  | .json => Json
  | .ref target => target.Carrier

/-- The tag of a type. -/
def tag : SqlType → TypeTag
  | .bool => .bool
  | .int16 => .int16
  | .int32 => .int32
  | .int64 => .int64
  | .float32 => .float32
  | .float64 => .float64
  | .decimal => .decimal
  | .text => .text
  | .uuid => .uuid
  | .date => .date
  | .time => .time
  | .dateTime => .dateTime
  | .dateTimeUtc => .dateTimeUtc
  | .binary => .binary
  | .json => .json
  | .ref target => target.tag

/-- A value of a type as a value to be bound. -/
def toValue : (t : SqlType) → t.Carrier → Value
  | .bool, v => .bool v
  | .int16, v => .int16 v
  | .int32, v => .int32 v
  | .int64, v => .int64 v
  | .float32, v => .float32 v
  | .float64, v => .float64 v
  | .decimal, v => .decimal v
  | .text, v => .text v
  | .uuid, v => .uuid v
  | .date, v => .date v
  | .time, v => .time v
  | .dateTime, v => .dateTime v
  | .dateTimeUtc, v => .dateTimeUtc v
  | .binary, v => .binary v
  | .json, v => .json v
  | .ref target, v => target.toValue v

theorem tag_toValue (t : SqlType) (v : t.Carrier) : (t.toValue v).tag = t.tag := by
  induction t with
  | ref target ih => exact ih v
  | _ => rfl

end SqlType

/-- A value with its type. -/
structure Typed where
  type : SqlType
  payload : type.Carrier

namespace Typed

def ofText (s : String) : Typed := ⟨.text, s⟩

/-- The same value through a reference. -/
def byRef (v : Typed) : Typed := ⟨.ref v.type, v.payload⟩

def value (v : Typed) : Value := v.type.toValue v.payload

/-- The parameter that binds the value under a name, tagged by the type alone. -/
def toParam (v : Typed) (name : String) : Param := { name, value := v.value, tag := v.type.tag }

end Typed

end SqlCompose
