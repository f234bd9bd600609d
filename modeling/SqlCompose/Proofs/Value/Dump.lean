import SqlCompose.Param
import SqlCompose.Proofs.Json.Unambiguous
import SqlCompose.Proofs.Value.Text

/-!
The JSON text of a parameter identifies it, but for a leap second that has the text of another time.
-/
namespace SqlCompose

open Json (Exact)

namespace TypeTag

theorem name_inj {s t : TypeTag} (h : s.name = t.name) : s = t := by
  rw [← Option.some_inj, ← ofName?_name, h, ofName?_name]

end TypeTag

namespace Value

variable {v w : Value} {j : Json}

/-- Values that are neither binary numbers nor hold any. -/
def Exact : Value → Prop
  | .float32 _ => False
  | .float64 _ => False
  | .json j => j.Exact
  | _ => True

/-- The JSON value that a value is written as, if it is not a binary number. -/
def toJson? : Value → Option Json
  | .null => some .null
  | .bool b => some (.bool b)
  | .int16 n => some (.int n.toInt)
  | .int32 n => some (.int n.toInt)
  | .int64 n => some (.int n.toInt)
  | .float32 _ => none
  | .float64 _ => none
  | .decimal d => some (.str d.write)
  | .text s => some (.str s)
  | .uuid u => some (.str u.text)
  | .date d => some (.str d.text)
  | .time t => some (.str t.text)
  | .dateTime d => some (.str d.text)
  | .dateTimeUtc d => some (.str d.utcText)
  | .binary bytes => some (.arr (bytes.map fun b => .int b.toNat))
  | .json j => some j

theorem exists_toJson? (h : v.Exact) : ∃ j, v.toJson? = some j ∧ j.Exact ∧ j.text = v.jsonText := by
  cases v with
  | float32 => exact h.elim
  | float64 => exact h.elim
  | json j => exact ⟨j, rfl, h, rfl⟩
  | null => exact ⟨_, rfl, .null, rfl⟩
  | bool b => exact ⟨_, rfl, .bool b, rfl⟩
  | int16 | int32 | int64 => exact ⟨_, rfl, .int _, rfl⟩
  | binary bytes =>
    refine ⟨_, rfl, .arr ?_, ?_⟩
    · intro e he
      obtain ⟨b, -, rfl⟩ := List.mem_map.mp he
      exact .int _
    · rw [Json.text, Json.texts_eq_map, List.map_map]
      rfl
  | _ => exact ⟨_, rfl, .str _, rfl⟩

/-- The value that a text is read as, in which a leap second may be the second that follows it. -/
def shown : Value → Value
  | .time t => .time t.shown
  | .dateTime d => .dateTime d.shown
  | .dateTimeUtc d => .dateTimeUtc d.shown
  | v => v

/-- A value without a leap second, but for the last second of a minute. -/
def LeapsLast : Value → Prop
  | .time t => t.LeapsLast
  | .dateTime d => d.time.LeapsLast
  | .dateTimeUtc d => d.time.LeapsLast
  | _ => True

theorem shown_eq_self (h : v.LeapsLast) : v.shown = v := by
  cases v with
  | time t => exact congrArg time (Time.shown_eq_self h)
  | dateTime d => rw [shown, DateTime.shown, Time.shown_eq_self h]
  | dateTimeUtc d => rw [shown, DateTime.shown, Time.shown_eq_self h]
  | _ => rfl

theorem jsonText_shown (v : Value) : v.shown.jsonText = v.jsonText := by
  cases v with
  | time t => exact congrArg Json.quote t.text_shown
  | dateTime d => exact congrArg Json.quote d.text_shown
  | dateTimeUtc d => exact congrArg Json.quote d.utcText_shown
  | _ => rfl

/-- Within one type, only a leap second is written as the same JSON value as another value. -/
theorem shown_eq_of_toJson? (htag : v.tag = w.tag) (hv : v.toJson? = some j)
    (hw : w.toJson? = some j) : v.shown = w.shown := by
  have h := hv.trans hw.symm
  cases v <;> cases w <;> cases htag <;>
    simp only [toJson?, Option.some.injEq, Json.bool.injEq, Json.int.injEq, Json.str.injEq,
      Json.arr.injEq] at h
  case null.null.refl => rfl
  case bool.bool.refl => rw [h]
  case int16.int16.refl => rw [Int16.toInt_inj.mp h]
  case int32.int32.refl => rw [Int32.toInt_inj.mp h]
  case int64.int64.refl => rw [Int64.toInt_inj.mp h]
  case float32.float32.refl => cases hv
  case float64.float64.refl => cases hv
  case decimal.decimal.refl => rw [Decimal.write_inj h]
  case text.text.refl => rw [h]
  case uuid.uuid.refl => rw [Uuid.text_inj h]
  case date.date.refl => rw [Date.text_inj h]
  case time.time.refl => exact congrArg time (Time.shown_eq_of_text_eq h)
  case dateTime.dateTime.refl => exact congrArg dateTime (DateTime.shown_eq_of_text_eq h)
  case dateTimeUtc.dateTimeUtc.refl => exact congrArg dateTimeUtc (DateTime.shown_eq_of_utcText_eq h)
  case binary.binary.refl bytes bytes' =>
    have hbytes : ∀ b c : UInt8, Json.int b.toNat = Json.int c.toNat → b = c := by
      intro b c hbc
      exact UInt8.toNat_inj.mp (Int.ofNat.inj (Json.int.inj hbc))
    rw [(List.map_inj_right hbytes).mp h]
  case json.json.refl => rw [h]

/-- Values equal themselves. Only binary numbers can differ from themselves. -/
theorem same_self (h : v.Exact) : v.same v = true := by
  cases v with
  | float32 => exact h.elim
  | float64 => exact h.elim
  | json j => exact Json.same_self h
  | null => rfl
  | _ => simp [same, Decimal.same]

end Value

namespace Param

variable {p q : Param}

/-- The ways to make a parameter out of a value. -/
inductive Made : Param → Prop where
  | ofValue (name : String) (value : Value) : Made (.ofValue name value)
  | toParam (v : Typed) (name : String) : Made (v.toParam name)

theorem Made.tag_eq (h : p.Made) : p.tag = p.value.tag := by
  cases h with
  | ofValue => rfl
  | toParam v => exact (v.type.tag_toValue v.payload).symm

/-- The JSON object that a parameter is written as, given what its value is written as. -/
def asJson (p : Param) (j : Json) : Json :=
  .obj [("name", .str p.name), ("value", j), ("type", .str p.tag.name)]

theorem exists_asJson (h : p.value.Exact) :
    ∃ j, p.value.toJson? = some j ∧ (p.asJson j).Exact ∧ (p.asJson j).text = p.jsonText := by
  obtain ⟨j, hj, hexact, htext⟩ := Value.exists_toJson? h
  refine ⟨j, hj, .obj ?_, ?_⟩
  · simp only [List.forall_mem_cons]
    exact ⟨.str _, hexact, .str _, fun _ hm => nomatch hm⟩
  · rw [asJson, Json.text, Json.memberTexts_eq_map, jsonText, ← htext]
    rfl

/-- The parameter that a text is read as. -/
def shown (p : Param) : Param := { p with value := p.value.shown }

theorem shown_eq_self (h : p.value.LeapsLast) : p.shown = p := by
  rw [shown, Value.shown_eq_self h]

theorem jsonText_shown (p : Param) : p.shown.jsonText = p.jsonText := by
  rw [jsonText, jsonText, shown, Value.jsonText_shown]

theorem shown_eq_of_jsonText_eq (hp : p.Made) (hq : q.Made) (hpexact : p.value.Exact)
    (hqexact : q.value.Exact) (h : p.jsonText = q.jsonText) : p.shown = q.shown := by
  obtain ⟨j, hj, hjexact, hjtext⟩ := exists_asJson hpexact
  obtain ⟨k, hk, hkexact, hktext⟩ := exists_asJson hqexact
  have hobject := Json.text_inj hjexact hkexact (hjtext.trans (h.trans hktext.symm))
  simp only [asJson, Json.obj.injEq, List.cons.injEq, Prod.mk.injEq, Json.str.injEq, true_and,
    and_true] at hobject
  obtain ⟨hname, rfl, htag⟩ := hobject
  have htag := TypeTag.name_inj htag
  have hvalue : p.value.shown = q.value.shown :=
    Value.shown_eq_of_toJson? (by rw [← hp.tag_eq, htag, hq.tag_eq]) hj hk
  rw [shown, shown, hname, htag, hvalue]

end Param

end SqlCompose
