import Mathlib.Data.String.Basic
import SqlCompose.Proofs.KeyedSeq.Entries
import SqlCompose.Proofs.KeyedSeq.Insertion

/-! Keyed sequences do what lists of entries do, and answer every question alike. -/
namespace SqlCompose.KeyedSeq

variable {κ α : Type} [BEq κ] {s : KeyedSeq κ α} {es : Entries κ α} {k : κ} {i : Nat}

/-- The values are those of the entries, and each key stands for the position of its entry. -/
structure Refines (s : KeyedSeq κ α) (es : Entries κ α) : Prop where
  values : s.values = es.values
  indexOf? : ∀ k, s.indexOf? k = es.indexOf? k

/-- A sequence and a list of entries give the same answers. -/
structure Agrees (s : KeyedSeq κ α) (es : Entries κ α) : Prop where
  length : s.length = es.toList.length
  isEmpty : s.isEmpty = es.toList.isEmpty
  toList : s.toList = es.values
  reverse : s.toList.reverse = es.values.reverse
  get? : ∀ i, s.get? i = es.values[i]?
  /-- A position below the length has its value, and one beyond is reported with the length. -/
  tryGet : ∀ i, s.tryGet i =
    if h : i < es.values.length then .ok (es.values.get ⟨i, h⟩)
    else .error (.outOfRange i es.values.length)
  /-- A position may be read unasked exactly below the length. -/
  getElem : ∀ i v, (∃ h : i < s.length, s[i] = v) ↔ es.values[i]? = some v
  indexOf? : ∀ k, s.indexOf? k = es.indexOf? k
  containsKey : ∀ k, s.containsKey k = es.containsKey k
  find? : ∀ k, s.find? k = es.find? k
  findD : ∀ k d, s.findD k d = (es.find? k).getD d
  /-- An insertion takes its value if the key is absent or may be overwritten. -/
  accepts : ∀ k overwrite, s.accepts k overwrite = (!es.containsKey k || overwrite)
  /-- A key never stands for a position without a value. -/
  lt_length : ∀ k i, s.indexOf? k = some i → i < s.length

namespace Refines

theorem length (h : s.Refines es) : s.length = es.toList.length := by
  rw [KeyedSeq.length, h.values, Entries.values, List.length_map]

theorem containsKey (h : s.Refines es) (k : κ) : s.containsKey k = es.containsKey k := by
  rw [KeyedSeq.containsKey, h.indexOf?, Entries.isSome_indexOf?]

theorem containsKey_eq_false (h : s.Refines es) (hk : s.indexOf? k = none) :
    es.containsKey k = false := by
  rw [← h.containsKey, KeyedSeq.containsKey, hk]
  rfl

theorem containsKey_eq_true (h : s.Refines es) (hk : s.indexOf? k = some i) :
    es.containsKey k = true := by
  rw [← h.containsKey, KeyedSeq.containsKey, hk]
  rfl

theorem find? (h : s.Refines es) (k : κ) : s.find? k = es.find? k := by
  rw [KeyedSeq.find?, Entries.find?_eq_bind, h.indexOf?, ← h.values]
  rfl

theorem lt_length (h : s.Refines es) (hk : s.indexOf? k = some i) : i < s.length := by
  rw [h.indexOf?] at hk
  rw [h.length]
  exact (List.findIdx?_eq_some_iff_getElem.mp hk).1

theorem tryGet (h : s.Refines es) (i : Nat) :
    s.tryGet i =
      if h : i < es.values.length then .ok (es.values.get ⟨i, h⟩)
      else .error (.outOfRange i es.values.length) := by
  rw [KeyedSeq.tryGet, KeyedSeq.get?, KeyedSeq.length, h.values]
  split
  · rename_i v hv
    obtain ⟨hi, rfl⟩ := List.getElem?_eq_some_iff.mp hv
    rw [dif_pos hi]
    rfl
  · rename_i hnone
    rw [dif_neg (Nat.not_lt.mpr (List.getElem?_eq_none_iff.mp hnone))]

theorem agrees (h : s.Refines es) : s.Agrees es where
  length := h.length
  isEmpty := by
    rw [KeyedSeq.isEmpty, h.values, Entries.values, List.isEmpty_map]
  toList := h.values
  reverse := congrArg List.reverse h.values
  get? i := congrArg (·[i]?) h.values
  tryGet := h.tryGet
  getElem i v := by
    rw [← h.values]
    exact List.getElem?_eq_some_iff.symm
  indexOf? := h.indexOf?
  containsKey := h.containsKey
  find? := h.find?
  findD k d := by rw [KeyedSeq.findD, h.find?]
  accepts k overwrite := by rw [KeyedSeq.accepts, h.containsKey, Bool.or_comm]
  lt_length _ _ := h.lt_length

theorem empty : (∅ : KeyedSeq κ α).Refines ∅ where
  values := rfl
  indexOf? _ := rfl

theorem extend (h : s.Refines es) (vs : List α) : (s.extend vs).Refines (es.append vs) where
  values := by rw [Entries.values_append, ← h.values, KeyedSeq.extend]
  indexOf? k := by
    rw [Entries.indexOf?_append, ← h.indexOf?]
    rfl

/-- A value is replaced where its key stands. -/
theorem set (h : s.Refines es) (hk : s.indexOf? k = some i) (v : α) :
    Refines { s with values := s.values.set i v } (es.replace k v) where
  values := by
    rw [h.indexOf?] at hk
    rw [Entries.values_replace hk, h.values]
  indexOf? k' := by
    rw [Entries.indexOf?_replace, ← h.indexOf?]
    rfl

theorem modify (h : s.Refines es) (k : κ) (v : α) :
    (s.modify k fun _ => v).Refines (es.replace k v) := by
  cases hk : s.indexOf? k with
  | none =>
    rw [Entries.replace_absent (h.containsKey_eq_false hk)]
    simpa only [KeyedSeq.modify, hk] using h
  | some i =>
    rw [replace_present hk]
    exact h.set hk v

variable [EquivBEq κ]

theorem insert (h : s.Refines es) (k : κ) (v : α) (overwrite : Bool) :
    (s.insert k v overwrite).Refines (es.insert k v overwrite) := by
  cases hk : s.indexOf? k with
  | none =>
    have habsent := h.containsKey_eq_false hk
    rw [insert_absent hk]
    constructor
    · rw [Entries.values, Entries.toList_insert_absent habsent, List.map_append, h.values]
      rfl
    · intro k'
      rw [Entries.indexOf?_insert_absent habsent, KeyedSeq.indexOf?, List.lookup_cons, ← h.length,
        ← h.indexOf?]
      cases k' == k <;> rfl
  | some i =>
    rw [Entries.insert_present (h.containsKey_eq_true hk)]
    cases overwrite with
    | false => rwa [insert_ignored hk]
    | true =>
      rw [insert_present hk]
      exact h.set hk v

theorem apply (h : s.Refines es) (op : Op κ α) : (s.apply op).Refines (es.apply op) := by
  cases op with
  | clear => exact empty
  | refill vs => exact empty.extend vs
  | extend vs => exact h.extend vs
  | push v => exact h.extend [v]
  | insert k v overwrite => exact h.insert k v overwrite
  | replace k v => exact h.modify k v

theorem run (h : s.Refines es) (ops : List (Op κ α)) : (s.run ops).Refines (es.run ops) := by
  induction ops generalizing s es with
  | nil => exact h
  | cons op ops ih => exact ih (h.apply op)

end Refines

/-- After every run of operations from nothing, a keyed sequence gives the answers of the list of
entries that the same operations make. -/
theorem agrees_run [EquivBEq κ] (ops : List (Op κ α)) :
    ((∅ : KeyedSeq κ α).run ops).Agrees ((∅ : Entries κ α).run ops) :=
  (Refines.empty.run ops).agrees

/-- Values with and without keys, one of them ignored, one overwritten and one replaced. -/
theorem agrees_run_mixed :
    let ops : List (Op String Nat) :=
      [.refill [1, 2], .insert "k" 3 false, .push 4, .insert "k" 5 false, .insert "l" 6 true,
        .insert "k" 7 true, .extend [8, 9], .replace "l" 10, .replace "m" 11]
    ((∅ : KeyedSeq String Nat).run ops).toList = [1, 2, 7, 4, 10, 8, 9] ∧
      ((∅ : KeyedSeq String Nat).run ops).Agrees ((∅ : Entries String Nat).run ops) := by
  intro ops
  exact ⟨rfl, agrees_run ops⟩

end SqlCompose.KeyedSeq
