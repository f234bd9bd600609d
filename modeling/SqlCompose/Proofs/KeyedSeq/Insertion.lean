import Mathlib.Data.List.Basic
import SqlCompose.KeyedSeq.Basic

/-! What an insertion does to the keys and the values of a keyed sequence. -/
namespace SqlCompose.KeyedSeq

variable {κ α : Type} [BEq κ] {s : KeyedSeq κ α} {k k' : κ} {v v' : α} {i : Nat}

/-- No key stands for a position behind the end, and no two keys stand for one position. -/
structure WellKeyed (s : KeyedSeq κ α) : Prop where
  lt_length : ∀ {k i}, s.indexOf? k = some i → i < s.length
  injective : ∀ {k k' i}, s.indexOf? k = some i → s.indexOf? k' = some i → k = k'

theorem insert_absent (h : s.indexOf? k = none) (v : α) (overwrite : Bool) :
    s.insert k v overwrite =
      { values := s.values ++ [v], positions := (k, s.length) :: s.positions } := by
  simp only [insert, h]

theorem insert_present (h : s.indexOf? k = some i) (v : α) :
    s.insert k v true = { s with values := s.values.set i v } := by
  simp only [insert, h, if_true]

theorem insert_ignored (h : s.indexOf? k = some i) (v : α) : s.insert k v false = s := by
  simp [insert, h]

theorem replace_present (h : s.indexOf? k = some i) (v : α) :
    (s.modify k fun _ => v) = { s with values := s.values.set i v } := by
  simp only [modify, h, List.set_eq_modify]

theorem eq_or_mem_of_mem_insert {overwrite : Bool}
    (h : v' ∈ (s.insert k v overwrite).toList) : v' = v ∨ v' ∈ s.toList := by
  cases hk : s.indexOf? k with
  | none =>
    rw [insert_absent hk] at h
    exact (List.mem_append.mp h).symm.imp_left List.mem_singleton.mp
  | some i =>
    cases overwrite with
    | false =>
      rw [insert_ignored hk] at h
      exact .inr h
    | true =>
      rw [insert_present hk] at h
      exact (List.mem_or_eq_of_mem_set h).symm

theorem containsKey_iff : s.containsKey k = true ↔ ∃ i, s.indexOf? k = some i := by
  rw [containsKey, Option.isSome_iff_exists]

theorem indexOf?_eq_none_iff : s.indexOf? k = none ↔ s.containsKey k = false := by
  rw [containsKey, Option.isSome_eq_false_iff, Option.isNone_iff_eq_none]

theorem wellKeyed_empty : (∅ : KeyedSeq κ α).WellKeyed where
  lt_length h := nomatch h
  injective h := nomatch h

theorem WellKeyed.extend (h : s.WellKeyed) (vs : List α) : (s.extend vs).WellKeyed where
  lt_length hk := by
    have := h.lt_length hk
    simp only [length, KeyedSeq.extend, List.length_append] at this ⊢
    omega
  injective := h.injective

theorem WellKeyed.push (h : s.WellKeyed) (v : α) : (s.push v).WellKeyed := h.extend [v]

theorem WellKeyed.modify (h : s.WellKeyed) (k : κ) (f : α → α) : (s.modify k f).WellKeyed := by
  cases hk : s.indexOf? k with
  | none => simpa only [KeyedSeq.modify, hk] using h
  | some i =>
    simp only [KeyedSeq.modify, hk]
    refine ⟨fun hj => ?_, h.injective⟩
    have := h.lt_length hj
    simpa [length] using this

/-- A value that is taken stands where its key leads, or behind the others, and all others stay. -/
theorem get?_insert (hs : s.WellKeyed) {overwrite : Bool} (h : s.accepts k overwrite = true) (v : α)
    (i : Nat) :
    (s.insert k v overwrite).get? i =
      if i = (s.indexOf? k).getD s.length then some v else s.get? i := by
  cases hk : s.indexOf? k with
  | none =>
    rw [insert_absent hk, Option.getD_none]
    split
    · rename_i hi
      subst hi
      exact List.getElem?_concat_length
    · rename_i hi
      rcases Nat.lt_or_gt_of_ne hi with hlt | hgt
      · exact List.getElem?_append_left hlt
      · have hbeyond : s.values.length < i := hgt
        simp only [get?]
        rw [List.getElem?_eq_none (by simp; omega), List.getElem?_eq_none (by omega)]
  | some j =>
    have hoverwrite : overwrite = true := by simpa [accepts, containsKey, hk] using h
    have hj : j < s.values.length := hs.lt_length hk
    subst hoverwrite
    rw [insert_present hk, Option.getD_some]
    split
    · rename_i hi
      subst hi
      exact List.getElem?_set_self hj
    · rename_i hi
      exact List.getElem?_set_ne (Ne.symm hi)

/-- The values that an operation brings in. -/
def Op.values : Op κ α → List α
  | .clear => []
  | .refill vs | .extend vs => vs
  | .push v | .insert _ v _ | .replace _ v => [v]

theorem mem_or_mem_of_mem_apply {op : Op κ α} (h : v ∈ (s.apply op).toList) :
    v ∈ s.toList ∨ v ∈ op.values := by
  cases op with
  | clear => cases h
  | refill vs => exact .inr h
  | extend vs => exact List.mem_append.mp h
  | push w => exact List.mem_append.mp h
  | insert k w overwrite => exact (eq_or_mem_of_mem_insert h).symm.imp_right List.mem_singleton.mpr
  | replace k w =>
    cases hk : s.indexOf? k with
    | none =>
      simp only [apply, modify, hk] at h
      exact .inl h
    | some i =>
      rw [apply, replace_present hk] at h
      exact (List.mem_or_eq_of_mem_set h).imp_right List.mem_singleton.mpr

theorem mem_or_mem_of_mem_run {ops : List (Op κ α)} (h : v ∈ (s.run ops).toList) :
    v ∈ s.toList ∨ ∃ op ∈ ops, v ∈ op.values := by
  induction ops generalizing s with
  | nil => exact .inl h
  | cons op ops ih =>
    rcases ih h with h | ⟨o, ho, hv⟩
    · exact (mem_or_mem_of_mem_apply h).imp_right fun hv => ⟨op, List.mem_cons_self, hv⟩
    · exact .inr ⟨o, List.mem_cons_of_mem op ho, hv⟩

/-- The sequence with a function applied to each value, every key standing where it stood. -/
def map {β : Type} (f : α → β) (s : KeyedSeq κ α) : KeyedSeq κ β :=
  { values := s.values.map f, positions := s.positions }

/-- Where a value goes depends on its key only. -/
theorem map_insert {β : Type} (f : α → β) (s : KeyedSeq κ α) (k : κ) (v : α) (overwrite : Bool) :
    (s.insert k v overwrite).map f = (s.map f).insert k (f v) overwrite := by
  cases h : s.indexOf? k with
  | none =>
    have hmap : (s.map f).indexOf? k = none := h
    rw [insert_absent h, insert_absent hmap]
    simp [map, length]
  | some i =>
    have hmap : (s.map f).indexOf? k = some i := h
    cases overwrite with
    | false => rw [insert_ignored h, insert_ignored hmap]
    | true =>
      rw [insert_present h, insert_present hmap]
      simp [map, List.map_set]

variable [LawfulBEq κ]

/-- A key keeps its position; a new one stands for the former end. -/
theorem indexOf?_insert (s : KeyedSeq κ α) (k : κ) (v : α) (overwrite : Bool) (k' : κ) :
    (s.insert k v overwrite).indexOf? k' =
      if k' == k then some ((s.indexOf? k).getD s.length) else s.indexOf? k' := by
  cases h : s.indexOf? k with
  | none =>
    rw [insert_absent h, indexOf?, List.lookup_cons]
    split <;> simp_all [indexOf?]
  | some i =>
    have hpos : (s.insert k v overwrite).indexOf? k' = s.indexOf? k' := by
      cases overwrite with
      | false => rw [insert_ignored h]
      | true => rw [insert_present h]; rfl
    rw [hpos]
    by_cases hk : k' = k
    · simp [hk, h]
    · simp [hk]

theorem indexOf?_insert_self (s : KeyedSeq κ α) (k : κ) (v : α) (overwrite : Bool) :
    (s.insert k v overwrite).indexOf? k = some ((s.indexOf? k).getD s.length) := by
  rw [indexOf?_insert, if_pos BEq.rfl]

theorem indexOf?_insert_of_ne (h : k' ≠ k) (s : KeyedSeq κ α) (v : α) (overwrite : Bool) :
    (s.insert k v overwrite).indexOf? k' = s.indexOf? k' := by
  rw [indexOf?_insert, if_neg (by simpa using h)]

theorem WellKeyed.insert (h : s.WellKeyed) (k : κ) (v : α) (overwrite : Bool) :
    (s.insert k v overwrite).WellKeyed := by
  cases hk : s.indexOf? k with
  | some i =>
    cases overwrite with
    | false => rwa [insert_ignored hk]
    | true =>
      rw [insert_present hk]
      refine ⟨fun hj => ?_, h.injective⟩
      have := h.lt_length hj
      simpa [length] using this
  | none =>
    have hlen : (s.insert k v overwrite).length = s.length + 1 := by
      simp [insert_absent hk, length]
    have hself := indexOf?_insert_self s k v overwrite
    simp only [hk, Option.getD_none] at hself
    -- a key that was there stands before the former end, the new one at it
    have hbefore : ∀ {c j}, c ≠ k → (s.insert k v overwrite).indexOf? c = some j →
        j < s.length := by
      intro c j hc hj
      exact h.lt_length (by rwa [indexOf?_insert_of_ne hc] at hj)
    constructor
    · intro c j hj
      by_cases hc : c = k
      · subst hc
        rw [hself] at hj
        injection hj
        omega
      · have := hbefore hc hj
        omega
    · intro a b j ha hb
      by_cases hak : a = k <;> by_cases hbk : b = k
      · rw [hak, hbk]
      · subst hak
        rw [hself] at ha
        injection ha
        have := hbefore hbk hb
        omega
      · subst hbk
        rw [hself] at hb
        injection hb
        have := hbefore hak ha
        omega
      · rw [indexOf?_insert_of_ne hak] at ha
        rw [indexOf?_insert_of_ne hbk] at hb
        exact h.injective ha hb

theorem WellKeyed.apply (h : s.WellKeyed) (op : Op κ α) : (s.apply op).WellKeyed := by
  cases op with
  | clear => exact wellKeyed_empty
  | refill vs => exact wellKeyed_empty.extend vs
  | extend vs => exact h.extend vs
  | push v => exact h.push v
  | insert k v overwrite => exact h.insert k v overwrite
  | replace k v => exact h.modify k _

theorem WellKeyed.run (h : s.WellKeyed) (ops : List (Op κ α)) : (s.run ops).WellKeyed := by
  induction ops generalizing s with
  | nil => exact h
  | cons op ops ih => exact ih (h.apply op)

/-- Without values there are no keys either. -/
theorem WellKeyed.eq_empty (h : s.WellKeyed) (hs : s.toList = []) : s = ∅ := by
  have hpositions : s.positions = [] := by
    cases hp : s.positions with
    | nil => rfl
    | cons entry rest =>
      have hfound : s.indexOf? entry.1 = some entry.2 := by
        rw [indexOf?, hp, List.lookup_cons_self]
      have hlt : entry.2 < s.toList.length := h.lt_length hfound
      rw [hs] at hlt
      exact absurd hlt (Nat.not_lt_zero _)
  obtain ⟨values, positions⟩ := s
  obtain rfl : values = [] := hs
  obtain rfl : positions = [] := hpositions
  rfl

theorem insert_insert_self (s : KeyedSeq κ α) (k : κ) (v w : α) :
    (s.insert k v true).insert k w true = s.insert k w true := by
  have hself := indexOf?_insert_self s k v true
  cases h : s.indexOf? k with
  | none =>
    rw [h] at hself
    rw [insert_present hself, insert_absent h, insert_absent h]
    simp [length]
  | some i =>
    rw [h] at hself
    rw [insert_present hself, insert_present h, insert_present h]
    simp

/-- A value that has been put somewhere may be put there again, whether it may replace others or not.
-/
theorem insert_insert_same (s : KeyedSeq κ α) (k : κ) (v : α) (overwrite : Bool) :
    (s.insert k v overwrite).insert k v overwrite = s.insert k v overwrite := by
  cases overwrite with
  | false => exact insert_ignored (indexOf?_insert_self s k v false) v
  | true => exact insert_insert_self s k v v

/-- Values under different keys may be put in either order as long as no order of first insertions
changes. -/
theorem insert_comm (hs : s.WellKeyed) (hne : k ≠ k') (hk : s.containsKey k = true) (v v' : α) :
    (s.insert k' v' true).insert k v true = (s.insert k v true).insert k' v' true := by
  obtain ⟨i, hi⟩ := containsKey_iff.mp hk
  have hlt := hs.lt_length hi
  have hi' : (s.insert k' v' true).indexOf? k = some i := by rwa [indexOf?_insert_of_ne hne]
  have hk' := indexOf?_insert_of_ne hne.symm s v true
  cases hj : s.indexOf? k' with
  | none =>
    rw [hj] at hk'
    rw [insert_present hi', insert_absent hk', insert_absent hj, insert_present hi]
    simp [length, List.set_append_left _ _ hlt]
  | some j =>
    rw [hj] at hk'
    have hij : i ≠ j := by
      intro he
      subst he
      exact hne (hs.injective hi hj)
    rw [insert_present hi', insert_present hk', insert_present hj, insert_present hi]
    simp [List.set_comm _ _ hij]

end SqlCompose.KeyedSeq
