import Mathlib.Data.List.Nodup
import SqlCompose.Proofs.KeyedSeq.Insertion

/-!
Sequences in which every value stands under a key of its own, as parameters do under their names,
and the insertion of whole lists into them.
-/
namespace SqlCompose.KeyedSeq

variable {κ α : Type} [BEq κ] {key : α → κ} {s : KeyedSeq κ α} {k : κ} {v : α} {i : Nat}

/-- The keys are those of the values, each recorded at the position of its value. -/
def KeyedBy (key : α → κ) (s : KeyedSeq κ α) : Prop :=
  ∀ k i, s.indexOf? k = some i ↔ (s.toList.map key)[i]? = some k

theorem keyedBy_empty (key : α → κ) : (∅ : KeyedSeq κ α).KeyedBy key := by
  intro k i
  constructor <;> intro h <;> cases h

namespace KeyedBy

theorem indexOf?_key (h : s.KeyedBy key) (hv : s.get? i = some v) :
    s.indexOf? (key v) = some i := by
  rw [h, List.getElem?_map]
  exact congrArg (Option.map key) hv

theorem exists_get? (h : s.KeyedBy key) (hi : s.indexOf? k = some i) :
    ∃ v, s.get? i = some v ∧ key v = k := by
  rw [h, List.getElem?_map] at hi
  exact Option.map_eq_some_iff.mp hi

theorem find?_eq_some_iff (h : s.KeyedBy key) :
    s.find? k = some v ↔ v ∈ s.toList ∧ key v = k := by
  rw [find?, Option.bind_eq_some_iff]
  constructor
  · rintro ⟨i, hi, hv⟩
    obtain ⟨w, hw, hk⟩ := h.exists_get? hi
    obtain rfl : w = v := Option.some.inj (hw.symm.trans hv)
    exact ⟨List.mem_of_getElem? hw, hk⟩
  · rintro ⟨hv, rfl⟩
    obtain ⟨i, hi⟩ := List.mem_iff_getElem?.mp hv
    exact ⟨i, h.indexOf?_key hi, hi⟩

theorem containsKey_iff (h : s.KeyedBy key) :
    s.containsKey k = true ↔ ∃ v ∈ s.toList, key v = k := by
  rw [KeyedSeq.containsKey_iff]
  constructor
  · rintro ⟨i, hi⟩
    obtain ⟨v, hv, hk⟩ := h.exists_get? hi
    exact ⟨v, List.mem_of_getElem? hv, hk⟩
  · rintro ⟨v, hv, rfl⟩
    obtain ⟨i, hi⟩ := List.mem_iff_getElem?.mp hv
    exact ⟨i, h.indexOf?_key hi⟩

theorem wellKeyed (h : s.KeyedBy key) : s.WellKeyed where
  lt_length hi := by
    obtain ⟨v, hv, -⟩ := h.exists_get? hi
    exact (List.getElem?_eq_some_iff.mp hv).1
  injective hi hj := by
    rw [h] at hi hj
    exact Option.some.inj (hi.symm.trans hj)

/-- Two positions with one key would both be the one recorded for it. -/
theorem nodup (h : s.KeyedBy key) : (s.toList.map key).Nodup := by
  rw [List.nodup_iff_injective_get]
  intro i j he
  have hi := (h _ i).mpr (List.getElem?_eq_getElem i.isLt)
  have hj := (h _ j).mpr (List.getElem?_eq_getElem j.isLt)
  simp only [List.get_eq_getElem] at he
  rw [he] at hi
  exact Fin.ext (Option.some.inj (hi.symm.trans hj))

/-- A value takes the place of one with its own key, so the list of keys stays the same. -/
theorem map_key_set (h : s.KeyedBy key) (hi : s.indexOf? (key v) = some i) :
    (s.values.set i v).map key = s.values.map key := by
  obtain ⟨hlt, he⟩ := List.getElem?_eq_some_iff.mp ((h _ _).mp hi)
  rw [List.map_set, ← he]
  exact List.set_getElem_self hlt

/-- A value under its own key is new at the end, or takes the place of one with the same key. -/
theorem map_key_insert (h : s.KeyedBy key) (v : α) :
    (s.insert (key v) v true).toList.map key =
      if s.containsKey (key v) then s.toList.map key else s.toList.map key ++ [key v] := by
  cases hv : s.indexOf? (key v) with
  | none => simp [insert_absent hv, containsKey, hv, toList]
  | some i =>
    rw [insert_present hv, if_pos (KeyedSeq.containsKey_iff.mpr ⟨i, hv⟩)]
    exact h.map_key_set hv

/-- No value stands under a key apart from the one whose position is recorded for it. -/
theorem key_ne (h : s.KeyedBy key) (hi : s.get? i = some v) (hk : s.indexOf? k ≠ some i) :
    key v ≠ k := by
  rintro rfl
  exact hk (h.indexOf?_key hi)

variable [LawfulBEq κ]

theorem eq_empty (h : s.KeyedBy key) (hs : s.toList = []) : s = ∅ := h.wellKeyed.eq_empty hs

theorem set_eq_map (h : s.KeyedBy key) (hi : s.indexOf? (key v) = some i) :
    s.values.set i v = s.toList.map fun w => if key w == key v then v else w := by
  apply List.ext_getElem?
  intro j
  rw [List.getElem?_map]
  by_cases hij : i = j
  · subst hij
    obtain ⟨w, hw, hkey⟩ := h.exists_get? hi
    have hold : s.toList[i]? = some w := hw
    rw [hold, Option.map_some, if_pos (beq_iff_eq.mpr hkey)]
    exact List.getElem?_set_self (h.wellKeyed.lt_length hi)
  · rw [List.getElem?_set_ne hij]
    cases hw : s.toList[j]? with
    | none => exact hw
    | some w =>
      have hne : key w ≠ key v := h.key_ne hw fun hj => hij (Option.some.inj (hi.symm.trans hj))
      rw [Option.map_some, if_neg (mt beq_iff_eq.mp hne)]
      exact hw

/-- A value takes the place of the one with its key, or goes behind the others if there is none. -/
theorem toList_insert (h : s.KeyedBy key) (v : α) :
    (s.insert (key v) v true).toList =
      s.toList.map (fun w => if key w == key v then v else w) ++
        if s.containsKey (key v) then [] else [v] := by
  cases hv : s.indexOf? (key v) with
  | none =>
    have hold : ∀ w ∈ s.toList, (if key w == key v then v else w) = w := by
      intro w hw
      obtain ⟨i, hi⟩ := List.mem_iff_getElem?.mp hw
      have hne : key w ≠ key v := h.key_ne hi (by simp [hv])
      rw [if_neg (mt beq_iff_eq.mp hne)]
    rw [insert_absent hv, List.map_congr_left hold, List.map_id', containsKey, hv]
    rfl
  | some i =>
    rw [insert_present hv, if_pos (KeyedSeq.containsKey_iff.mpr ⟨i, hv⟩), List.append_nil]
    exact h.set_eq_map hv

theorem insert (h : s.KeyedBy key) (v : α) (overwrite : Bool) :
    (s.insert (key v) v overwrite).KeyedBy key := by
  cases hv : s.indexOf? (key v) with
  | none =>
    intro k i
    have hlen : s.length = (s.toList.map key).length := by simp [length, toList]
    have hkeys : (s.insert (key v) v overwrite).toList.map key = s.toList.map key ++ [key v] := by
      simp [insert_absent hv, toList]
    rw [indexOf?_insert, hkeys, hv, Option.getD_none, hlen]
    by_cases hi : i < (s.toList.map key).length
    · rw [List.getElem?_append_left hi, ← h]
      by_cases hk : k = key v
      · subst hk
        simp only [BEq.rfl, if_true, hv, reduceCtorEq, iff_false, Option.some.injEq]
        omega
      · simp [hk]
    · have hold : s.indexOf? k ≠ some i := by
        intro hk
        have := h.wellKeyed.lt_length hk
        omega
      rw [List.getElem?_append_right (by omega), List.getElem?_singleton]
      by_cases hk : k = key v
      · subst hk
        simp only [BEq.rfl, if_true, Option.some.injEq]
        split
        · simp only [iff_true]
          omega
        · simp only [reduceCtorEq, iff_false]
          omega
      · simp [hk, hold, Ne.symm hk]
  | some i =>
    cases overwrite with
    | false => rwa [insert_ignored hv]
    | true =>
      rw [insert_present hv]
      intro k j
      rw [toList, h.map_key_set hv]
      exact h k j

end KeyedBy

end SqlCompose.KeyedSeq
