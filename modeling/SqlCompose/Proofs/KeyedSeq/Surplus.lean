import SqlCompose.Proofs.KeyedSeq.Merge

/-! Keyed sequences with one value more, in front of the others or between them. -/
namespace SqlCompose.KeyedSeq

variable {κ α : Type} {s : KeyedSeq κ α} {k : κ} {v w : α} {ops : List (Op κ α)}

/-- The sequence with a value in front of the others, which has no key. -/
def cons (v : α) (s : KeyedSeq κ α) : KeyedSeq κ α :=
  { values := v :: s.values, positions := s.positions.map fun entry => (entry.1, entry.2 + 1) }

/-- Whether an operation starts again with other values, without those that are there. -/
def Op.isRestart : Op κ α → Bool
  | .clear | .refill _ => true
  | _ => false

variable [BEq κ]

theorem indexOf?_cons (v : α) (s : KeyedSeq κ α) (k : κ) :
    (s.cons v).indexOf? k = (s.indexOf? k).map (· + 1) := by
  obtain ⟨values, positions⟩ := s
  simp only [indexOf?, cons]
  induction positions with
  | nil => rfl
  | cons entry rest ih =>
    obtain ⟨l, i⟩ := entry
    simp only [List.map_cons, List.lookup_cons]
    cases k == l with
    | true => rfl
    | false => exact ih

theorem containsKey_cons (v : α) (s : KeyedSeq κ α) (k : κ) :
    (s.cons v).containsKey k = s.containsKey k := by
  rw [containsKey, containsKey, indexOf?_cons, Option.isSome_map]

theorem insert_cons (v : α) (s : KeyedSeq κ α) (k : κ) (w : α) (overwrite : Bool) :
    (s.cons v).insert k w overwrite = (s.insert k w overwrite).cons v := by
  have hcons := indexOf?_cons v s k
  cases hk : s.indexOf? k with
  | none =>
    rw [hk] at hcons
    rw [insert_absent hcons, insert_absent hk]
    simp [cons, length]
  | some i =>
    rw [hk] at hcons
    cases overwrite with
    | false => rw [insert_ignored hcons, insert_ignored hk]
    | true =>
      rw [insert_present hcons, insert_present hk]
      simp [cons]

theorem modify_cons (v : α) (s : KeyedSeq κ α) (k : κ) (f : α → α) :
    (s.cons v).modify k f = (s.modify k f).cons v := by
  rw [modify, modify, indexOf?_cons]
  cases s.indexOf? k with
  | none => rfl
  | some i => simp [cons]

theorem apply_cons {op : Op κ α} (h : op.isRestart = false) :
    (s.cons v).apply op = (s.apply op).cons v := by
  cases op with
  | clear => cases h
  | refill vs => cases h
  | extend vs => rfl
  | push w => rfl
  | insert k w overwrite => exact insert_cons v s k w overwrite
  | replace k w => exact modify_cons v s k _

theorem run_cons (h : ∀ op ∈ ops, op.isRestart = false) :
    (s.cons v).run ops = (s.run ops).cons v := by
  induction ops generalizing s with
  | nil => rfl
  | cons op ops ih =>
    rw [List.forall_mem_cons] at h
    rw [run, run, List.foldl_cons, List.foldl_cons, apply_cons h.1]
    exact ih h.2

variable {key : α → κ} {s' : KeyedSeq κ α} {vs : List α}

/-- A sequence has one value more than another, somewhere between the others. -/
structure HasMore (key : α → κ) (v : α) (s s' : KeyedSeq κ α) : Prop where
  keyedBy : s.KeyedBy key
  keyedBy' : s'.KeyedBy key
  toList : ∃ before after, s.toList = before ++ after ∧ s'.toList = before ++ v :: after

namespace HasMore

theorem containsKey_eq (h : HasMore key v s s') (hne : key w ≠ key v) :
    s'.containsKey (key w) = s.containsKey (key w) := by
  obtain ⟨hs, hs', before, after, hold, hnew⟩ := h
  rw [Bool.eq_iff_iff, hs.containsKey_iff, hs'.containsKey_iff, hold, hnew]
  simp only [List.mem_append, List.mem_cons, or_and_right, exists_or, exists_eq_left, hne.symm,
    false_or]

theorem toList_ne (h : HasMore key v s s') : s'.toList ≠ s.toList := by
  obtain ⟨-, -, before, after, hold, hnew⟩ := h
  intro hsame
  have hlength := congrArg List.length (hold.symm.trans (hsame.symm.trans hnew))
  rw [List.length_append, List.length_append, List.length_cons] at hlength
  omega

/-- The value that is there in addition is found, and its key leads nowhere without it. -/
theorem find?_eq (h : HasMore key v s s') : s'.find? (key v) = some v ∧ s.find? (key v) = none := by
  obtain ⟨hs, hs', before, after, hold, hnew⟩ := h
  constructor
  · rw [hs'.find?_eq_some_iff, hnew]
    exact ⟨by simp, rfl⟩
  · rw [Option.eq_none_iff_forall_ne_some]
    intro u hu
    obtain ⟨hmem, hkey⟩ := hs.find?_eq_some_iff.mp hu
    have hd : (s'.toList.map key).Nodup := hs'.nodup
    rw [hnew, List.map_append, List.map_cons, List.nodup_middle, List.nodup_cons,
      ← List.map_append, ← hold] at hd
    exact hd.1 (hkey ▸ List.mem_map_of_mem hmem)

variable [LawfulBEq κ]

/-- A value with a new key is put behind the others. -/
theorem of_insert (h : s.KeyedBy key) (hv : s.containsKey (key v) = false) :
    HasMore key v s (s.insert (key v) v true) := by
  refine ⟨h, h.insert v true, s.toList, [], (List.append_nil _).symm, ?_⟩
  rw [insert_absent (indexOf?_eq_none_iff.mpr hv)]
  rfl

/-- A value with another key goes to the same place in both. -/
theorem insert (h : HasMore key v s s') (hne : key w ≠ key v) :
    HasMore key v (s.insert (key w) w true) (s'.insert (key w) w true) := by
  refine ⟨h.keyedBy.insert w true, h.keyedBy'.insert w true, ?_⟩
  obtain ⟨before, after, hold, hnew⟩ := h.toList
  rw [h.keyedBy.toList_insert, h.keyedBy'.toList_insert, h.containsKey_eq hne, hold, hnew]
  simp only [List.map_append, List.map_cons, List.append_assoc, List.cons_append,
    if_neg (mt beq_iff_eq.mp hne.symm)]
  exact ⟨_, _, rfl, rfl⟩

theorem insertAll (h : HasMore key v s s') (hne : ∀ w ∈ vs, key w ≠ key v) :
    HasMore key v (s.insertAll key vs) (s'.insertAll key vs) := by
  induction vs generalizing s s' with
  | nil => exact h
  | cons w ws ih =>
    rw [List.forall_mem_cons] at hne
    exact ih (h.insert hne.1) hne.2

end HasMore

end SqlCompose.KeyedSeq
