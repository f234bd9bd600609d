import Mathlib.Data.String.Basic
import SqlCompose.Proofs.KeyedSeq.Refinement
import SqlCompose.Proofs.KeyedSeq.Surplus

/-!
Positions are given for ever: however a sequence goes on, its values stay where they stand and its
keys lead where they led.
-/
namespace SqlCompose.KeyedSeq

variable {κ α : Type} [BEq κ] {s t u : KeyedSeq κ α} {es : Entries κ α} {k k' : κ} {v : α} {i : Nat}
  {op : Op κ α} {ops : List (Op κ α)} {vs : List α} {ws : List (Nat × α)}

/-- The sequence is at least as long as an earlier one, and the same keys lead to the positions that
were there. -/
structure Extends (t s : KeyedSeq κ α) : Prop where
  length_le : s.length ≤ t.length
  indexOf?_iff : ∀ k i, i < s.length → (t.indexOf? k = some i ↔ s.indexOf? k = some i)

theorem indexOf?_congr [EquivBEq κ] (h : (k == k') = true) (s : KeyedSeq κ α) :
    s.indexOf? k = s.indexOf? k' := by
  obtain ⟨values, positions⟩ := s
  simp only [indexOf?]
  induction positions with
  | nil => rfl
  | cons entry rest ih => rw [List.lookup_cons, List.lookup_cons, BEq.congr_left h, ih]

namespace Extends

theorem refl (s : KeyedSeq κ α) : s.Extends s := ⟨Nat.le_refl _, fun _ _ _ => Iff.rfl⟩

theorem trans (h : u.Extends t) (h' : t.Extends s) : u.Extends s where
  length_le := Nat.le_trans h'.length_le h.length_le
  indexOf?_iff k i hi := by
    have hlt : i < t.length := Nat.lt_of_lt_of_le hi h'.length_le
    exact (h.indexOf?_iff k i hlt).trans (h'.indexOf?_iff k i hi)

theorem extend (s : KeyedSeq κ α) (vs : List α) : (s.extend vs).Extends s where
  length_le := by simp [length, KeyedSeq.extend]
  indexOf?_iff _ _ _ := Iff.rfl

theorem set (s : KeyedSeq κ α) (i : Nat) (v : α) :
    Extends { s with values := s.values.set i v } s where
  length_le := by simp [length]
  indexOf?_iff _ _ _ := Iff.rfl

theorem modify (s : KeyedSeq κ α) (k : κ) (v : α) : (s.modify k fun _ => v).Extends s := by
  cases hk : s.indexOf? k with
  | none =>
    simp only [KeyedSeq.modify, hk]
    exact refl s
  | some i =>
    rw [replace_present hk]
    exact set s i v

variable [EquivBEq κ]

/-- A new key leads to the end, where no position was before. -/
theorem insert (s : KeyedSeq κ α) (k : κ) (v : α) (overwrite : Bool) :
    (s.insert k v overwrite).Extends s := by
  cases hk : s.indexOf? k with
  | none =>
    rw [insert_absent hk]
    refine ⟨by simp [length], fun l i hi => ?_⟩
    rw [indexOf?, List.lookup_cons]
    by_cases hl : (l == k) = true
    · rw [indexOf?_congr hl s, hk, hl]
      simp only [Option.some.injEq, reduceCtorEq, iff_false]
      omega
    · rw [Bool.not_eq_true] at hl
      rw [hl]
      rfl
  | some i =>
    cases overwrite with
    | false =>
      rw [insert_ignored hk]
      exact refl s
    | true =>
      rw [insert_present hk]
      exact set s i v

theorem insertAll {key : α → κ} (s : KeyedSeq κ α) (vs : List α) :
    (s.insertAll key vs).Extends s := by
  induction vs generalizing s with
  | nil => exact refl s
  | cons v vs ih => exact (ih _).trans (insert s (key v) v true)

/-- An operation goes on with the sequence unless it starts again with another. -/
theorem apply (s : KeyedSeq κ α) (h : op.isRestart = false) : (s.apply op).Extends s := by
  cases op with
  | clear => cases h
  | refill vs => cases h
  | extend vs => exact extend s vs
  | push v => exact extend s [v]
  | insert k v overwrite => exact insert s k v overwrite
  | replace k v => exact modify s k v

theorem run (s : KeyedSeq κ α) (h : ∀ op ∈ ops, op.isRestart = false) : (s.run ops).Extends s := by
  induction ops generalizing s with
  | nil => exact refl s
  | cons op ops ih =>
    rw [List.forall_mem_cons] at h
    exact (ih (s.apply op) h.2).trans (apply s h.1)

end Extends

/-- The key and the value of an operation that may replace the value under a key. -/
def Op.overwrite? : Op κ α → Option (κ × α)
  | .insert k v true => some (k, v)
  | .replace k v => some (k, v)
  | _ => none

/-- The values that an operation puts behind the others, which are none if it starts again. -/
def added (s : KeyedSeq κ α) : Op κ α → List α
  | .extend vs => vs
  | .push v => [v]
  | .insert k v _ => if s.containsKey k then [] else [v]
  | .replace _ _ | .clear | .refill _ => []

/-- The value that an operation puts in the place of another, with its position. -/
def replaced (s : KeyedSeq κ α) (op : Op κ α) : List (Nat × α) :=
  (op.overwrite?.bind fun w => (s.indexOf? w.1).map fun i => (i, w.2)).toList

/-- The values that the operations of a run put behind the others, in order. -/
def addedBy (s : KeyedSeq κ α) : List (Op κ α) → List α
  | [] => []
  | op :: ops => s.added op ++ (s.apply op).addedBy ops

/-- The values that the operations of a run put in the place of others, in order. -/
def replacedBy (s : KeyedSeq κ α) : List (Op κ α) → List (Nat × α)
  | [] => []
  | op :: ops => s.replaced op ++ (s.apply op).replacedBy ops

/-- The list with some values at given positions, a later one in the place of an earlier one. -/
def setAll (vs : List α) (ws : List (Nat × α)) : List α := ws.foldl (fun vs w => vs.set w.1 w.2) vs

theorem setAll_append (vs : List α) (ws ws' : List (Nat × α)) :
    setAll vs (ws ++ ws') = setAll (setAll vs ws) ws' :=
  List.foldl_append

/-- Values may be put at positions that are there before or after others are added. -/
theorem setAll_append_left (h : ∀ w ∈ ws, w.1 < vs.length) (vs' : List α) :
    setAll (vs ++ vs') ws = setAll vs ws ++ vs' := by
  induction ws generalizing vs with
  | nil => rfl
  | cons w ws ih =>
    rw [List.forall_mem_cons] at h
    have hset : (vs ++ vs').set w.1 w.2 = vs.set w.1 w.2 ++ vs' := List.set_append_left _ _ h.1
    have hws : ∀ x ∈ ws, x.1 < (vs.set w.1 w.2).length := by
      intro x hx
      rw [List.length_set]
      exact h.2 x hx
    have hrest := ih hws
    rw [← hset] at hrest
    exact hrest

theorem getElem?_setAll_of_ne (h : ∀ w ∈ ws, w.1 ≠ i) (vs : List α) :
    (setAll vs ws)[i]? = vs[i]? := by
  induction ws generalizing vs with
  | nil => rfl
  | cons w ws ih =>
    rw [List.forall_mem_cons] at h
    exact (ih h.2 _).trans (List.getElem?_set_ne h.1)

theorem mem_replaced {w : Nat × α} :
    w ∈ s.replaced op ↔ ∃ k, op.overwrite? = some (k, w.2) ∧ s.indexOf? k = some w.1 := by
  obtain ⟨i, v⟩ := w
  simp only [replaced, Option.mem_toList, Option.bind_eq_some_iff, Option.map_eq_some_iff,
    Prod.exists, Prod.mk.injEq]
  constructor
  · rintro ⟨k, v', hop, j, hj, rfl, rfl⟩
    exact ⟨k, hop, hj⟩
  · rintro ⟨k, hop, hi⟩
    exact ⟨k, v, hop, i, hi, rfl, rfl⟩

/-- One operation in closed form: what it adds goes behind the others, what it replaces stands where
its key leads, and nothing else changes. -/
theorem toList_apply (s : KeyedSeq κ α) (h : op.isRestart = false) :
    (s.apply op).toList = setAll (s.toList ++ s.added op) (s.replaced op) := by
  cases op with
  | clear => cases h
  | refill vs => cases h
  | extend vs => rfl
  | push v => rfl
  | insert k v overwrite =>
    rw [apply, added, containsKey]
    cases hk : s.indexOf? k with
    | none =>
      rw [insert_absent hk]
      cases overwrite <;> simp [replaced, Op.overwrite?, hk, setAll, toList]
    | some i =>
      cases overwrite with
      | false =>
        rw [insert_ignored hk]
        simp [replaced, Op.overwrite?, setAll]
      | true =>
        rw [insert_present hk]
        simp [replaced, Op.overwrite?, hk, setAll, toList]
  | replace k v =>
    rw [apply, added]
    cases hk : s.indexOf? k with
    | none => simp [modify, replaced, Op.overwrite?, hk, setAll]
    | some i =>
      rw [replace_present hk]
      simp [replaced, Op.overwrite?, hk, setAll, toList]

/-- A whole run in closed form. What it replaces stood there before or was added on the way, so all of
it may be added first. -/
theorem toList_run [EquivBEq κ] (hs : s.Refines es) (h : ∀ op ∈ ops, op.isRestart = false) :
    (s.run ops).toList = setAll (s.toList ++ s.addedBy ops) (s.replacedBy ops) := by
  induction ops generalizing s es with
  | nil => exact (List.append_nil _).symm
  | cons op ops ih =>
    rw [List.forall_mem_cons] at h
    have hbound : ∀ w ∈ s.replaced op, w.1 < (s.toList ++ s.added op).length := by
      intro w hw
      obtain ⟨k, -, hk⟩ := mem_replaced.mp hw
      have hlt : w.1 < s.toList.length := hs.lt_length hk
      rw [List.length_append]
      omega
    have hrun : (s.run (op :: ops)).toList = ((s.apply op).run ops).toList := rfl
    rw [hrun, ih (hs.apply op) h.2, toList_apply s h.1, addedBy, replacedBy, setAll_append,
      ← List.append_assoc, setAll_append_left hbound]

/-- What a run replaces among the values that were there stands under a key that led there from the
start. -/
theorem exists_overwrite_of_mem_replacedBy [EquivBEq κ] (h : ∀ op ∈ ops, op.isRestart = false)
    (hw : (i, v) ∈ s.replacedBy ops) (hi : i < s.length) :
    ∃ op ∈ ops, ∃ k, op.overwrite? = some (k, v) ∧ s.indexOf? k = some i := by
  induction ops generalizing s with
  | nil => cases hw
  | cons op ops ih =>
    rw [List.forall_mem_cons] at h
    rcases List.mem_append.mp hw with hw | hw
    · obtain ⟨k, hop, hk⟩ := mem_replaced.mp hw
      exact ⟨op, List.mem_cons_self, k, hop, hk⟩
    · have hext : (s.apply op).Extends s := .apply s h.1
      obtain ⟨o, ho, k, hover, hk⟩ := ih h.2 hw (Nat.lt_of_lt_of_le hi hext.length_le)
      exact ⟨o, List.mem_cons_of_mem op ho, k, hover, (hext.indexOf?_iff k i hi).mp hk⟩

/-- A value stays as long as no operation overwrites it under a key that leads to it. -/
theorem get?_run_of_not_overwritten [EquivBEq κ] (hs : s.Refines es)
    (h : ∀ op ∈ ops, op.isRestart = false) (hi : i < s.length)
    (hkept : ¬ ∃ op ∈ ops, ∃ k v, op.overwrite? = some (k, v) ∧ s.indexOf? k = some i) :
    (s.run ops).get? i = s.get? i := by
  have hne : ∀ w ∈ s.replacedBy ops, w.1 ≠ i := by
    rintro ⟨j, v⟩ hw rfl
    obtain ⟨op, hop, k, hover, hk⟩ := exists_overwrite_of_mem_replacedBy h hw hi
    exact hkept ⟨op, hop, k, v, hover, hk⟩
  have hlist : (s.run ops).toList[i]? = s.toList[i]? := by
    rw [toList_run hs h, getElem?_setAll_of_ne hne]
    exact List.getElem?_append_left hi
  exact hlist

/-- What lasts when a sequence goes on with some operations. -/
structure Lasts (s : KeyedSeq κ α) (ops : List (Op κ α)) : Prop where
  length_le : s.length ≤ (s.run ops).length
  /-- A key keeps its position. -/
  indexOf? : ∀ k i, s.indexOf? k = some i → (s.run ops).indexOf? k = some i
  /-- A key that was absent gets none of the positions that were there. -/
  length_le_indexOf? : ∀ k i, s.indexOf? k = none → (s.run ops).indexOf? k = some i → s.length ≤ i
  /-- A value becomes another only if it is overwritten under a key that leads to it. -/
  overwritten : ∀ i, i < s.length → (s.run ops).get? i ≠ s.get? i →
    ∃ op ∈ ops, ∃ k v, op.overwrite? = some (k, v) ∧ s.indexOf? k = some i
  /-- A value that no key leads to is never changed. -/
  unkeyed : ∀ i, i < s.length → (∀ k, s.indexOf? k ≠ some i) → (s.run ops).get? i = s.get? i
  /-- So it is with values that are added without a key. -/
  extended : ∀ (vs : List α) (i : Nat), i < vs.length →
    ((s.extend vs).run ops).get? (s.length + i) = vs[i]?
  /-- Each value that was there or is added has a place of its own, in this order, and is there in the
  end unless another is put in its place. -/
  toList : (s.run ops).toList = setAll (s.toList ++ s.addedBy ops) (s.replacedBy ops)

/-- Whatever led to a sequence and however it goes on, positions are given for ever. An operation that
starts again makes another sequence and does not go on with this one. -/
theorem lasts_run [EquivBEq κ] (before after : List (Op κ α))
    (h : ∀ op ∈ after, op.isRestart = false) : ((∅ : KeyedSeq κ α).run before).Lasts after := by
  generalize hs : (∅ : KeyedSeq κ α).run before = s
  have href : s.Refines ((∅ : Entries κ α).run before) := hs ▸ Refines.empty.run before
  have hext : (s.run after).Extends s := .run s h
  constructor
  · exact hext.length_le
  · intro k i hk
    exact (hext.indexOf?_iff k i (href.lt_length hk)).mpr hk
  · intro k i hnone hk
    by_contra hlt
    rw [(hext.indexOf?_iff k i (Nat.not_le.mp hlt)).mp hk] at hnone
    cases hnone
  · intro i hi hne
    by_contra hkept
    exact hne (get?_run_of_not_overwritten href h hi hkept)
  · intro i hi hno
    apply get?_run_of_not_overwritten href h hi
    rintro ⟨op, hop, k, v, hover, hk⟩
    exact hno k hk
  · intro vs i hi
    have hlt : s.length + i < (s.extend vs).length := by
      simp only [length, extend, List.length_append]
      omega
    have hadded : (s.extend vs).get? (s.length + i) = vs[i]? := by
      simp [get?, extend, length, List.getElem?_append_right]
    rw [← hadded]
    apply get?_run_of_not_overwritten (href.extend vs) h hlt
    rintro ⟨op, hop, k, v, hover, hk⟩
    -- keys lead to the positions in front of the values that are added
    have hbefore : s.length + i < s.length := href.lt_length hk
    omega
  · exact toList_run href h

/-- A value without a key between two with one, one of which is overwritten twice, while the other is
kept by an insertion that is ignored. -/
theorem lasts_run_mixed :
    let before : List (Op String Nat) := [.insert "k" 1 false, .push 2, .insert "l" 3 false]
    let after : List (Op String Nat) :=
      [.insert "l" 4 false, .insert "k" 5 true, .insert "m" 6 true, .replace "k" 7, .extend [8]]
    let s := (∅ : KeyedSeq String Nat).run before
    (∀ op ∈ after, op.isRestart = false) ∧ s.toList = [1, 2, 3] ∧
      s.addedBy after = [6, 8] ∧ s.replacedBy after = [(0, 5), (0, 7)] ∧
      (s.run after).toList = [7, 2, 3, 6, 8] ∧ (s.run after).indexOf? "l" = some 2 ∧
      (s.run after).get? 1 = s.get? 1 := by
  intro before after s
  have hgoes : ∀ op ∈ after, op.isRestart = false := by decide
  have hlasts : s.Lasts after := lasts_run before after hgoes
  refine ⟨hgoes, rfl, rfl, rfl, hlasts.toList, hlasts.indexOf? "l" 2 rfl, ?_⟩
  refine hlasts.unkeyed 1 (by decide) fun k hk => ?_
  have hlookup : [("l", 2), ("k", 0)].lookup k = some 1 := hk
  simp only [List.lookup_cons, List.lookup_nil] at hlookup
  split at hlookup
  · cases hlookup
  · split at hlookup <;> cases hlookup

end SqlCompose.KeyedSeq
