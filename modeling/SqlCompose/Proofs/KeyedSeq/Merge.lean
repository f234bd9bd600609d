import Mathlib.Data.List.Induction
import SqlCompose.Proofs.KeyedSeq.SelfKeyed

/-!
Putting whole lists of values under their own keys, where the first value with a key decides the
position and the last one stays.
-/
namespace SqlCompose.KeyedSeq

variable {κ α : Type} [BEq κ] {key : α → κ} {s : KeyedSeq κ α} {v w : α} {vs : List α} {i : Nat}

/-- Puts each value of a list under its own key, replacing what is there. -/
def insertAll (key : α → κ) (s : KeyedSeq κ α) (vs : List α) : KeyedSeq κ α :=
  vs.foldl (fun s v => s.insert (key v) v true) s

@[simp] theorem insertAll_nil : s.insertAll key [] = s := rfl

@[simp] theorem insertAll_cons :
    s.insertAll key (v :: vs) = (s.insert (key v) v true).insertAll key vs := rfl

theorem insertAll_append (s : KeyedSeq κ α) (vs ws : List α) :
    s.insertAll key (vs ++ ws) = (s.insertAll key vs).insertAll key ws :=
  List.foldl_append

theorem mem_or_mem_of_mem_insertAll (h : v ∈ (s.insertAll key vs).toList) :
    v ∈ s.toList ∨ v ∈ vs := by
  induction vs generalizing s with
  | nil => exact .inl h
  | cons w ws ih =>
    rw [List.mem_cons]
    rcases ih h with h | h
    · rcases eq_or_mem_of_mem_insert h with rfl | h
      · exact .inr (.inl rfl)
      · exact .inl h
    · exact .inr (.inr h)

/-- The keys that are found taken when the values of a list are put under their keys in order. -/
def collisions (key : α → κ) (s : KeyedSeq κ α) : List α → List κ
  | [] => []
  | v :: vs =>
    (if s.containsKey (key v) then [key v] else []) ++ (s.insert (key v) v true).collisions key vs

theorem collisions_append (s : KeyedSeq κ α) (vs ws : List α) :
    s.collisions key (vs ++ ws) =
      s.collisions key vs ++ (s.insertAll key vs).collisions key ws := by
  induction vs generalizing s with
  | nil => rfl
  | cons v vs ih =>
    rw [List.cons_append, collisions, collisions, ih, List.append_assoc]
    rfl

/-- The last value of a list that has the given key. -/
def latest? (key : α → κ) (vs : List α) (k : κ) : Option α := vs.findRev? fun v => key v == k

theorem latest?_append (vs ws : List α) (k : κ) :
    latest? key (vs ++ ws) k = (latest? key ws k).or (latest? key vs k) := by
  simp only [latest?, List.findRev?_eq_find?_reverse, List.reverse_append, List.find?_append]

variable [LawfulBEq κ]

theorem latest?_eq_none_iff {k : κ} : latest? key vs k = none ↔ ∀ v ∈ vs, key v ≠ k := by
  simp [latest?, List.findRev?_eq_find?_reverse]

theorem mem_of_latest? {k : κ} (h : latest? key vs k = some v) : v ∈ vs ∧ key v = k := by
  rw [latest?, List.findRev?_eq_find?_reverse] at h
  have hk := List.find?_some h
  exact ⟨List.mem_reverse.mp (List.mem_of_find?_eq_some h), by simpa using hk⟩

/-- What a list makes of a value is what the rest of it makes of what the first of it makes of it. -/
theorem getD_latest?_cons (v : α) (vs : List α) (w : α) :
    (latest? key (v :: vs) (key w)).getD w =
      (latest? key vs (key w)).getD (if key w == key v then v else w) := by
  rw [← List.singleton_append, latest?_append]
  cases latest? key vs (key w) with
  | some u => rfl
  | none =>
    by_cases hw : key w = key v
    · simp [latest?, hw]
    · simp [latest?, hw, Ne.symm hw]

/-- Among the values with the key of a given one there is a last one. -/
theorem exists_latest? (key : α → κ) (h : v ∈ vs) :
    ∃ w ∈ vs, key w = key v ∧ latest? key vs (key v) = some w := by
  cases hlast : latest? key vs (key v) with
  | none => exact absurd rfl (latest?_eq_none_iff.mp hlast v h)
  | some w =>
    obtain ⟨hw, hk⟩ := mem_of_latest? hlast
    exact ⟨w, hw, hk, rfl⟩

theorem KeyedBy.insertAll (h : s.KeyedBy key) (vs : List α) : (s.insertAll key vs).KeyedBy key := by
  induction vs generalizing s with
  | nil => exact h
  | cons v vs ih => exact ih (h.insert v true)

theorem containsKey_insert {k k' : κ} {overwrite : Bool} :
    (s.insert k v overwrite).containsKey k' = true ↔ k' = k ∨ s.containsKey k' = true := by
  rw [containsKey_iff, containsKey_iff]
  by_cases hk : k' = k
  · subst hk
    simp [indexOf?_insert_self]
  · simp [indexOf?_insert_of_ne hk, hk]

theorem containsKey_insert_self (s : KeyedSeq κ α) (k : κ) (v : α) (overwrite : Bool) :
    (s.insert k v overwrite).containsKey k = true :=
  containsKey_insert.mpr (.inl rfl)

theorem containsKey_insert_of_containsKey {k : κ} (h : s.containsKey k = true) (k' : κ) (v : α)
    (overwrite : Bool) : (s.insert k' v overwrite).containsKey k = true :=
  containsKey_insert.mpr (.inr h)

theorem containsKey_insertAll {k : κ} :
    (s.insertAll key vs).containsKey k = true ↔ k ∈ vs.map key ∨ s.containsKey k = true := by
  induction vs generalizing s with
  | nil => simp
  | cons v vs ih =>
    rw [insertAll_cons, ih, containsKey_insert, List.map_cons, List.mem_cons]
    tauto

theorem containsKey_insertAll_empty {k : κ} :
    ((∅ : KeyedSeq κ α).insertAll key vs).containsKey k = true ↔ k ∈ vs.map key := by
  rw [containsKey_insertAll]
  exact or_iff_left Bool.false_ne_true

/-- Values that are merged from the start stand under their own keys. -/
theorem keyedBy_insertAll_empty (key : α → κ) (vs : List α) :
    ((∅ : KeyedSeq κ α).insertAll key vs).KeyedBy key :=
  (keyedBy_empty key).insertAll vs

/-- Values with keys of their own, none of which is there, go behind the others in order. -/
theorem toList_insertAll_of_absent (habsent : ∀ v ∈ vs, ¬ s.containsKey (key v) = true)
    (hd : (vs.map key).Nodup) : (s.insertAll key vs).toList = s.toList ++ vs := by
  induction vs generalizing s with
  | nil => simp
  | cons v vs ih =>
    rw [List.forall_mem_cons] at habsent
    rw [List.map_cons, List.nodup_cons] at hd
    have hnone : s.indexOf? (key v) = none := by simpa [containsKey] using habsent.1
    have hrest : ∀ w ∈ vs, ¬ (s.insert (key v) v true).containsKey (key w) = true := by
      intro w hw hkey
      rcases containsKey_insert.mp hkey with hsame | hthere
      · exact hd.1 (hsame ▸ List.mem_map_of_mem hw)
      · exact habsent.2 w hw hthere
    rw [insertAll_cons, ih hrest hd.2, insert_absent hnone, toList, List.append_assoc]
    rfl

/-- Among values with keys of their own the last one with a key is the only one. -/
theorem latest?_of_mem_of_nodup (hd : (vs.map key).Nodup) (hv : v ∈ vs) :
    latest? key vs (key v) = some v := by
  obtain ⟨w, hw, hk, hlast⟩ := exists_latest? key hv
  rw [hlast, List.inj_on_of_nodup_map hd hw hv hk]

/-- Values with keys of their own, merged into others: each takes the place of the one with its key,
and those with new keys go behind the others in order. -/
theorem KeyedBy.toList_insertAll (h : s.KeyedBy key) (hd : (vs.map key).Nodup) :
    (s.insertAll key vs).toList =
      s.toList.map (fun w => (latest? key vs (key w)).getD w) ++
        vs.filter fun v => !s.containsKey (key v) := by
  induction vs generalizing s with
  | nil => simp [latest?]
  | cons v vs ih =>
    rw [List.map_cons, List.nodup_cons] at hd
    have hne : ∀ w ∈ vs, key w ≠ key v := fun w hw he => hd.1 (he ▸ List.mem_map_of_mem hw)
    have hold : (fun w => (latest? key vs (key w)).getD w) ∘
        (fun w => if key w == key v then v else w) =
          fun w => (latest? key (v :: vs) (key w)).getD w := by
      funext w
      rw [getD_latest?_cons, Function.comp_apply]
      split
      · rename_i hw
        rw [beq_iff_eq.mp hw]
      · rfl
    have hrest : ∀ w ∈ vs, (!(s.insert (key v) v true).containsKey (key w)) =
        !s.containsKey (key w) := by
      intro w hw
      rw [containsKey, indexOf?_insert_of_ne (hne w hw), containsKey]
    rw [insertAll_cons, ih (h.insert v true) hd.2, List.filter_congr hrest, h.toList_insert,
      List.map_append, List.map_map, hold, List.append_assoc]
    congr 1
    cases hv : s.containsKey (key v) with
    | true => simp [hv]
    | false => simp [hv, latest?_eq_none_iff.mpr hne]

/-- A value whose key is present may be put before a list that does not mention the key. -/
theorem insert_insertAll_comm (hs : s.WellKeyed) (hk : s.containsKey (key v) = true)
    (hv : key v ∉ vs.map key) :
    (s.insertAll key vs).insert (key v) v true = (s.insert (key v) v true).insertAll key vs := by
  induction vs generalizing s with
  | nil => rfl
  | cons w ws ih =>
    rw [List.map_cons, List.mem_cons, not_or] at hv
    obtain ⟨hne, hws⟩ := hv
    rw [insertAll_cons, insertAll_cons,
      ih (hs.insert _ _ _) (containsKey_insert_of_containsKey hk _ _ _) hws, insert_comm hs hne hk]

/-- Replacing a value of a list by one with the same key has the effect of putting it afterwards. -/
theorem insertAll_set (hs : s.WellKeyed) (hd : (vs.map key).Nodup) (hi : vs[i]? = some w)
    (hw : key w = key v) :
    s.insertAll key (vs.set i v) = (s.insertAll key vs).insert (key v) v true := by
  induction vs generalizing s i with
  | nil => cases hi
  | cons u us ih =>
    rw [List.map_cons, List.nodup_cons] at hd
    cases i with
    | zero =>
      obtain rfl : u = w := Option.some.inj hi
      have hus : key v ∉ us.map key := hw ▸ hd.1
      rw [List.set_cons_zero, insertAll_cons, insertAll_cons, hw,
        insert_insertAll_comm (hs.insert _ _ _) (containsKey_insert_self _ _ _ _) hus,
        insert_insert_self]
    | succ i =>
      rw [List.set_cons_succ, insertAll_cons, insertAll_cons]
      exact ih (hs.insert _ _ _) hd.2 hi

/-- Merging the values that a merged list leaves has the effect of merging the list itself. -/
theorem insertAll_toList_insertAll (hs : s.WellKeyed) (vs : List α) :
    s.insertAll key ((∅ : KeyedSeq κ α).insertAll key vs).toList = s.insertAll key vs := by
  -- from the right: the last value is new to the merged ones, or replaces one of them
  induction vs using List.reverseRecOn with
  | nil => rfl
  | append_singleton vs v ih =>
    have hm : ((∅ : KeyedSeq κ α).insertAll key vs).KeyedBy key := keyedBy_insertAll_empty key vs
    rw [insertAll_append, insertAll_append, ← ih]
    simp only [insertAll_cons, insertAll_nil]
    cases hv : ((∅ : KeyedSeq κ α).insertAll key vs).indexOf? (key v) with
    | none => rw [insert_absent hv, toList, insertAll_append]; rfl
    | some i =>
      obtain ⟨w, hw, hk⟩ := hm.exists_get? hv
      rw [insert_present hv]
      exact insertAll_set hs hm.nodup hw hk

theorem find?_insert (hs : s.WellKeyed) (k : κ) (v : α) (k' : κ) :
    (s.insert k v true).find? k' = if k' == k then some v else s.find? k' := by
  rw [find?, find?, indexOf?_insert]
  cases hk : s.indexOf? k with
  | none =>
    rw [insert_absent hk]
    split
    · simp [get?, length]
    · cases hk' : s.indexOf? k' with
      | none => rfl
      | some j => exact List.getElem?_append_left (hs.lt_length hk')
  | some i =>
    have hi : i < s.values.length := hs.lt_length hk
    rw [insert_present hk]
    split
    · simp [get?, hi]
    · rename_i hne
      cases hk' : s.indexOf? k' with
      | none => rfl
      | some j =>
        have hij : i ≠ j := by
          rintro rfl
          exact hne (beq_iff_eq.mpr (hs.injective hk' hk))
        exact List.getElem?_set_ne hij

/-- Under a key stands the last value of the list that has it, or else what stood there before. -/
theorem find?_insertAll (hs : s.WellKeyed) (vs : List α) (k : κ) :
    (s.insertAll key vs).find? k = (latest? key vs k).or (s.find? k) := by
  induction vs generalizing s with
  | nil => rfl
  | cons v vs ih =>
    rw [insertAll_cons, ih (hs.insert _ _ _), find?_insert hs, ← List.singleton_append,
      latest?_append, Option.or_assoc]
    congr 1
    by_cases hk : k = key v
    · simp [hk, latest?]
    · simp [hk, latest?, Ne.symm hk]

theorem find?_insertAll_of_mem (hs : s.WellKeyed) (hv : v ∈ vs) :
    (s.insertAll key vs).find? (key v) = latest? key vs (key v) := by
  obtain ⟨w, -, -, hlast⟩ := exists_latest? key hv
  rw [find?_insertAll hs, hlast]
  rfl

/-- The keys of a merged list, each where it first occurs. -/
theorem map_key_insertAll (vs : List α) :
    ((∅ : KeyedSeq κ α).insertAll key vs).toList.map key = (vs.map key).eraseDups := by
  -- from the right: whether the last key is new is known once the values before it are merged
  induction vs using List.reverseRecOn with
  | nil => rfl
  | append_singleton vs v ih =>
    have hm : ((∅ : KeyedSeq κ α).insertAll key vs).KeyedBy key := keyedBy_insertAll_empty key vs
    rw [insertAll_append, insertAll_cons, insertAll_nil, hm.map_key_insert, List.map_append,
      List.eraseDups_append, ← ih, List.map_singleton]
    by_cases hv : key v ∈ vs.map key
    · rw [if_pos (containsKey_insertAll_empty.mpr hv)]
      simp [List.removeAll, hv]
    · rw [if_neg (mt containsKey_insertAll_empty.mp hv)]
      simp [List.removeAll, hv, List.eraseDups_cons]

theorem find?_insertAll_empty (vs : List α) (k : κ) :
    ((∅ : KeyedSeq κ α).insertAll key vs).find? k = latest? key vs k := by
  rw [find?_insertAll wellKeyed_empty]
  exact Option.or_none

/-- A merged list in closed form: each key where it first occurs, with the last value that has it. -/
theorem toList_insertAll (vs : List α) :
    ((∅ : KeyedSeq κ α).insertAll key vs).toList =
      (vs.map key).eraseDups.filterMap (latest? key vs) := by
  have hm : ((∅ : KeyedSeq κ α).insertAll key vs).KeyedBy key := keyedBy_insertAll_empty key vs
  have hlatest : ∀ v ∈ ((∅ : KeyedSeq κ α).insertAll key vs).toList,
      (latest? key vs ∘ key) v = some v := by
    intro v hv
    rw [Function.comp_apply, ← find?_insertAll_empty, hm.find?_eq_some_iff]
    exact ⟨hv, rfl⟩
  rw [← map_key_insertAll, List.filterMap_map, List.filterMap_congr hlatest, List.filterMap_some]

/-- A list that has been merged may be merged again: its keys stand where they stood, and the last value
with a key is the same. -/
theorem insertAll_insertAll (hs : s.WellKeyed) (vs : List α) :
    (s.insertAll key vs).insertAll key vs = s.insertAll key vs := by
  have hkeys : ((vs ++ vs).map key).eraseDups = (vs.map key).eraseDups := by
    have hnew : (vs.map key).removeAll (vs.map key) = [] := by
      simp [List.removeAll, List.filter_eq_nil_iff]
    rw [List.map_append, List.eraseDups_append, hnew, List.eraseDups_nil, List.append_nil]
  have hlatest : latest? key (vs ++ vs) = latest? key vs := by
    funext k
    rw [latest?_append, Option.or_self]
  have hmerged : ((∅ : KeyedSeq κ α).insertAll key (vs ++ vs)).toList =
      ((∅ : KeyedSeq κ α).insertAll key vs).toList := by
    rw [toList_insertAll, toList_insertAll, hkeys, hlatest]
  calc (s.insertAll key vs).insertAll key vs
      = s.insertAll key (vs ++ vs) := (insertAll_append s vs vs).symm
    _ = s.insertAll key ((∅ : KeyedSeq κ α).insertAll key (vs ++ vs)).toList :=
        (insertAll_toList_insertAll hs _).symm
    _ = s.insertAll key vs := by rw [hmerged, insertAll_toList_insertAll hs]

/-- The keys found taken and those that are there at the end are, in some order, those that were there
before and those of the values put in. -/
theorem KeyedBy.perm_collisions (h : s.KeyedBy key) (vs : List α) :
    (s.collisions key vs ++ (s.insertAll key vs).toList.map key).Perm
      (s.toList.map key ++ vs.map key) := by
  induction vs generalizing s with
  | nil => simp [collisions]
  | cons v vs ih =>
    have hrest := ih (h.insert v true)
    rw [h.map_key_insert] at hrest
    rw [collisions, insertAll_cons, List.map_cons]
    split at hrest
    · rename_i htaken
      rw [if_pos htaken, List.append_assoc, List.singleton_append]
      exact (hrest.cons (key v)).trans List.perm_middle.symm
    · rename_i hfree
      rw [if_neg hfree, List.nil_append]
      rwa [List.append_assoc, List.singleton_append] at hrest

end SqlCompose.KeyedSeq
