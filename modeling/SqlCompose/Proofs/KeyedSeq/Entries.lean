import SqlCompose.KeyedSeq.Basic

/-!
Plain lists of entries, each under a key or not, which say what a keyed sequence is meant to hold,
with no positions to keep in step.
-/
namespace SqlCompose

variable {κ α : Type} [BEq κ]

/-- A value in a list, under a key or not. -/
structure Entry (κ α : Type) where
  key : Option κ
  value : α
deriving DecidableEq, Repr

namespace Entry

variable {k k' : κ}

def isUnder (k : κ) (e : Entry κ α) : Bool := e.key.any fun k' => k == k'

/-- No key leads to both entries. -/
def Apart (a b : Entry κ α) : Prop := ∀ k, a.isUnder k = true → b.isUnder k = false

/-- The entry with another value if it is under the given key. -/
def replaced (k : κ) (v : α) (e : Entry κ α) : Entry κ α :=
  if e.isUnder k then { e with value := v } else e

theorem isUnder_unkeyed (k : κ) (v : α) : isUnder k (⟨none, v⟩ : Entry κ α) = false := rfl

theorem isUnder_keyed (k k' : κ) (v : α) : isUnder k (⟨some k', v⟩ : Entry κ α) = (k == k') := rfl

theorem isUnder_replaced (k k' : κ) (v : α) (e : Entry κ α) :
    (e.replaced k v).isUnder k' = e.isUnder k' := by
  rw [replaced]
  split <;> rfl

theorem value_replaced (k : κ) (v : α) (e : Entry κ α) :
    (e.replaced k v).value = if e.isUnder k then v else e.value := by
  rw [replaced]
  split <;> rfl

/-- Keys that are equal lead to the same entries, even if they can be told apart otherwise. -/
theorem isUnder_congr [EquivBEq κ] (h : (k == k') = true) :
    isUnder k = (isUnder k' : Entry κ α → Bool) := by
  funext e
  have hkey : (fun l => k == l) = fun l => k' == l := funext fun _ => BEq.congr_left h
  rw [isUnder, isUnder, hkey]

end Entry

/-- Entries in order, no two of them under one key. -/
@[ext]
structure Entries (κ α : Type) [BEq κ] where
  toList : List (Entry κ α) := []
  apart : toList.Pairwise Entry.Apart := by exact .nil

namespace Entries

variable {es : Entries κ α} {k : κ}

instance : EmptyCollection (Entries κ α) := ⟨{}⟩

def values (es : Entries κ α) : List α := es.toList.map Entry.value

def indexOf? (es : Entries κ α) (k : κ) : Option Nat := es.toList.findIdx? (Entry.isUnder k)

def containsKey (es : Entries κ α) (k : κ) : Bool := es.toList.any (Entry.isUnder k)

def find? (es : Entries κ α) (k : κ) : Option α :=
  (es.toList.find? (Entry.isUnder k)).map Entry.value

theorem isSome_indexOf? (es : Entries κ α) (k : κ) : (es.indexOf? k).isSome = es.containsKey k :=
  List.findIdx?_isSome

/-- The value under a key is the one at the position of the key. -/
theorem find?_eq_bind (es : Entries κ α) (k : κ) :
    es.find? k = (es.indexOf? k).bind fun i => es.values[i]? := by
  rw [find?, indexOf?, List.find?_eq_bind_findIdx?_getElem?, Option.map_bind]
  exact congrArg (Option.bind _) (funext fun _ => List.getElem?_map.symm)

theorem containsKey_eq_false_iff :
    es.containsKey k = false ↔ ∀ e ∈ es.toList, e.isUnder k = false := by
  simp [containsKey]

/-- A key leads to one position and no other. -/
theorem isUnder_iff_of_indexOf? {i j : Nat} {e : Entry κ α} (hi : es.indexOf? k = some i)
    (he : es.toList[j]? = some e) : e.isUnder k = true ↔ i = j := by
  obtain ⟨hlt, hunder, hbefore⟩ := List.findIdx?_eq_some_iff_getElem.mp hi
  obtain ⟨hj, rfl⟩ := List.getElem?_eq_some_iff.mp he
  constructor
  · intro hk
    -- a later entry is apart from the one found, and none before it is under the key
    rcases Nat.lt_trichotomy i j with hij | hij | hji
    · have hapart := List.pairwise_iff_getElem.mp es.apart i j hlt hj hij k hunder
      rw [hk] at hapart
      cases hapart
    · exact hij
    · exact absurd hk (hbefore j hji)
  · rintro rfl
    exact hunder

/-- Appends an entry without a key for each value of a list. -/
def append (es : Entries κ α) (vs : List α) : Entries κ α where
  toList := es.toList ++ vs.map (Entry.mk none)
  apart := by
    rw [List.pairwise_append]
    refine ⟨es.apart, ?_, ?_⟩
    · exact List.pairwise_map.mpr (List.pairwise_of_forall fun _ _ _ h => nomatch h)
    · intro a _ b hb k _
      obtain ⟨v, -, rfl⟩ := List.mem_map.mp hb
      exact Entry.isUnder_unkeyed k v

/-- Replaces the value of the entry under a key, if there is one. -/
def replace (es : Entries κ α) (k : κ) (v : α) : Entries κ α where
  toList := es.toList.map (Entry.replaced k v)
  apart := by
    rw [List.pairwise_map]
    exact es.apart.imp fun h l hl => by
      rw [Entry.isUnder_replaced] at hl ⊢
      exact h l hl

theorem values_append (es : Entries κ α) (vs : List α) :
    (es.append vs).values = es.values ++ vs := by
  simp [append, values, Function.comp_def]

theorem indexOf?_append (es : Entries κ α) (vs : List α) (k : κ) :
    (es.append vs).indexOf? k = es.indexOf? k := by
  have hunkeyed : (vs.map (Entry.mk none)).findIdx? (Entry.isUnder k) = none := by
    rw [List.findIdx?_eq_none_iff]
    intro e he
    obtain ⟨v, -, rfl⟩ := List.mem_map.mp he
    exact Entry.isUnder_unkeyed k v
  rw [indexOf?, append, List.findIdx?_append, hunkeyed]
  exact Option.or_none

theorem values_replace {i : Nat} (hi : es.indexOf? k = some i) (v : α) :
    (es.replace k v).values = es.values.set i v := by
  apply List.ext_getElem?
  intro j
  rw [values, replace, List.getElem?_map, List.getElem?_map, values, List.getElem?_set,
    List.getElem?_map, List.length_map]
  cases he : es.toList[j]? with
  | none =>
    by_cases hij : i = j
    · have hge : ¬i < es.toList.length := by
        rw [hij]
        exact Nat.not_lt.mpr (List.getElem?_eq_none_iff.mp he)
      rw [if_pos hij, if_neg hge]
      rfl
    · rw [if_neg hij]
      rfl
  | some e =>
    have hunder := isUnder_iff_of_indexOf? hi he
    rw [Option.map_some, Option.map_some, Entry.value_replaced]
    by_cases hij : i = j
    · have hlt : i < es.toList.length := hij ▸ (List.getElem?_eq_some_iff.mp he).1
      rw [if_pos (hunder.mpr hij), if_pos hij, if_pos hlt]
    · rw [if_neg (fun h => hij (hunder.mp h)), if_neg hij]
      rfl

theorem replace_absent (h : es.containsKey k = false) (v : α) : es.replace k v = es := by
  have hkept : ∀ e ∈ es.toList, e.replaced k v = e := by
    intro e he
    have hunder := containsKey_eq_false_iff.mp h e he
    rw [Entry.replaced, if_neg (by simp [hunder])]
  exact Entries.ext ((List.map_congr_left hkept).trans (List.map_id' _))

theorem indexOf?_replace (es : Entries κ α) (k : κ) (v : α) (k' : κ) :
    (es.replace k v).indexOf? k' = es.indexOf? k' := by
  have hunder : Entry.isUnder k' ∘ Entry.replaced k v = Entry.isUnder k' :=
    funext (Entry.isUnder_replaced k k' v)
  rw [indexOf?, replace, List.findIdx?_map, hunder, indexOf?]

variable [EquivBEq κ]

/-- Appends an entry under a key that is absent. Under a present key the value of the entry is
replaced if `overwrite` holds, and nothing happens otherwise. -/
def insert (es : Entries κ α) (k : κ) (v : α) (overwrite : Bool) : Entries κ α :=
  if h : es.containsKey k = false then
    { toList := es.toList ++ [⟨some k, v⟩]
      apart := by
        rw [List.pairwise_append]
        refine ⟨es.apart, List.pairwise_singleton _ _, ?_⟩
        intro a ha b hb l hl
        rw [List.mem_singleton.mp hb, Entry.isUnder_keyed, Bool.eq_false_iff]
        intro hlk
        rw [Entry.isUnder_congr hlk, containsKey_eq_false_iff.mp h a ha] at hl
        cases hl }
  else if overwrite then es.replace k v
  else es

theorem toList_insert_absent (h : es.containsKey k = false) (v : α) (overwrite : Bool) :
    (es.insert k v overwrite).toList = es.toList ++ [⟨some k, v⟩] := by
  rw [insert, dif_pos h]

theorem insert_present (h : es.containsKey k = true) (v : α) (overwrite : Bool) :
    es.insert k v overwrite = if overwrite then es.replace k v else es := by
  rw [insert, dif_neg (by simp [h])]

theorem indexOf?_insert_absent (h : es.containsKey k = false) (v : α) (overwrite : Bool) (k' : κ) :
    (es.insert k v overwrite).indexOf? k' =
      if k' == k then some es.toList.length else es.indexOf? k' := by
  rw [indexOf?, toList_insert_absent h, List.findIdx?_append, List.findIdx?_singleton,
    Entry.isUnder_keyed]
  split
  · rename_i hk
    have hnone : es.toList.findIdx? (Entry.isUnder k') = none := by
      rw [List.findIdx?_eq_none_iff, Entry.isUnder_congr hk]
      exact containsKey_eq_false_iff.mp h
    rw [hnone]
    simp
  · rw [indexOf?]
    exact Option.or_none

def apply (es : Entries κ α) : KeyedSeq.Op κ α → Entries κ α
  | .clear => ∅
  | .refill vs => (∅ : Entries κ α).append vs
  | .extend vs => es.append vs
  | .push v => es.append [v]
  | .insert k v overwrite => es.insert k v overwrite
  | .replace k v => es.replace k v

/-- The entries after a run of operations. -/
def run (es : Entries κ α) (ops : List (KeyedSeq.Op κ α)) : Entries κ α := ops.foldl apply es

end Entries

end SqlCompose
