import SqlCompose.Event

/-!
Sequences in insertion order in which a value may carry a key, and the operations that change them.
-/
namespace SqlCompose

/-- The values in insertion order, and for each key the position of its value. -/
structure KeyedSeq (κ α : Type) where
  values : List α := []
  /-- One pair for each key, the latest key first. -/
  positions : List (κ × Nat) := []
deriving DecidableEq, Repr

namespace KeyedSeq

variable {κ α : Type}

def empty : KeyedSeq κ α := {}

instance : EmptyCollection (KeyedSeq κ α) := ⟨empty⟩

instance : Inhabited (KeyedSeq κ α) := ⟨empty⟩

/-- The values of a list in its order, none of them under a key. -/
def ofList (vs : List α) : KeyedSeq κ α := { values := vs }

def length (s : KeyedSeq κ α) : Nat := s.values.length

def isEmpty (s : KeyedSeq κ α) : Bool := s.values.isEmpty

def toList (s : KeyedSeq κ α) : List α := s.values

instance : GetElem (KeyedSeq κ α) Nat α fun s i => i < s.length where
  getElem s i h := s.values.get ⟨i, h⟩

def get? (s : KeyedSeq κ α) (i : Nat) : Option α := s.values[i]?

/-- The value at a position, or the fault that names the position and the length. -/
def tryGet (s : KeyedSeq κ α) (i : Nat) : Except Fault α :=
  match s.get? i with
  | some v => .ok v
  | none => .error (.outOfRange i s.length)

def push (s : KeyedSeq κ α) (v : α) : KeyedSeq κ α := { s with values := s.values ++ [v] }

/-- Appends each value of a list, none of them under a key. -/
def extend (s : KeyedSeq κ α) (vs : List α) : KeyedSeq κ α := { s with values := s.values ++ vs }

@[simp] theorem toList_empty : (∅ : KeyedSeq κ α).toList = [] := rfl

@[simp] theorem toList_ofList (vs : List α) : (ofList vs : KeyedSeq κ α).toList = vs := rfl

@[simp] theorem toList_push (s : KeyedSeq κ α) (v : α) : (s.push v).toList = s.toList ++ [v] := rfl

@[simp] theorem toList_extend (s : KeyedSeq κ α) (vs : List α) :
    (s.extend vs).toList = s.toList ++ vs := rfl

variable [BEq κ]

def indexOf? (s : KeyedSeq κ α) (k : κ) : Option Nat := s.positions.lookup k

def containsKey (s : KeyedSeq κ α) (k : κ) : Bool := (s.indexOf? k).isSome

def find? (s : KeyedSeq κ α) (k : κ) : Option α := (s.indexOf? k).bind s.get?

def findD (s : KeyedSeq κ α) (k : κ) (default : α) : α := (s.find? k).getD default

/-- Puts a value under a key. A new key goes to the end. Under a present key the value is replaced
where it stands if `overwrite` holds, and the sequence stays as it is otherwise. -/
def insert (s : KeyedSeq κ α) (k : κ) (v : α) (overwrite : Bool) : KeyedSeq κ α :=
  match s.indexOf? k with
  | some i => if overwrite then { s with values := s.values.set i v } else s
  | none => { values := s.values ++ [v], positions := (k, s.length) :: s.positions }

/-- Whether `insert` takes the value. -/
def accepts (s : KeyedSeq κ α) (k : κ) (overwrite : Bool) : Bool := overwrite || !s.containsKey k

/-- Changes the value under a key where it stands; an absent key changes nothing. -/
def modify (s : KeyedSeq κ α) (k : κ) (f : α → α) : KeyedSeq κ α :=
  match s.indexOf? k with
  | some i => { s with values := s.values.modify i f }
  | none => s

/-- One operation that may change a keyed sequence. -/
inductive Op (κ α : Type) where
  /-- Starts again with nothing. -/
  | clear
  /-- Starts again with the values of a list, without keys. -/
  | refill (vs : List α)
  /-- Appends the values of a list, without keys. -/
  | extend (vs : List α)
  /-- Appends one value, without a key. -/
  | push (v : α)
  /-- Puts a value under a key. -/
  | insert (k : κ) (v : α) (overwrite : Bool)
  /-- Replaces the value under a key that is present. -/
  | replace (k : κ) (v : α)
deriving DecidableEq, Repr

def apply (s : KeyedSeq κ α) : Op κ α → KeyedSeq κ α
  | .clear => ∅
  | .refill vs => .ofList vs
  | .extend vs => s.extend vs
  | .push v => s.push v
  | .insert k v overwrite => s.insert k v overwrite
  | .replace k v => s.modify k fun _ => v

/-- The sequence after a run of operations. -/
def run (s : KeyedSeq κ α) (ops : List (Op κ α)) : KeyedSeq κ α := ops.foldl apply s

end KeyedSeq

end SqlCompose
