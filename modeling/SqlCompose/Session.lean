import SqlCompose.Select.Basic

/-!
Programs that keep many clauses and select statements at once, each step of which may read others
where they stand.
-/
namespace SqlCompose

/-- The clauses and the select statements of a program, each in the order in which they came into
being. -/
structure Session where
  clauses : List Clause := []
  selects : List Select := []

namespace Session

/-- Where a clause stands: on its own, or as a part of a select statement. -/
inductive Place where
  | clause (i : Nat)
  | part (i : Nat) (part : Select.Part)
deriving DecidableEq, Repr

def clause? (s : Session) : Place → Option Clause
  | .clause i => s.clauses[i]?
  | .part i part => s.selects[i]?.bind fun t => t.part? part

/-- The clause at a place, which reads as the empty one if none stands there. -/
def clause (s : Session) (p : Place) : Clause := (s.clause? p).getD .empty

/-- One step of a program. -/
inductive Op where
  | create (origin : Clause.Origin)
  /-- Makes a statement of the clauses at some places. -/
  | compose (places : List Place)
  /-- Makes a clause equal to the one at a place. -/
  | copy (place : Place)
  | change (i : Nat) (op : Clause.Op Place)
  | createSelect (table : String)
  | copySelect (i : Nat)
  /-- Changes a select statement. A clause that is built is kept as a new one. -/
  | changeSelect (i : Nat) (op : Select.Op Place)

/-- Adds a clause behind the others. -/
def keep (s : Session) (c : Clause) : Session := { s with clauses := s.clauses ++ [c] }

/-- The outcome of a step. A step that would change what does not exist changes nothing. -/
def step (s : Session) : Op → Outcome Session
  | .create origin => .accept (s.keep origin.clause)
  | .compose places => .ofTraced (s.keep <$> Clause.statement (places.map s.clause))
  | .copy place => .accept (s.keep (s.clause place))
  | .change i op =>
    match s.clauses[i]? with
    | none => .accept s
    | some c => (c.apply (op.map s.clause)).map fun c => { s with clauses := s.clauses.set i c }
  | .createSelect table => .accept { s with selects := s.selects ++ [.ofTable table] }
  | .copySelect i => .accept { s with selects := s.selects ++ s.selects[i]?.toList }
  | .changeSelect i op =>
    match s.selects[i]? with
    | none => .accept s
    | some t =>
      (t.apply (op.map s.clause)).map fun t' =>
        { clauses := s.clauses ++ t.built [op.map s.clause], selects := s.selects.set i t' }

/-- What is there after a program, refused steps among its own. -/
def run (ops : List Op) : Session := ops.foldl (fun s op => (s.step op).state) {}

/-- How each step of a program ends from a given point on: with no fault, or with one. -/
def faults (s : Session) : List Op → List (Option Fault)
  | [] => []
  | op :: ops => (s.step op).fault :: (s.step op).state.faults ops

end Session

/-- Whether some program arrives at a clause, on its own or as a part of a select statement. -/
def Clause.Reachable (c : Clause) : Prop := ∃ ops p, (Session.run ops).clause? p = some c

/-- Whether some program arrives at a select statement. -/
def Select.Reachable (t : Select) : Prop :=
  ∃ (ops : List Session.Op) (i : Nat), (Session.run ops).selects[i]? = some t

/-- A program that arrives at a select statement arrives at its parts. -/
theorem Select.Reachable.part {t : Select} (ht : t.Reachable) {p : Select.Part} {c : Clause}
    (hp : t.part? p = some c) : c.Reachable := by
  obtain ⟨ops, i, hi⟩ := ht
  refine ⟨ops, .part i p, ?_⟩
  rw [Session.clause?, hi]
  exact hp

end SqlCompose
