import SqlCompose.Json.Basic

/-! What an operation reports besides its result, or instead of it when it refuses its arguments. -/
namespace SqlCompose

/-- Why an operation was refused. -/
inductive Fault where
  /-- An argument breaks the contract of the operation; the message says how. -/
  | invalidArgument (message : String)
  /-- A position at or beyond the end of a sequence of the given length. -/
  | outOfRange (index length : Nat)
deriving DecidableEq, Repr

namespace Fault

/-- The fault of binding a parameter that has no name. -/
def unnamedParam : Fault := .invalidArgument "parameter name cannot be empty"

/-- The text shown to people. -/
def message : Fault → String
  | .invalidArgument m => "Invalid argument: " ++ m
  | .outOfRange i n => "Index " ++ toString i ++ " out of range for length " ++ toString n

def isInvalidArgument : Fault → Bool
  | .invalidArgument _ => true
  | .outOfRange _ _ => false

def isOutOfRange : Fault → Bool
  | .invalidArgument _ => false
  | .outOfRange _ _ => true

end Fault

/-- How urgent an event is. -/
inductive Level where
  | error
  | warn
  | info
  | debug
  | trace
deriving DecidableEq, Repr

namespace Level

def all : List Level := [.error, .warn, .info, .debug, .trace]

def name : Level → String
  | .error => "ERROR"
  | .warn => "WARN"
  | .info => "INFO"
  | .debug => "DEBUG"
  | .trace => "TRACE"

def ofName? (s : String) : Option Level := all.find? fun l => l.name == s

end Level

/-- Something worth reporting. -/
inductive Event where
  /-- An expression was not taken because its key was present. -/
  | expressionIgnored (key : String)
  /-- A clause was not taken because its key was present. -/
  | clauseIgnored (key : String)
  /-- A parameter was replaced by another of its name. -/
  | paramOverwritten (name : String)
  /-- The text of a clause was rendered to be looked at. -/
  | rendered (level : Level) (tag : String) (paramCount : Nat) (sql : String)
deriving DecidableEq, Repr

namespace Event

def level : Event → Level
  | .rendered level _ _ _ => level
  | _ => .trace

/-- The part of the program that an event is filed under. -/
def target : Event → String
  | .rendered _ _ _ _ => "sqlclause.sql"
  | _ => "sqlclause"

/-- What an event tells, by name. -/
def fields : Event → List (String × Json)
  | .expressionIgnored key =>
    [("message", .str "keyed expression already present, ignored"), ("key", .str key)]
  | .clauseIgnored key =>
    [("message", .str "keyed clause already present, ignored"), ("key", .str key)]
  | .paramOverwritten name => [("message", .str "parameter overwritten"), ("param", .str name)]
  | .rendered _ tag paramCount sql =>
    [("tag", .str tag), ("param_count", .int paramCount), ("sql", .str sql)]

end Event

/-- A result with the events on the way to it, in order. -/
@[ext]
structure Traced (α : Type) where
  value : α
  events : List Event := []

namespace Traced

variable {α β : Type}

instance : Monad Traced where
  pure a := ⟨a, []⟩
  bind x f := ⟨(f x.value).value, x.events ++ (f x.value).events⟩

def report (e : Event) : Traced Unit := ⟨(), [e]⟩

@[simp] theorem value_pure (a : α) : (pure a : Traced α).value = a := rfl

@[simp] theorem events_pure (a : α) : (pure a : Traced α).events = [] := rfl

@[simp] theorem value_bind (x : Traced α) (f : α → Traced β) :
    (x >>= f).value = (f x.value).value := rfl

@[simp] theorem events_bind (x : Traced α) (f : α → Traced β) :
    (x >>= f).events = x.events ++ (f x.value).events := rfl

@[simp] theorem value_map (f : α → β) (x : Traced α) : (f <$> x).value = f x.value := rfl

@[simp] theorem events_map (f : α → β) (x : Traced α) : (f <$> x).events = x.events :=
  List.append_nil _

@[simp] theorem value_report (e : Event) : (report e).value = () := rfl

@[simp] theorem events_report (e : Event) : (report e).events = [e] := rfl

instance : LawfulMonad Traced :=
  LawfulMonad.mk' Traced (fun _ => Traced.ext rfl (events_map _ _)) (fun _ _ => rfl)
    fun _ _ _ => Traced.ext rfl (List.append_assoc _ _ _)

/-- The value of a fold is the fold of the values. -/
theorem value_foldlM (f : β → α → Traced β) (b : β) (as : List α) :
    (as.foldlM f b).value = as.foldl (fun b a => (f b a).value) b := by
  induction as generalizing b with
  | nil => rfl
  | cons a as ih => simp [ih]

/-- A view of the state that every step of a fold respects is respected by the whole fold. -/
theorem map_foldlM {γ δ : Type} {f : β → α → Traced β} {g : γ → δ → Traced γ} {view : β → γ}
    {seen : α → δ} (h : ∀ b a, view <$> f b a = g (view b) (seen a)) (b : β) (as : List α) :
    view <$> as.foldlM f b = (as.map seen).foldlM g (view b) := by
  induction as generalizing b with
  | nil => rfl
  | cons a as ih =>
    rw [List.foldlM_cons, map_bind, List.map_cons, List.foldlM_cons, ← h, bind_map_left]
    exact bind_congr fun b' => ih b'

end Traced

/-- The end of an operation that may be refused: the state it leaves, whether accepted or refused,
the fault in the latter case, and the events on the way, in order. -/
@[ext]
structure Outcome (σ : Type) where
  state : σ
  fault : Option Fault := none
  events : List Event := []

namespace Outcome

variable {σ τ : Type}

def accept (s : σ) : Outcome σ := { state := s }

def refuse (s : σ) (f : Fault) : Outcome σ := { state := s, fault := some f }

/-- An operation that is never refused. -/
def ofTraced (t : Traced σ) : Outcome σ := { state := t.value, events := t.events }

/-- The outcome for a larger state of which the given one is a part. -/
def map (f : σ → τ) (o : Outcome σ) : Outcome τ := { o with state := f o.state }

/-- Goes on with a next step unless the first is refused. -/
def andThen (o : Outcome σ) (next : σ → Outcome σ) : Outcome σ :=
  match o.fault with
  | some _ => o
  | none => { next o.state with events := o.events ++ (next o.state).events }

@[simp] theorem state_accept (s : σ) : (accept s).state = s := rfl

@[simp] theorem fault_accept (s : σ) : (accept s).fault = none := rfl

@[simp] theorem state_refuse (s : σ) (f : Fault) : (refuse s f).state = s := rfl

@[simp] theorem fault_refuse (s : σ) (f : Fault) : (refuse s f).fault = some f := rfl

@[simp] theorem state_ofTraced (t : Traced σ) : (ofTraced t).state = t.value := rfl

@[simp] theorem fault_ofTraced (t : Traced σ) : (ofTraced t).fault = none := rfl

@[simp] theorem state_map (f : σ → τ) (o : Outcome σ) : (o.map f).state = f o.state := rfl

@[simp] theorem fault_map (f : σ → τ) (o : Outcome σ) : (o.map f).fault = o.fault := rfl

@[simp] theorem map_accept (f : σ → τ) (s : σ) : (accept s).map f = accept (f s) := rfl

@[simp] theorem map_refuse (f : σ → τ) (s : σ) (e : Fault) :
    (refuse s e).map f = refuse (f s) e := rfl

@[simp] theorem map_ofTraced (f : σ → τ) (t : Traced σ) :
    (ofTraced t).map f = ofTraced (f <$> t) :=
  Outcome.ext rfl rfl (Traced.events_map f t).symm

theorem map_ofTraced_of_map_eq {f : σ → τ} {t : Traced σ} {t' : Traced τ} (h : f <$> t = t') :
    (ofTraced t).map f = ofTraced t' := by
  rw [map_ofTraced, h]

@[simp] theorem map_map {υ : Type} (g : τ → υ) (f : σ → τ) (o : Outcome σ) :
    (o.map f).map g = o.map (g ∘ f) := rfl

/-- An outcome that is a view of another is seen as that one is, if to view twice is to view once.
-/
theorem map_eq_map_of_map_eq {f : σ → σ} (hf : ∀ s, f (f s) = f s) {o o' : Outcome σ}
    (h : o.map f = o') : o.map f = o'.map f := by
  rw [← h, map_map]
  exact congrArg o.map (funext hf).symm

/-- A view of the state that the next step respects is respected by both steps together. -/
theorem map_andThen {f : σ → τ} {next : σ → Outcome σ} (next' : τ → Outcome τ)
    (h : ∀ s, (next s).map f = next' (f s)) (o : Outcome σ) :
    (o.andThen next).map f = (o.map f).andThen next' := by
  simp only [andThen, fault_map, state_map, ← h]
  split <;> rfl

end Outcome

end SqlCompose
