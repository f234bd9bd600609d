import SqlCompose.Proofs.Select.Building
import SqlCompose.Session

/-! What each change of a clause or of a select statement keeps is kept by a whole program. -/
namespace SqlCompose

variable {P : Clause → Prop} {Q : Select → Prop} {c : Clause} {s : Session} {t : Select}

/-- The parts that exist have the property. -/
def Select.All (P : Clause → Prop) (t : Select) : Prop := ∀ p c, t.part? p = some c → P c

namespace Select.All

theorem setPart (ht : t.All P) (p : Select.Part) (hc : P c) : (t.setPart p c).All P := by
  intro q d hd
  rw [Select.part?_setPart] at hd
  split at hd
  · exact Option.some.inj hd ▸ hc
  · exact ht q d hd

theorem ofTable {table : String} (hlist : P (.selectList [])) (hfrom : P (.fromTable table)) :
    (Select.ofTable table).All P := by
  intro p c hp
  cases p with
  | selectList => exact Option.some.inj hp ▸ hlist
  | fromTable => exact Option.some.inj hp ▸ hfrom
  | _ => cases hp

/-- A part that does not exist comes into being as a clause made from nothing. -/
theorem part (ht : t.All P) {p : Select.Part} (horigin : P (t.origin p).clause) :
    P (t.part p) := by
  rw [Select.part_eq_getD]
  cases hp : t.part? p with
  | none => exact horigin
  | some c => exact ht p c hp

theorem withColumns (ht : t.All P) (hstar : P (t.selectList.add "*")) : t.withColumns.All P := by
  unfold Select.withColumns
  split
  · exact ht.setPart .selectList hstar
  · exact ht

/-- A part that takes on another decoration is changed as a clause can be. -/
theorem reformatPart (ht : t.All P) {u : Select} {p : Select.Part} {f : Format}
    (hf : ∀ c, P c → P { c with format := f })
    (hu : ∀ q, u.part? q =
      if q = p then (t.part? q).map fun c => { c with format := f } else t.part? q) :
    u.All P := by
  intro q c hq
  rw [hu] at hq
  split at hq
  · obtain ⟨d, hd, rfl⟩ := Option.map_eq_some_iff.mp hq
    exact hf d (ht q d hd)
  · exact ht q c hq

/-- What is built has a property that its parts hand on to their statement. -/
theorem built (ht : t.withColumns.All P)
    (hstatement : ∀ cs : List Clause, (∀ c ∈ cs, P c) → P (Clause.statement cs).value)
    {op : Select.Op} (hc : c ∈ t.built [op]) : P c := by
  obtain ⟨-, rfl⟩ := Select.mem_built hc
  apply hstatement
  intro d hd
  obtain ⟨p, hp⟩ := Select.mem_parts hd
  exact ht p d hp

end Select.All

/-- Every clause has the one property and every select statement the other. -/
def Session.Each (P : Clause → Prop) (Q : Select → Prop) (s : Session) : Prop :=
  (∀ c ∈ s.clauses, P c) ∧ ∀ t ∈ s.selects, Q t

/-- What a step makes has the properties and what it changes keeps them, as long as the clauses that it
reads have the one for clauses. -/
def Session.Op.Keeps (P : Clause → Prop) (Q : Select → Prop) : Session.Op → Prop
  | .create o => P o.clause
  | .compose _ => ∀ cs : List Clause, (∀ c ∈ cs, P c) → P (Clause.statement cs).value
  | .change _ op => ∀ read : Session.Place → Clause, (∀ p, P (read p)) →
      ∀ c, P c → P (c.apply (op.map read)).state
  | .createSelect table => Q (.ofTable table)
  | .changeSelect _ op => ∀ read : Session.Place → Clause, (∀ p, P (read p)) →
      ∀ t, Q t → Q (t.apply (op.map read)).state ∧ ∀ c ∈ t.built [op.map read], P c
  | .copy _ | .copySelect _ => True

namespace Session.Each

theorem keep (hs : s.Each P Q) (hc : P c) : (s.keep c).Each P Q := by
  refine ⟨fun d hd => ?_, hs.2⟩
  rcases List.mem_append.mp hd with hd | hd
  · exact hs.1 d hd
  · exact List.mem_singleton.mp hd ▸ hc

theorem clause? (hs : s.Each P Q) (hparts : ∀ t, Q t → t.All P) {p : Place}
    (hc : s.clause? p = some c) : P c := by
  cases p with
  | clause i => exact hs.1 c (List.mem_of_getElem? hc)
  | part i q =>
    obtain ⟨t, ht, hq⟩ := Option.bind_eq_some_iff.mp hc
    exact hparts t (hs.2 t (List.mem_of_getElem? ht)) q c hq

theorem clause (hs : s.Each P Q) (hempty : P .empty) (hparts : ∀ t, Q t → t.All P) (p : Place) :
    P (s.clause p) := by
  unfold Session.clause
  cases hp : s.clause? p with
  | none => exact hempty
  | some c => exact hs.clause? hparts hp

theorem step (hs : s.Each P Q) (hempty : P .empty) (hparts : ∀ t, Q t → t.All P) {op : Op}
    (hop : op.Keeps P Q) : (s.step op).state.Each P Q := by
  have hread : ∀ p, P (s.clause p) := hs.clause hempty hparts
  cases op with
  | create o => exact hs.keep hop
  | compose places =>
    refine hs.keep (hop _ fun c hc => ?_)
    obtain ⟨p, -, rfl⟩ := List.mem_map.mp hc
    exact hread p
  | copy p => exact hs.keep (hread p)
  | change i op =>
    simp only [Session.step]
    split
    · exact hs
    · rename_i c hc
      refine ⟨fun d hd => ?_, hs.2⟩
      rcases List.mem_or_eq_of_mem_set hd with hd | rfl
      · exact hs.1 d hd
      · exact hop s.clause hread c (hs.1 c (List.mem_of_getElem? hc))
  | createSelect table =>
    refine ⟨hs.1, fun t ht => ?_⟩
    rcases List.mem_append.mp ht with ht | ht
    · exact hs.2 t ht
    · exact List.mem_singleton.mp ht ▸ hop
  | copySelect i =>
    refine ⟨hs.1, fun t ht => ?_⟩
    rcases List.mem_append.mp ht with ht | ht
    · exact hs.2 t ht
    · exact hs.2 t (List.mem_of_getElem? (Option.mem_toList.mp ht))
  | changeSelect i op =>
    simp only [Session.step]
    split
    · exact hs
    · rename_i t ht
      obtain ⟨hstate, hbuilt⟩ := hop s.clause hread t (hs.2 t (List.mem_of_getElem? ht))
      constructor
      · intro d hd
        rcases List.mem_append.mp hd with hd | hd
        · exact hs.1 d hd
        · exact hbuilt d hd
      · intro u hu
        rcases List.mem_or_eq_of_mem_set hu with hu | rfl
        · exact hs.2 u hu
        · exact hstate

theorem run (hempty : P .empty) (hparts : ∀ t, Q t → t.All P) {ops : List Op}
    (hops : ∀ op ∈ ops, op.Keeps P Q) : (Session.run ops).Each P Q := by
  have hfrom : ∀ s : Session, s.Each P Q →
      (ops.foldl (fun s op => (s.step op).state) s).Each P Q := by
    induction ops with
    | nil =>
      intro s hs
      exact hs
    | cons op ops ih =>
      intro s hs
      rw [List.forall_mem_cons] at hops
      exact ih hops.2 _ (hs.step hempty hparts hops.1)
  apply hfrom
  constructor <;> intro x hx <;> cases hx

end Session.Each

/-- The clauses that an operation reads have a property. -/
def Clause.Op.Reads {ρ : Type} (P : ρ → Prop) : Clause.Op ρ → Prop
  | .addClause other => P other
  | .addKeyedClause _ other _ => P other
  | _ => True

theorem Clause.Op.reads_map {ρ σ : Type} {f : ρ → σ} {P : σ → Prop} (h : ∀ r, P (f r))
    (op : Clause.Op ρ) : (op.map f).Reads P := by
  cases op with
  | addClause other => exact h other
  | addKeyedClause key other overwrite => exact h other
  | _ => trivial

def Select.Op.Reads {ρ : Type} (P : ρ → Prop) : Select.Op ρ → Prop
  | .edit _ op => op.Reads P
  | _ => True

theorem Select.Op.reads_map {ρ σ : Type} {f : ρ → σ} {P : σ → Prop} (h : ∀ r, P (f r))
    (op : Select.Op ρ) : (op.map f).Reads P := by
  cases op with
  | edit p op => exact op.reads_map h
  | _ => trivial

/-- The parameters that an operation is given ready to be bound. -/
def Clause.Op.ready {ρ : Type} : Clause.Op ρ → List Param
  | .addKeyedWithParams _ _ ps _ => ps
  | .addParam p => [p]
  | .addParams ps => ps
  | .addPredicate p => p.params
  | _ => []

theorem Clause.Op.ready_map {ρ σ : Type} (f : ρ → σ) (op : Clause.Op ρ) :
    (op.map f).ready = op.ready := by
  cases op <;> rfl

/-- The parameters that an operation is given ready to be bound. A limit is given as a typed value. -/
def Select.Op.ready {ρ : Type} : Select.Op ρ → List Param
  | .edit _ op => op.ready
  | _ => []

theorem Select.Op.ready_map {ρ σ : Type} (f : ρ → σ) (op : Select.Op ρ) :
    (op.map f).ready = op.ready := by
  cases op with
  | edit p op => exact op.ready_map f
  | _ => rfl

/-- The parameters that a step is given ready to be bound. -/
def Session.Op.ready : Session.Op → List Param
  | .change _ op => op.ready
  | .changeSelect _ op => op.ready
  | _ => []

/-- Every clause made from nothing has the property, and a change of a clause keeps it as long as the
clauses that are read have it and the parameters given ready have another one, which parameters of
typed values always have. -/
structure InvariantOn (R : Param → Prop) (P : Clause → Prop) : Prop where
  origin : ∀ o : Clause.Origin, P o.clause
  apply : ∀ {c : Clause} (op : Clause.Op), P c → op.Reads P → (∀ p ∈ op.ready, R p) →
    P (c.apply op).state
  typed : ∀ (v : Typed) (name : String), R (v.toParam name)

namespace InvariantOn

variable {R : Param → Prop}

theorem apply_of_ready_eq_nil (h : InvariantOn R P) (op : Clause.Op) (hc : P c) (hop : op.Reads P)
    (hready : op.ready = []) : P (c.apply op).state := by
  refine h.apply op hc hop fun p hp => ?_
  rw [hready] at hp
  cases hp

theorem foldl_addClause (h : InvariantOn R P) {cs : List Clause} (hc : P c) (hcs : ∀ d ∈ cs, P d) :
    P (cs.foldl (fun c d => (c.addClause d).value) c) := by
  induction cs generalizing c with
  | nil => exact hc
  | cons d ds ih =>
    rw [List.forall_mem_cons] at hcs
    exact ih (h.apply_of_ready_eq_nil (.addClause d) hc hcs.1 rfl) hcs.2

theorem statement (h : InvariantOn R P) (cs : List Clause) (hcs : ∀ c ∈ cs, P c) :
    P (Clause.statement cs).value := by
  rw [Clause.value_statement]
  exact h.foldl_addClause (h.origin .empty) hcs

theorem edit (h : InvariantOn R P) (ht : t.All P) (p : Select.Part) (op : Clause.Op)
    (hop : op.Reads P) (hready : ∀ p ∈ op.ready, R p) : (t.edit p op).state.All P :=
  ht.setPart p (h.apply op (ht.part (h.origin (t.origin p))) hop hready)

theorem top (h : InvariantOn R P) (ht : t.All P) (value : Option Typed) (name : String) :
    (t.top value name).state.All P := by
  cases value with
  | none => exact ht
  | some v =>
    have hbound := h.edit ht .selectList (.addParam (v.toParam name)) trivial
      (List.forall_mem_singleton.mpr (h.typed v name))
    simp only [Select.top, Outcome.andThen]
    split
    · exact hbound
    · exact h.edit hbound .selectList _ trivial (List.forall_mem_nil R)

theorem withColumns (h : InvariantOn R P) (ht : t.All P) : t.withColumns.All P :=
  ht.withColumns (h.apply_of_ready_eq_nil (.add "*") (ht .selectList _ rfl) trivial rfl)

theorem applySelect (h : InvariantOn R P) (ht : t.All P) (op : Select.Op) (hop : op.Reads P)
    (hready : ∀ p ∈ op.ready, R p) : (t.apply op).state.All P := by
  have hreformat : ∀ f c, P c → P { c with format := f } :=
    fun f c hc => h.apply_of_ready_eq_nil (.reformat f) hc trivial rfl
  cases op with
  | edit p op => exact h.edit ht p op hop hready
  | openPart p => exact ht.setPart p (ht.part (h.origin (t.origin p)))
  | top value name => exact h.top ht value name
  | whereJoiner j => exact ht.reformatPart (hreformat _) (t.part?_setWhereJoiner j)
  | havingJoiner j => exact ht.reformatPart (hreformat _) (t.part?_setHavingJoiner j)
  | build => exact h.withColumns ht

theorem built (h : InvariantOn R P) (ht : t.All P) {op : Select.Op} (hc : c ∈ t.built [op]) : P c :=
  (h.withColumns ht).built h.statement hc

theorem keeps (h : InvariantOn R P) {op : Session.Op} (hready : ∀ p ∈ op.ready, R p) :
    op.Keeps P (Select.All P) := by
  cases op with
  | create o => exact h.origin o
  | compose places => exact h.statement
  | change i op =>
    intro read hread c hc
    apply h.apply _ hc (op.reads_map hread)
    rwa [op.ready_map]
  | createSelect table =>
    exact Select.All.ofTable (h.origin (.selectList [])) (h.origin (.fromTable table))
  | changeSelect i op =>
    intro read hread t ht
    refine ⟨?_, fun c hc => h.built ht hc⟩
    apply h.applySelect ht _ (op.reads_map hread)
    rwa [op.ready_map]
  | copy p => trivial
  | copySelect i => trivial

/-- The property holds throughout a program whose ready parameters have the other one. -/
theorem run (h : InvariantOn R P) {ops : List Session.Op}
    (hready : ∀ op ∈ ops, ∀ p ∈ op.ready, R p) : (Session.run ops).Each P (Select.All P) :=
  .run (h.origin .empty) (fun _ ht => ht) fun op hop => h.keeps (hready op hop)

end InvariantOn

/-- Every clause made from nothing has the property, and a change of a clause keeps it as long as
the clauses that are read have it. -/
structure Invariant (P : Clause → Prop) : Prop where
  origin : ∀ o : Clause.Origin, P o.clause
  apply : ∀ {c : Clause} (op : Clause.Op), P c → op.Reads P → P (c.apply op).state

/-- An invariant asks nothing of the parameters that are given. -/
theorem Invariant.on (h : Invariant P) : InvariantOn (fun _ => True) P where
  origin := h.origin
  apply op hc hop _ := h.apply op hc hop
  typed _ _ := trivial

/-- An invariant holds wherever a program can arrive. -/
theorem Invariant.reachable (h : Invariant P) (hc : c.Reachable) : P c := by
  obtain ⟨ops, p, hp⟩ := hc
  have hrun : (Session.run ops).Each P (Select.All P) := h.on.run fun _ _ _ _ => trivial
  exact hrun.clause? (fun t ht => ht) hp

end SqlCompose
