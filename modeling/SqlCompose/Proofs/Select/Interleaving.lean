import SqlCompose.Proofs.Select.Building
import SqlCompose.Proofs.Select.Limit

/-!
What a run leaves of a part of a select statement depends on its operations on that part alone.
-/
namespace SqlCompose.Select

variable {t u : Select} {p : Part} {op : Op} {ops ops' : List Op}

/-- The part that an operation works on. A joiner counts with the list that it joins, and a limit
with the select list, as does a statement that is built on the way, which may put a star there. -/
def Op.part {ρ : Type} : Op ρ → Part
  | .edit p _ => p
  | .openPart p => p
  | .top _ _ => .selectList
  | .whereJoiner _ => .whereList
  | .havingJoiner _ => .havingList
  | .build => .selectList

/-- What joins the predicates of a part, if it is a list of predicates. -/
def joiner? (t : Select) : Part → Option Joiner
  | .whereList => some t.whereJoiner
  | .havingList => some t.havingJoiner
  | _ => none

theorem joiner?_setPart (t : Select) (p q : Part) (c : Clause) :
    (t.setPart p c).joiner? q = t.joiner? q := by
  cases p <;> rfl

theorem joiner?_setWhereJoiner (t : Select) (j : Joiner) (p : Part) :
    (t.setWhereJoiner j).joiner? p = if p = .whereList then some j else t.joiner? p := by
  cases p <;> rfl

theorem joiner?_setHavingJoiner (t : Select) (j : Joiner) (p : Part) :
    (t.setHavingJoiner j).joiner? p = if p = .havingList then some j else t.joiner? p := by
  cases p <;> rfl

/-- Two statements have the same of a part: the clause, or none yet, and what joins its predicates.
-/
structure Agree (p : Part) (t u : Select) : Prop where
  part? : t.part? p = u.part? p
  joiner? : t.joiner? p = u.joiner? p

/-- Nothing belongs to a statement besides its parts and their joiners. -/
theorem eq_of_agree (h : ∀ p, Agree p t u) : t = u := by
  have hselect : t.selectList = u.selectList := Option.some.inj (h .selectList).part?
  have hfrom : t.fromTable = u.fromTable := Option.some.inj (h .fromTable).part?
  have hwhere : t.whereList = u.whereList := (h .whereList).part?
  have hgroup : t.groupByList = u.groupByList := (h .groupByList).part?
  have hhaving : t.havingList = u.havingList := (h .havingList).part?
  have horder : t.orderByList = u.orderByList := (h .orderByList).part?
  have hjoiner : t.whereJoiner = u.whereJoiner := Option.some.inj (h .whereList).joiner?
  have hjoiner' : t.havingJoiner = u.havingJoiner := Option.some.inj (h .havingList).joiner?
  cases t
  cases u
  simp_all

namespace Agree

theorem refl (p : Part) (t : Select) : Agree p t t := ⟨rfl, rfl⟩

theorem symm (h : Agree p t u) : Agree p u t := ⟨h.part?.symm, h.joiner?.symm⟩

theorem trans {v : Select} (h : Agree p t u) (h' : Agree p u v) : Agree p t v :=
  ⟨h.part?.trans h'.part?, h.joiner?.trans h'.joiner?⟩

/-- A part that is not there yet comes into being alike, with the joiner chosen for it. -/
theorem part (h : Agree p t u) : t.part p = u.part p := by
  obtain ⟨hpart, hjoiner⟩ := h
  have horigin : t.origin p = u.origin p := by
    cases p <;> simp_all [Select.origin, Select.joiner?]
  rw [part_eq_getD, part_eq_getD, hpart, horigin]

theorem setPart (h : Agree p t u) (c : Clause) : Agree p (t.setPart p c) (u.setPart p c) where
  part? := by rw [part?_setPart, part?_setPart, if_pos rfl, if_pos rfl]
  joiner? := by rw [joiner?_setPart, joiner?_setPart, h.joiner?]

theorem of_setPart_of_ne {q : Part} (h : q ≠ p) (t : Select) (c : Clause) :
    Agree p (t.setPart q c) t where
  part? := by rw [part?_setPart, if_neg (Ne.symm h)]
  joiner? := joiner?_setPart t q p c

/-- An operation on another part makes no difference. -/
theorem of_apply_of_ne (h : op.part ≠ p) (t : Select) : Agree p (t.apply op).state t := by
  cases op with
  | edit q op => exact of_setPart_of_ne h t _
  | openPart q => exact of_setPart_of_ne h t _
  | top value name =>
    cases value with
    | none => exact refl p t
    | some v =>
      simp only [Select.apply, state_top]
      split
      · exact refl p t
      · exact of_setPart_of_ne h t _
  | whereJoiner j =>
    constructor
    · exact (part?_setWhereJoiner t j p).trans (if_neg (Ne.symm h))
    · exact (joiner?_setWhereJoiner t j p).trans (if_neg (Ne.symm h))
  | havingJoiner j =>
    constructor
    · exact (part?_setHavingJoiner t j p).trans (if_neg (Ne.symm h))
    · exact (joiner?_setHavingJoiner t j p).trans (if_neg (Ne.symm h))
  | build =>
    have hstate : (t.apply .build).state = t.withColumns := rfl
    rw [hstate, withColumns]
    split
    · exact of_setPart_of_ne h t _
    · exact refl p t

theorem edit (h : Agree p t u) (op : Clause.Op) :
    Agree p (t.edit p op).state (u.edit p op).state := by
  simp only [Select.edit, Outcome.state_map, h.part]
  exact h.setPart _

theorem fault_edit (h : Agree p t u) (op : Clause.Op) :
    (t.edit p op).fault = (u.edit p op).fault := by
  rw [Select.edit, Select.edit, h.part]
  rfl

theorem top (h : Agree .selectList t u) (value : Option Typed) (name : String) :
    Agree .selectList (t.top value name).state (u.top value name).state := by
  cases value with
  | none => exact h
  | some v =>
    have hlist : t.selectList = u.selectList := h.part
    rw [state_top, state_top, hlist]
    split
    · exact h
    · exact h.setPart (u.selectList.limited (v.toParam name))

theorem fault_top (h : Agree .selectList t u) (value : Option Typed) (name : String) :
    (t.top value name).fault = (u.top value name).fault := by
  cases value with
  | none => rfl
  | some v =>
    simp only [Select.top, Outcome.andThen, h.fault_edit]
    split
    · exact h.fault_edit _
    · rfl

theorem withColumns (h : Agree .selectList t u) :
    Agree .selectList t.withColumns u.withColumns := by
  have hlist : t.selectList = u.selectList := h.part
  rw [Select.withColumns, Select.withColumns, hlist]
  split
  · exact h.setPart (u.selectList.add "*")
  · exact h

/-- An operation on a part does the same to it in both statements. -/
theorem apply (h : Agree op.part t u) :
    Agree op.part (t.apply op).state (u.apply op).state := by
  cases op with
  | edit q op => exact h.edit op
  | openPart q =>
    have hopen : t.openPart q = t.setPart q (u.part q) := congrArg (t.setPart q) h.part
    simp only [Select.apply, Outcome.state_accept, hopen]
    exact h.setPart (u.part q)
  | top value name => exact h.top value name
  | whereJoiner j =>
    constructor
    · simp only [Select.apply, Outcome.state_accept, part?_setWhereJoiner, h.part?]
    · simp only [Select.apply, Outcome.state_accept, joiner?_setWhereJoiner, h.joiner?]
  | havingJoiner j =>
    constructor
    · simp only [Select.apply, Outcome.state_accept, part?_setHavingJoiner, h.part?]
    · simp only [Select.apply, Outcome.state_accept, joiner?_setHavingJoiner, h.joiner?]
  | build => exact h.withColumns

/-- So any operation does the same to a part in both statements, as one on another part does nothing to
it. -/
theorem congr_apply (h : Agree p t u) (op : Op) :
    Agree p (t.apply op).state (u.apply op).state := by
  by_cases hop : op.part = p
  · subst hop
    exact h.apply
  · exact (of_apply_of_ne hop t).trans (h.trans (of_apply_of_ne hop u).symm)

/-- It is accepted in one of them if it is in the other. -/
theorem fault_apply (h : Agree op.part t u) : (t.apply op).fault = (u.apply op).fault := by
  cases op with
  | edit q op => exact h.fault_edit op
  | top value name => exact h.fault_top value name
  | _ => rfl

end Agree

/-- The operations of a run on one part, in order. -/
def Op.onPart (p : Part) (ops : List Op) : List Op := ops.filter fun op => op.part = p

/-- The operations of a run, each with the fault that it ends with. -/
def answers (t : Select) : List Op → List (Op × Option Fault)
  | [] => []
  | op :: ops => (op, (t.apply op).fault) :: (t.apply op).state.answers ops

theorem onPart_cons_self (op : Op) (ops : List Op) :
    Op.onPart op.part (op :: ops) = op :: Op.onPart op.part ops :=
  List.filter_cons_of_pos (decide_eq_true rfl)

theorem onPart_cons_of_ne (h : op.part ≠ p) (ops : List Op) :
    Op.onPart p (op :: ops) = Op.onPart p ops :=
  List.filter_cons_of_neg (by simpa using h)

namespace Agree

/-- What a run leaves of a part is what its operations on that part leave. -/
theorem run_onPart (h : Agree p t u) (ops : List Op) :
    Agree p (t.run ops) (u.run (Op.onPart p ops)) := by
  -- over two statements that agree, as an operation on another part is left out of one run only
  induction ops generalizing t u with
  | nil => exact h
  | cons op ops ih =>
    by_cases hop : op.part = p
    · subst hop
      rw [onPart_cons_self]
      exact ih h.apply
    · rw [onPart_cons_of_ne hop]
      exact ih ((of_apply_of_ne hop t).trans h)

/-- The operations on a part end as they do without those on other parts. -/
theorem answers_onPart (h : Agree p t u) (ops : List Op) :
    (t.answers ops).filter (fun a => a.1.part = p) = u.answers (Op.onPart p ops) := by
  induction ops generalizing t u with
  | nil => rfl
  | cons op ops ih =>
    by_cases hop : op.part = p
    · subst hop
      rw [onPart_cons_self, answers, answers, h.fault_apply, ← ih h.apply]
      exact List.filter_cons_of_pos (decide_eq_true rfl)
    · rw [onPart_cons_of_ne hop, answers, List.filter_cons_of_neg (by simpa using hop)]
      exact ih ((of_apply_of_ne hop t).trans h)

end Agree

/-- Runs that have the same operations on each part, in the same order, end with the same statement,
however the operations on different parts are interleaved. So they build the same from there on, and
the operations on each part end the same way, accepted or refused. -/
theorem run_eq_of_onPart_eq (h : ∀ p, Op.onPart p ops = Op.onPart p ops') :
    t.run ops = t.run ops' ∧
      (∀ after, (t.run ops).built after = (t.run ops').built after) ∧
      ∀ p, (t.answers ops).filter (fun a => a.1.part = p) =
        (t.answers ops').filter fun a => a.1.part = p := by
  have hrun : t.run ops = t.run ops' := by
    apply eq_of_agree
    intro p
    have hleft : Agree p (t.run ops) (t.run (Op.onPart p ops)) := (Agree.refl p t).run_onPart ops
    have hright : Agree p (t.run ops') (t.run (Op.onPart p ops')) :=
      (Agree.refl p t).run_onPart ops'
    rw [h p] at hleft
    exact hleft.trans hright.symm
  refine ⟨hrun, fun after => by rw [hrun], fun p => ?_⟩
  rw [(Agree.refl p t).answers_onPart, (Agree.refl p t).answers_onPart, h p]

/-- The parts from the last to the first, with the where list and the select list in turns, and part
by part in order. A limit without a name is refused in both. -/
theorem run_eq_of_onPart_eq_people :
    let rows (name : String) : Op := .top (some ⟨.int64, (10 : Int64)⟩) name
    let adults : Op :=
      .edit .whereList (.addFilter (.compare "age" .greater "@age" (some ⟨.int32, (18 : Int32)⟩)))
    let anns : Op :=
      .edit .whereList (.addFilter (.compare "name" .equal "@name" (some (.ofText "ann"))))
    let byName : Op := .edit .orderByList (.add "name")
    let names : Op := .edit .selectList (.add "name")
    let ops : List Op := [byName, adults, rows "", .whereJoiner .or, rows "@top", anns, names]
    let ops' : List Op := [rows "", rows "@top", names, adults, .whereJoiner .or, anns, byName]
    let t := ofTable "people"
    (∀ p, Op.onPart p ops = Op.onPart p ops') ∧ t.run ops = t.run ops' ∧
      ((t.run ops).built [.build]).map (fun c => (c.sql, c.paramList.map Param.name)) =
        [("select top(@top)\n\tname\nfrom\n\tpeople\n" ++
            "where\n\t(age > @age)\n\tor (name = @name)\norder by\n\tname\n",
          ["@top", "@age", "@name"])] := by
  intro rows adults anns byName names ops ops' t
  have hparts : ∀ p, Op.onPart p ops = Op.onPart p ops' := by
    intro p
    cases p <;> rfl
  obtain ⟨hrun, hbuilt, -⟩ := run_eq_of_onPart_eq (t := t) hparts
  refine ⟨hparts, hrun, ?_⟩
  rw [hbuilt]
  decide

end SqlCompose.Select
