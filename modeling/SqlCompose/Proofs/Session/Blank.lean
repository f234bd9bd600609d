import Mathlib.Data.List.Forall2
import SqlCompose.Proofs.Clause.Blank
import SqlCompose.Proofs.Select.Building
import SqlCompose.Session

/-!
Programs with the values of all parameters put out of sight, which stay alike after every step if
they differ in values only.
-/
namespace SqlCompose

/-- What is reported of a clause shows no value. -/
theorem Trace.emit_blank (r : Trace) (tag : String) (c : Clause) :
    r.emit tag c.blank = r.emit tag c := by
  simp [emit]

namespace Select

variable {t : Select} {p : Part}

def blank (t : Select) : Select :=
  { t with
    selectList := t.selectList.blank
    fromTable := t.fromTable.blank
    whereList := t.whereList.map Clause.blank
    groupByList := t.groupByList.map Clause.blank
    havingList := t.havingList.map Clause.blank
    orderByList := t.orderByList.map Clause.blank }

theorem part?_blank (t : Select) (p : Part) : t.blank.part? p = (t.part? p).map Clause.blank := by
  cases p <;> rfl

theorem part_blank (t : Select) (p : Part) : t.blank.part p = (t.part p).blank := by
  have horigin : t.blank.origin p = t.origin p := by cases p <;> rfl
  rw [part_eq_getD, part_eq_getD, part?_blank, horigin]
  cases t.part? p with
  | none => exact (Clause.blank_origin _).symm
  | some c => rfl

theorem blank_setPart (t : Select) (p : Part) (c : Clause) :
    (t.setPart p c).blank = t.blank.setPart p c.blank := by
  cases p <;> rfl

@[simp] theorem blank_blank (t : Select) : t.blank.blank = t.blank := by
  simp [blank, Function.comp_def]

theorem blank_openPart (t : Select) (p : Part) : (t.openPart p).blank = t.blank.openPart p := by
  rw [openPart, openPart, blank_setPart, part_blank]

/-- A change of a part respects the view if the change of the clause does. -/
theorem blank_edit_of_apply {op op' : Clause.Op}
    (h : ((t.part p).apply op).map Clause.blank = (t.part p).blank.apply op') :
    (t.edit p op).map blank = t.blank.edit p op' := by
  rw [edit, edit, part_blank, ← h, Outcome.map_map, Outcome.map_map]
  exact congrArg (Outcome.map · _) (funext (blank_setPart t p))

theorem blank_edit (t : Select) (p : Part) (op : Clause.Op) :
    (t.edit p op).map blank = (t.blank.edit p (op.blank.map Clause.blank)).map blank := by
  have hset : ∀ u : Select, blank ∘ u.setPart p = u.blank.setPart p ∘ Clause.blank :=
    fun u => funext (blank_setPart u p)
  rw [edit, edit, part_blank, Outcome.map_map, Outcome.map_map, hset, hset, blank_blank,
    ← Outcome.map_map, ← Outcome.map_map, Clause.blank_apply]

theorem blank_top (t : Select) (value : Option Typed) (name : String) :
    (t.top value name).map blank = t.blank.top (value.map Typed.blank) name := by
  cases value with
  | none => rfl
  | some v =>
    have hbind : (t.edit .selectList (.addParam (v.toParam name))).map blank =
        t.blank.edit .selectList (.addParam (v.blank.toParam name)) :=
      blank_edit_of_apply (Clause.blank_addParams _ _)
    rw [Option.map_some, top, top, ← hbind]
    refine Outcome.map_andThen
      (fun u : Select => u.edit .selectList
        (.decorate (.text .head (limitedHead u.selectList.format.head name))))
      (fun u => ?_) _
    exact blank_edit_of_apply rfl

theorem blank_setWhereJoiner (t : Select) (j : Joiner) :
    (t.setWhereJoiner j).blank = t.blank.setWhereJoiner j := by
  simp only [setWhereJoiner, blank, Option.map_map]
  rfl

theorem blank_setHavingJoiner (t : Select) (j : Joiner) :
    (t.setHavingJoiner j).blank = t.blank.setHavingJoiner j := by
  simp only [setHavingJoiner, blank, Option.map_map]
  rfl

theorem blank_withColumns (t : Select) : t.withColumns.blank = t.blank.withColumns := by
  have hempty : t.blank.selectList.isEmpty = t.selectList.isEmpty := rfl
  rw [withColumns, withColumns, hempty]
  split
  · exact blank_setPart t .selectList (t.selectList.add "*")
  · rfl

theorem parts_blank (t : Select) : t.blank.parts = t.parts.map Clause.blank := by
  rw [parts, parts, List.map_filterMap]
  exact congrArg (List.filterMap · _) (funext (part?_blank t))

theorem blank_build (t : Select) : Prod.map Clause.blank blank <$> t.build = t.blank.build := by
  simp only [build]
  rw [← blank_withColumns, parts_blank, ← Clause.blank_statement, bind_map_left, map_bind]
  apply bind_congr
  intro c
  rw [Trace.emit_blank]
  rfl

/-- The operation with one and the same value in the place of every value. -/
def Op.blank {ρ : Type} : Op ρ → Op ρ
  | .edit p op => .edit p op.blank
  | .top value name => .top (value.map Typed.blank) name
  | op => op

theorem Op.blank_map {ρ σ τ : Type} (f : ρ → σ) (g : σ → τ) (op : Op ρ) :
    (op.map f).blank.map g = op.blank.map (g ∘ f) := by
  cases op with
  | edit p op => exact congrArg (Op.edit p) (op.blank_map f g)
  | _ => rfl

theorem blank_apply (t : Select) (op : Op) :
    (t.apply op).map blank = (t.blank.apply (op.blank.map Clause.blank)).map blank := by
  have hexact : ∀ {o o' : Outcome Select}, o.map blank = o' → o.map blank = o'.map blank :=
    Outcome.map_eq_map_of_map_eq blank_blank
  cases op with
  | edit p op => exact blank_edit t p op
  | openPart p => exact hexact (congrArg Outcome.accept (blank_openPart t p))
  | top value name => exact hexact (blank_top t value name)
  | whereJoiner j => exact hexact (congrArg Outcome.accept (blank_setWhereJoiner t j))
  | havingJoiner j => exact hexact (congrArg Outcome.accept (blank_setHavingJoiner t j))
  | build =>
    have hstate : blank <$> Prod.snd <$> t.build = Prod.snd <$> t.blank.build := by
      rw [← blank_build, Functor.map_map, Functor.map_map]
      rfl
    exact hexact (Outcome.map_ofTraced_of_map_eq hstate)

theorem blank_built (t : Select) (op : Op) :
    (t.built [op]).map Clause.blank = t.blank.built [op.blank.map Clause.blank] := by
  cases op with
  | build => exact congrArg (fun r => [r.value.1]) (blank_build t)
  | _ => rfl

end Select

namespace Session

variable {s s' : Session} {ops ops' : List Op}

def blank (s : Session) : Session :=
  { clauses := s.clauses.map Clause.blank, selects := s.selects.map Select.blank }

@[simp] theorem blank_blank (s : Session) : s.blank.blank = s.blank := by
  simp [blank, Function.comp_def]

theorem clause?_blank (s : Session) (p : Place) :
    s.blank.clause? p = (s.clause? p).map Clause.blank := by
  cases p with
  | clause i => exact List.getElem?_map
  | part i q =>
    rw [clause?, clause?, blank, List.getElem?_map]
    cases s.selects[i]? with
    | none => rfl
    | some t => exact t.part?_blank q

theorem clause_blank (s : Session) : s.blank.clause = Clause.blank ∘ s.clause := by
  funext p
  rw [clause, clause?_blank, Function.comp_apply, clause]
  cases s.clause? p <;> rfl

theorem blank_keep (s : Session) (c : Clause) : (s.keep c).blank = s.blank.keep c.blank := by
  simp [blank, keep]

/-- The step with one and the same value in the place of every value. -/
def Op.blank : Op → Op
  | .change i op => .change i op.blank
  | .changeSelect i op => .changeSelect i op.blank
  | op => op

theorem blank_change (s : Session) (i : Nat) (op : Clause.Op Place) :
    (s.step (.change i op)).map blank = (s.blank.step (.change i op.blank)).map blank := by
  have hset : ∀ (cs : List Clause) (ts : List Select),
      (blank ∘ fun c => { clauses := cs.set i c, selects := ts }) =
        (fun c => { clauses := (cs.map Clause.blank).set i c, selects := ts.map Select.blank }) ∘
          Clause.blank := by
    intro cs ts
    funext c
    simp [blank, List.map_set]
  have hop : op.blank.map s.blank.clause = (op.map s.clause).blank.map Clause.blank := by
    rw [Clause.Op.blank_map, clause_blank]
  have hat : s.blank.clauses[i]? = s.clauses[i]?.map Clause.blank := List.getElem?_map
  rw [step, step, hat, hop]
  cases s.clauses[i]? with
  | none => simp
  | some c =>
    simp only [Option.map_some, Outcome.map_map]
    rw [hset, hset, ← Outcome.map_map, Clause.blank_apply]
    simp [blank, Function.comp_def]

theorem blank_changeSelect (s : Session) (i : Nat) (op : Select.Op Place) :
    (s.step (.changeSelect i op)).map blank =
      (s.blank.step (.changeSelect i op.blank)).map blank := by
  have hset : ∀ (cs : List Clause) (ts : List Select),
      (blank ∘ fun t => { clauses := cs, selects := ts.set i t }) =
        (fun t => { clauses := cs.map Clause.blank, selects := (ts.map Select.blank).set i t }) ∘
          Select.blank := by
    intro cs ts
    funext t
    simp [blank, List.map_set]
  have hop : op.blank.map s.blank.clause = (op.map s.clause).blank.map Clause.blank := by
    rw [Select.Op.blank_map, clause_blank]
  have hat : s.blank.selects[i]? = s.selects[i]?.map Select.blank := List.getElem?_map
  rw [step, step, hat, hop]
  cases s.selects[i]? with
  | none => simp
  | some t =>
    simp only [Option.map_some, Outcome.map_map]
    rw [hset, hset, ← Outcome.map_map, Select.blank_apply, ← Select.blank_built]
    simp [blank, Function.comp_def]

/-- The values may be taken away before a step or after it. -/
theorem blank_step (s : Session) (op : Op) :
    (s.step op).map blank = (s.blank.step op.blank).map blank := by
  have hexact : ∀ {o o' : Outcome Session}, o.map blank = o' → o.map blank = o'.map blank :=
    Outcome.map_eq_map_of_map_eq blank_blank
  cases op with
  | create o =>
    have hstate : (s.keep o.clause).blank = s.blank.keep o.clause := by
      rw [blank_keep, Clause.blank_origin]
    exact hexact (congrArg Outcome.accept hstate)
  | compose places =>
    have hread : (places.map s.clause).map Clause.blank = places.map s.blank.clause := by
      rw [List.map_map, clause_blank]
    have hstate : blank <$> s.keep <$> Clause.statement (places.map s.clause) =
        s.blank.keep <$> Clause.statement (places.map s.blank.clause) := by
      rw [← hread, ← Clause.blank_statement, Functor.map_map, Functor.map_map]
      exact congrArg (· <$> _) (funext (blank_keep s))
    exact hexact (Outcome.map_ofTraced_of_map_eq hstate)
  | copy p =>
    have hstate : (s.keep (s.clause p)).blank = s.blank.keep (s.blank.clause p) := by
      rw [blank_keep, clause_blank]
      rfl
    exact hexact (congrArg Outcome.accept hstate)
  | change i op => exact blank_change s i op
  | createSelect table =>
    have hstate : blank { s with selects := s.selects ++ [.ofTable table] } =
        { s.blank with selects := s.blank.selects ++ [.ofTable table] } := by
      simp only [blank, List.map_append]
      rfl
    exact hexact (congrArg Outcome.accept hstate)
  | copySelect i =>
    have hstate : blank { s with selects := s.selects ++ s.selects[i]?.toList } =
        { s.blank with selects := s.blank.selects ++ s.blank.selects[i]?.toList } := by
      simp only [blank, List.map_append, List.getElem?_map]
      cases s.selects[i]? <;> rfl
    exact hexact (congrArg Outcome.accept hstate)
  | changeSelect i op => exact blank_changeSelect s i op

theorem step_alike {op op' : Op} (hs : s.blank = s'.blank) (hop : op.blank = op'.blank) :
    (s.step op).map blank = (s'.step op').map blank := by
  rw [blank_step s, blank_step s', hs, hop]

theorem state_step_alike {op op' : Op} (hs : s.blank = s'.blank) (hop : op.blank = op'.blank) :
    (s.step op).state.blank = (s'.step op').state.blank := by
  rw [← Outcome.state_map blank, ← Outcome.state_map blank, step_alike hs hop]

theorem fault_step_alike {op op' : Op} (hs : s.blank = s'.blank) (hop : op.blank = op'.blank) :
    (s.step op).fault = (s'.step op').fault := by
  rw [← Outcome.fault_map blank (s.step op), step_alike hs hop, Outcome.fault_map]

/-- The steps of two programs are alike, one by one, if nothing but values tells the programs apart.
-/
theorem forall₂_of_map_blank_eq (h : ops.map Op.blank = ops'.map Op.blank) :
    List.Forall₂ (fun op op' => op.blank = op'.blank) ops ops' := by
  have hblank : List.Forall₂ (· = ·) (ops.map Op.blank) (ops'.map Op.blank) := by
    rw [h]
    exact List.forall₂_refl _
  rwa [List.forall₂_map_left_iff, List.forall₂_map_right_iff] at hblank

theorem foldl_step_alike (hs : s.blank = s'.blank)
    (hops : List.Forall₂ (fun op op' => op.blank = op'.blank) ops ops') :
    (ops.foldl (fun s op => (s.step op).state) s).blank =
      (ops'.foldl (fun s op => (s.step op).state) s').blank := by
  induction hops generalizing s s' with
  | nil => exact hs
  | cons hop _ ih =>
    simp only [List.foldl_cons]
    exact ih (state_step_alike hs hop)

theorem faults_alike (hs : s.blank = s'.blank)
    (hops : List.Forall₂ (fun op op' => op.blank = op'.blank) ops ops') :
    s.faults ops = s'.faults ops' := by
  induction hops generalizing s s' with
  | nil => rfl
  | cons hop _ ih =>
    rw [faults, faults, fault_step_alike hs hop, ih (state_step_alike hs hop)]

end Session

/-- Two clauses are alike if nothing but the values and the types of the parameters tells them
apart. -/
structure Clause.Alike (c d : Clause) : Prop where
  sql : c.sql = d.sql
  expressions : c.expressions.toList = d.expressions.toList
  keys : ∀ k, c.expressions.indexOf? k = d.expressions.indexOf? k
  format : c.format = d.format
  names : c.paramList.map Param.name = d.paramList.map Param.name

theorem Clause.alike_of_blank_eq {c d : Clause} (h : c.blank = d.blank) : c.Alike d := by
  have hexpressions : c.expressions = d.expressions := by
    rw [← expressions_blank, h, expressions_blank]
  constructor
  · rw [← sql_blank, h, sql_blank]
  · rw [hexpressions]
  · intro k
    rw [hexpressions]
  · rw [← format_blank, h, format_blank]
  · rw [← Param.map_name_blank, ← paramList_blank, h, paramList_blank, Param.map_name_blank]

/-- Values never reach the text. Two programs that differ in the values and the types of parameters
only make clauses that are alike at every place after every step, and their steps end alike, with
the same faults. -/
theorem Session.run_alike {ops ops' : List Session.Op}
    (h : ops.map Session.Op.blank = ops'.map Session.Op.blank) :
    (∀ n p, Option.Rel Clause.Alike ((Session.run (ops.take n)).clause? p)
      ((Session.run (ops'.take n)).clause? p)) ∧
    Session.faults {} ops = Session.faults {} ops' := by
  have hops := Session.forall₂_of_map_blank_eq h
  refine ⟨fun n p => ?_, Session.faults_alike rfl hops⟩
  have hp : ((Session.run (ops.take n)).clause? p).map Clause.blank =
      ((Session.run (ops'.take n)).clause? p).map Clause.blank := by
    rw [← Session.clause?_blank, ← Session.clause?_blank]
    exact congrArg (Session.clause? · p) (Session.foldl_step_alike rfl (List.forall₂_take n hops))
  generalize (Session.run (ops.take n)).clause? p = o at hp ⊢
  generalize (Session.run (ops'.take n)).clause? p = o' at hp ⊢
  cases o <;> cases o'
  · exact .none
  · cases hp
  · cases hp
  · exact .some (Clause.alike_of_blank_eq (Option.some.inj hp))

/-- Conditions on an age and on a name for one value each and for others, the age even of another
type, and a parameter that both programs leave without a name. -/
theorem Session.run_alike_conditions :
    let ops (age : Typed) (part : String) : List Session.Op :=
      [.create (.whereList .and),
        .change 0 (.addFilter (.compare "age" .greater "@age" (some age))),
        .change 0 (.addFilter (.pattern false .anywhere "name" "@name" (some part))),
        .change 0 (.addParam (.ofValue "" age.value))]
    let some18 := ops ⟨.int32, 18⟩ "ann"
    let someOld := ops ⟨.text, "old"⟩ "50%"
    some18.map Session.Op.blank = someOld.map Session.Op.blank ∧
      (∀ n p, Option.Rel Clause.Alike ((Session.run (some18.take n)).clause? p)
        ((Session.run (someOld.take n)).clause? p)) ∧
      Session.faults {} some18 = Session.faults {} someOld :=
  ⟨rfl, Session.run_alike rfl⟩

end SqlCompose
