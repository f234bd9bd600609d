import SqlCompose.Proofs.Clause.Log
import SqlCompose.Proofs.Clause.Written
import SqlCompose.Proofs.Select.Interleaving
import SqlCompose.Proofs.Select.Opened

/-!
The joiner of a list of predicates may be chosen at any time, before the list is there or after.
-/
namespace SqlCompose

/-- The decoration of a clause may be replaced before an operation that does not change it, or after
it. -/
theorem Clause.apply_reformatted {op : Clause.Op} (h : op.decorates = false) (c : Clause)
    (f : Format) :
    ({ c with format := f }.apply op).state = { (c.apply op).state with format := f } := by
  have hkeys : { c with format := f }.containsExpression = c.containsExpression := rfl
  refine Clause.ext ?_ ?_ (format_apply_of_not_decorates h)
  · rw [expressions_apply, written_congr hkeys]
    exact (expressions_apply c op).symm
  · rw [params_apply, handed_congr hkeys]
    exact (params_apply c op).symm

namespace Select

variable {t u : Select} {p : Part} {op : Op} {ops : List Op} {j : Joiner}

/-- The parts whose expressions are joined by a word that can be chosen. -/
inductive PredicateList where
  | whereList
  | havingList
deriving DecidableEq, Repr

namespace PredicateList

def part : PredicateList → Part
  | .whereList => .whereList
  | .havingList => .havingList

/-- The decoration that a joiner asks for. -/
def format : PredicateList → Joiner → Format
  | .whereList => .whereList
  | .havingList => .havingList

/-- The operation that chooses a joiner. -/
def choose : PredicateList → Joiner → Op
  | .whereList => .whereJoiner
  | .havingList => .havingJoiner

end PredicateList

variable {l : PredicateList}

/-- The joiner of a list, be it there or not. -/
def joiner (t : Select) : PredicateList → Joiner
  | .whereList => t.whereJoiner
  | .havingList => t.havingJoiner

/-- The joiner that an operation chooses for a list. -/
def Op.joinerFor? (l : PredicateList) (op : Op) : Option Joiner :=
  match l, op with
  | .whereList, .whereJoiner j => some j
  | .havingList, .havingJoiner j => some j
  | _, _ => none

/-- Whether an operation decorates a part by hand. -/
def Op.redecorates (p : Part) : Op → Bool
  | .edit q op => decide (q = p) && op.decorates
  | _ => false

/-- The joiner that is chosen last in a run, or the one that every statement starts with. -/
def latestJoiner (l : PredicateList) (ops : List Op) : Joiner :=
  (ops.filterMap (Op.joinerFor? l)).getLast?.getD .and

/-- What an operation may do to a list: work on another part, choose a joiner, open the list or change
what is in it. -/
theorem Op.cases_on_list (op : Op) (l : PredicateList) :
    op.part ≠ l.part ∨ (∃ j, op = l.choose j) ∨ op = .openPart l.part ∨
      ∃ o, op = .edit l.part o := by
  by_cases hop : op.part = l.part
  · refine .inr ?_
    cases op with
    | edit p o =>
      obtain rfl : p = l.part := hop
      exact .inr (.inr ⟨o, rfl⟩)
    | openPart p =>
      obtain rfl : p = l.part := hop
      exact .inr (.inl rfl)
    | whereJoiner j =>
      cases l with
      | whereList => exact .inl ⟨j, rfl⟩
      | havingList => cases hop
    | havingJoiner j =>
      cases l with
      | whereList => cases hop
      | havingList => exact .inl ⟨j, rfl⟩
    | top value name => cases l <;> cases hop
    | build => cases l <;> cases hop
  · exact .inl hop

theorem part_choose (l : PredicateList) (j : Joiner) : (l.choose j).part = l.part := by
  cases l <;> rfl

@[simp] theorem joinerFor?_choose (l : PredicateList) (j : Joiner) :
    (l.choose j).joinerFor? l = some j := by
  cases l <;> rfl

theorem choose_ne_build (l : PredicateList) (j : Joiner) : l.choose j ≠ .build := by
  cases l <;> simp [PredicateList.choose]

theorem joinerFor?_of_part_ne (h : op.part ≠ l.part) : op.joinerFor? l = none := by
  cases l <;> cases op <;> first | rfl | exact absurd rfl h

theorem joinerFor?_edit (l : PredicateList) (p : Part) (o : Clause.Op) :
    (Op.edit p o : Op).joinerFor? l = none := by
  cases l <;> rfl

theorem joinerFor?_openPart (l : PredicateList) (p : Part) :
    (Op.openPart p : Op).joinerFor? l = none := by
  cases l <;> rfl

theorem decorates_of_redecorates {o : Clause.Op} (h : (Op.edit p o : Op).redecorates p = false) :
    o.decorates = false := by
  simpa [Op.redecorates] using h

/-- A list that is there takes on the decoration for the joiner, and one that is not comes into being
with it. -/
theorem part_apply_choose (t : Select) (l : PredicateList) (j : Joiner) :
    (t.apply (l.choose j)).state.part l.part = { t.part l.part with format := l.format j } := by
  obtain ⟨_, _, whereList, _, havingList, _, _, _⟩ := t
  cases l with
  | whereList => cases whereList <;> rfl
  | havingList => cases havingList <;> rfl

theorem setPart_apply_choose (t : Select) (l : PredicateList) (c : Clause) (j : Joiner) :
    ((t.setPart l.part c).apply (l.choose j)).state =
      (t.apply (l.choose j)).state.setPart l.part { c with format := l.format j } := by
  cases l <;> rfl

theorem joiner?_part (t : Select) (l : PredicateList) : t.joiner? l.part = some (t.joiner l) := by
  cases l <;> rfl

theorem Agree.joiner (h : Agree l.part t u) : t.joiner l = u.joiner l := by
  have hjoiner := h.joiner?
  rw [joiner?_part, joiner?_part] at hjoiner
  exact Option.some.inj hjoiner

theorem joiner_setPart (t : Select) (p : Part) (c : Clause) (l : PredicateList) :
    (t.setPart p c).joiner l = t.joiner l := by
  cases l <;> cases p <;> rfl

theorem joiner_apply (t : Select) (op : Op) (l : PredicateList) :
    (t.apply op).state.joiner l = (op.joinerFor? l).getD (t.joiner l) := by
  rcases op.cases_on_list l with hne | ⟨j, rfl⟩ | rfl | ⟨o, rfl⟩
  · rw [joinerFor?_of_part_ne hne]
    exact (Agree.of_apply_of_ne hne t).joiner
  · cases l <;> rfl
  · rw [joinerFor?_openPart]
    exact joiner_setPart t l.part _ l
  · rw [joinerFor?_edit]
    exact joiner_setPart t l.part _ l

theorem joiner_run (t : Select) (ops : List Op) (l : PredicateList) :
    (t.run ops).joiner l = (ops.filterMap (Op.joinerFor? l)).getLast?.getD (t.joiner l) := by
  induction ops generalizing t with
  | nil => rfl
  | cons op ops ih =>
    rw [run_cons, ih, joiner_apply]
    cases hop : op.joinerFor? l with
    | none =>
      rw [List.filterMap_cons_none hop]
      rfl
    | some j =>
      rw [List.filterMap_cons_some hop, List.getLast?_cons]
      rfl

/-- A list has the decoration for its joiner, or would come into being with it. -/
def Styled (l : PredicateList) (t : Select) : Prop :=
  (t.part l.part).format = l.format (t.joiner l)

theorem styled_ofTable (l : PredicateList) (table : String) : (ofTable table).Styled l := by
  cases l <;> rfl

/-- A choice puts the list right, whatever its decoration was, and nothing but a decoration by hand
puts it wrong. -/
theorem Styled.apply (h : t.Styled l) (hplain : op.redecorates l.part = false) :
    (t.apply op).state.Styled l := by
  rcases op.cases_on_list l with hne | ⟨j, rfl⟩ | rfl | ⟨o, rfl⟩
  · have hagree : Agree l.part (t.apply op).state t := .of_apply_of_ne hne t
    rw [Styled, hagree.part, hagree.joiner]
    exact h
  · rw [Styled, part_apply_choose, joiner_apply, joinerFor?_choose]
    rfl
  · rw [Styled, joiner_apply, joinerFor?_openPart]
    exact (congrArg Clause.format (part_setPart t l.part _)).trans h
  · have hformat : (((t.part l.part).apply o).state).format = (t.part l.part).format :=
      Clause.format_apply_of_not_decorates (decorates_of_redecorates hplain)
    rw [Styled, joiner_apply, joinerFor?_edit]
    exact (congrArg Clause.format (part_setPart t l.part _)).trans (hformat.trans h)

theorem Styled.run (h : t.Styled l) (hplain : ∀ op ∈ ops, op.redecorates l.part = false) :
    (t.run ops).Styled l := by
  induction ops generalizing t with
  | nil => exact h
  | cons op ops ih =>
    rw [List.forall_mem_cons] at hplain
    exact ih (h.apply hplain.1) hplain.2

/-- Choosing a joiner for a list does not meet with an operation on another part. -/
theorem apply_choose_comm_of_ne (t : Select) (j : Joiner) (hne : op.part ≠ l.part) :
    ((t.apply (l.choose j)).state.apply op).state =
      ((t.apply op).state.apply (l.choose j)).state := by
  apply eq_of_agree
  intro p
  by_cases hp : l.part = p
  · subst hp
    have hleft := Agree.of_apply_of_ne hne (t.apply (l.choose j)).state
    have hright := (Agree.of_apply_of_ne hne t).congr_apply (l.choose j)
    exact hleft.trans hright.symm
  · have hother : (l.choose j).part ≠ p := part_choose l j ▸ hp
    have hleft := (Agree.of_apply_of_ne hother t).congr_apply op
    have hright := Agree.of_apply_of_ne hother (t.apply op).state
    exact hleft.trans hright.symm

/-- A joiner may be chosen before an operation or after it. -/
theorem apply_choose_comm (t : Select) (j : Joiner) (hop : op.joinerFor? l = none)
    (hplain : op.redecorates l.part = false) :
    ((t.apply (l.choose j)).state.apply op).state =
      ((t.apply op).state.apply (l.choose j)).state := by
  rcases op.cases_on_list l with hne | ⟨i, rfl⟩ | rfl | ⟨o, rfl⟩
  · exact apply_choose_comm_of_ne t j hne
  · rw [joinerFor?_choose] at hop
    cases hop
  · have hleft : ((t.apply (l.choose j)).state.apply (.openPart l.part)).state =
        (t.apply (l.choose j)).state.setPart l.part ((t.apply (l.choose j)).state.part l.part) := rfl
    rw [hleft, part_apply_choose]
    exact (setPart_apply_choose t l (t.part l.part) j).symm
  · have hleft : ((t.apply (l.choose j)).state.apply (.edit l.part o)).state =
        (t.apply (l.choose j)).state.setPart l.part
          (((t.apply (l.choose j)).state.part l.part).apply o).state := rfl
    rw [hleft, part_apply_choose, Clause.apply_reformatted (decorates_of_redecorates hplain)]
    exact (setPart_apply_choose t l _ j).symm

theorem run_choose_comm (t : Select) (j : Joiner)
    (hops : ∀ op ∈ ops, op.joinerFor? l = none ∧ op.redecorates l.part = false) :
    (t.apply (l.choose j)).state.run ops = ((t.run ops).apply (l.choose j)).state := by
  induction ops generalizing t with
  | nil => rfl
  | cons op ops ih =>
    obtain ⟨⟨hop, hplain⟩, hrest⟩ := List.forall_mem_cons.mp hops
    calc (t.apply (l.choose j)).state.run (op :: ops)
        = (((t.apply (l.choose j)).state.apply op).state).run ops := rfl
      _ = (((t.apply op).state.apply (l.choose j)).state).run ops := by
        rw [apply_choose_comm t j hop hplain]
      _ = (((t.apply op).state.run ops).apply (l.choose j)).state := ih _ hrest

/-- A choice may be moved along a run over operations that neither choose another joiner for the list
nor decorate it by hand. -/
theorem run_move_choose (t : Select) (before after : List Op) (j : Joiner)
    (hops : ∀ op ∈ ops, op.joinerFor? l = none ∧ op.redecorates l.part = false) :
    t.run (before ++ l.choose j :: (ops ++ after)) =
      t.run (before ++ ops ++ l.choose j :: after) := by
  calc t.run (before ++ l.choose j :: (ops ++ after))
      = (((t.run before).apply (l.choose j)).state.run ops).run after := by
        rw [run_append, run_cons, run_append]
    _ = ((t.run (before ++ ops)).apply (l.choose j)).state.run after := by
        rw [run_choose_comm _ j hops, run_append]
    _ = t.run (before ++ ops ++ l.choose j :: after) := by
        rw [run_append t (before ++ ops), run_cons]

/-- What is built before and after is the same too, as long as nothing is built in between. -/
theorem built_move_choose (t : Select) (before after : List Op) (j : Joiner)
    (hops : ∀ op ∈ ops, op.joinerFor? l = none ∧ op.redecorates l.part = false)
    (hquiet : ∀ op ∈ ops, op ≠ .build) :
    t.built (before ++ l.choose j :: (ops ++ after)) =
      t.built (before ++ ops ++ l.choose j :: after) := by
  have hchoose : l.choose j ≠ .build := choose_ne_build l j
  calc t.built (before ++ l.choose j :: (ops ++ after))
      = t.built before ++ (((t.run before).apply (l.choose j)).state.run ops).built after := by
        rw [built_append, built_cons_of_ne hchoose, built_append _ ops,
          built_eq_nil hquiet, List.nil_append]
    _ = t.built before ++ ((t.run (before ++ ops)).apply (l.choose j)).state.built after := by
        rw [run_choose_comm _ j hops, run_append]
    _ = t.built (before ++ ops ++ l.choose j :: after) := by
        rw [built_append t (before ++ ops), built_append t before, built_eq_nil hquiet,
          List.append_nil, built_cons_of_ne hchoose]

/-- A joiner may be chosen at any time. After every run that does not decorate a list of predicates by
hand, so at every point of such a run, the list has the decoration for the joiner that was chosen last,
if it exists. And a choice may be moved along a run, before the list comes into being or after its
predicates, as long as no other joiner is chosen for the list in between: the run ends with the same
statement and what is built from it is the same, as is all that is built in the run if nothing is built
in between. -/
theorem joiner_chosen_at_any_time (table : String) (l : PredicateList) :
    (∀ ops, (∀ op ∈ ops, op.redecorates l.part = false) →
      ∀ c, ((ofTable table).run ops).part? l.part = some c →
        c.format = l.format (latestJoiner l ops)) ∧
    ∀ (before mid after : List Op) (j : Joiner),
      (∀ op ∈ mid, op.joinerFor? l = none ∧ op.redecorates l.part = false) →
      let early := before ++ l.choose j :: (mid ++ after)
      let late := before ++ mid ++ l.choose j :: after
      (ofTable table).run early = (ofTable table).run late ∧
        ((ofTable table).run early).build = ((ofTable table).run late).build ∧
        ((∀ op ∈ mid, op ≠ .build) → (ofTable table).built early = (ofTable table).built late) := by
  constructor
  · intro ops hplain c hc
    have hstyled : ((ofTable table).run ops).Styled l := (styled_ofTable l table).run hplain
    have hpart : ((ofTable table).run ops).part l.part = c := by
      rw [part_eq_getD, hc, Option.getD_some]
    have hjoiner : ((ofTable table).run ops).joiner l = latestJoiner l ops := by
      rw [joiner_run, latestJoiner]
      cases l <;> rfl
    rw [← hpart, hstyled, hjoiner]
  · intro before mid after j hmid early late
    have hrun : (ofTable table).run early = (ofTable table).run late :=
      run_move_choose _ before after j hmid
    exact ⟨hrun, congrArg build hrun, built_move_choose _ before after j hmid⟩

/-- The joiner is chosen once more, before the where list is opened or after two predicates are in it,
while another is chosen for the having list. -/
theorem joiner_chosen_at_any_time_adults :
    let adults : Op :=
      .edit .whereList (.addFilter (.compare "age" .greater "@age" (some ⟨.int32, (18 : Int32)⟩)))
    let anns : Op :=
      .edit .whereList (.addFilter (.compare "name" .equal "@name" (some (.ofText "ann"))))
    let before : List Op := [.whereJoiner .and]
    let mid : List Op := [.openPart .whereList, adults, .havingJoiner .and, anns]
    let early := before ++ PredicateList.whereList.choose .or :: (mid ++ [.build])
    let late := before ++ mid ++ PredicateList.whereList.choose .or :: [.build]
    let t := (ofTable "people").run late
    (∀ op ∈ late, op.redecorates .whereList = false) ∧
      (∀ op ∈ mid, op.joinerFor? .whereList = none ∧ op.redecorates .whereList = false) ∧
      (∀ op ∈ mid, op ≠ .build) ∧ latestJoiner .whereList late = .or ∧
      (∀ c, t.part? .whereList = some c → c.format = Format.whereList .or) ∧
      (ofTable "people").run early = t ∧
      ((ofTable "people").built early).map (fun c => (c.sql, c.paramList.map Param.name)) =
        [("select\n\t*\nfrom\n\tpeople\nwhere\n\t(age > @age)\n\tor (name = @name)\n",
          ["@age", "@name"])] := by
  intro adults anns before mid early late t
  have hplain : ∀ op ∈ late, op.redecorates .whereList = false := by decide
  have hmid : ∀ op ∈ mid,
      op.joinerFor? .whereList = none ∧ op.redecorates .whereList = false := by decide
  have hquiet : ∀ op ∈ mid, op ≠ .build := by simp [mid, adults, anns]
  obtain ⟨hstyle, hmove⟩ := joiner_chosen_at_any_time "people" .whereList
  obtain ⟨hrun, -, hbuilt⟩ := hmove before mid [.build] .or hmid
  refine ⟨hplain, hmid, hquiet, rfl, hstyle late hplain, hrun, ?_⟩
  rw [hbuilt hquiet]
  decide

end Select

end SqlCompose
