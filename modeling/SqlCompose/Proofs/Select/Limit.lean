import SqlCompose.Proofs.Clause.Statement
import SqlCompose.Proofs.Text.Cut
import SqlCompose.Select.Basic

/-! What a limit makes of a select statement. -/
namespace SqlCompose

/-- The clause with a limit in its head and the parameter of the limit bound. -/
def Clause.limited (c : Clause) (p : Param) : Clause :=
  { c with
    params := c.params.insert p.name p true
    format := c.format.set (.text .head (Select.limitedHead c.format.head p.name)) }

namespace Select

/-- The head of the select list with a limit. -/
def limitHead (name : String) : String := "select top(" ++ name ++ ")\n"

/-- What a limit is put behind: the head without the blanks at its end and without the limit that it
has. -/
def keyword (head : String) : String :=
  .ofList (Text.cutBefore limitMarker.toList (Text.trimEnd head.toList))

theorem limitedHead_eq (head name : String) :
    limitedHead head name = keyword head ++ limitMarker ++ name ++ ")\n" := rfl

theorem front_keyword (head : String) :
    Text.Front limitMarker.toList (keyword head).toList (Text.trimEnd head.toList) := by
  rw [keyword, String.toList_ofList]
  exact Text.front_cutBefore _ _

/-- The line break behind a limit is a blank, and the parenthesis in front of it is none. -/
theorem trimEnd_limitedHead (head name : String) :
    Text.trimEnd (limitedHead head name).toList =
      (keyword head).toList ++ limitMarker.toList ++ (name.toList ++ [')']) := by
  apply Text.Trimmed.eq
  have hbreak : Text.isBlank '\n' = true := by decide
  refine ⟨⟨['\n'], ?_, List.forall_mem_singleton.mpr hbreak⟩, fun hne => ?_⟩
  · rw [limitedHead_eq]
    simp
  · simp only [← List.append_assoc, List.getLast_concat]
    decide

/-- The first limit in a head is the one that was put there. -/
theorem keyword_limitedHead (head name : String) :
    keyword (limitedHead head name) = keyword head := by
  -- the marker begins with a blank and has no other, so it does not overlap itself
  have hmarker : limitMarker.toList = ' ' :: ['t', 'o', 'p', '('] := rfl
  have hold := front_keyword head
  have hnew := front_keyword (limitedHead head name)
  rw [trimEnd_limitedHead] at hnew
  rw [hmarker] at hold hnew
  exact String.toList_inj.mp (hnew.eq (hold.append_marker (by decide) _))

/-- The limit that is there is dropped, whatever its name. -/
theorem limitedHead_limitedHead (head old name : String) :
    limitedHead (limitedHead head old) name = limitedHead head name := by
  rw [limitedHead_eq, keyword_limitedHead, limitedHead_eq]

theorem limitedHead_selectList (name : String) :
    limitedHead Format.selectList.head name = limitHead name := by
  have hkeyword : keyword Format.selectList.head = "select" := by decide
  have hfront : "select" ++ limitMarker = "select top(" := by decide
  rw [limitedHead_eq, hkeyword, hfront, limitHead]

theorem limitedHead_limitHead (old name : String) :
    limitedHead (limitHead old) name = limitHead name := by
  rw [← limitedHead_selectList old, limitedHead_limitedHead, limitedHead_selectList]

/-- A parameter that has a name is bound by the select list. -/
theorem edit_addParam (t : Select) {p : Param} (h : p.name ≠ "") :
    t.edit .selectList (.addParam p) =
      (Outcome.ofTraced (t.selectList.insertParams [p])).map (t.setPart .selectList) := by
  have hnamed : Clause.allNamed [p] = true :=
    Clause.allNamed_iff.mpr (List.forall_mem_singleton.mpr h)
  have hbind : t.selectList.addParam p = .ofTraced (t.selectList.insertParams [p]) := by
    rw [Clause.addParam, Clause.addParams, if_pos hnamed]
  exact congrArg (Outcome.map _) hbind

/-- A limit that has a name changes the head and the parameters of the select list, and nothing
besides. -/
theorem state_top (t : Select) (v : Typed) (name : String) :
    (t.top (some v) name).state =
      if name = "" then t else { t with selectList := t.selectList.limited (v.toParam name) } := by
  split
  · rename_i hname
    subst hname
    rfl
  · rename_i hname
    rw [top, edit_addParam t (p := v.toParam name) hname]
    simp only [Outcome.andThen, Outcome.fault_map, Outcome.fault_ofTraced, Outcome.state_map,
      Outcome.state_ofTraced, Clause.value_insertParams]
    rfl

/-- The statement with a limit. -/
def limited (t : Select) (p : Param) : Select := { t with selectList := t.selectList.limited p }

theorem state_top_of_ne (t : Select) (v : Typed) {name : String} (h : name ≠ "") :
    (t.top (some v) name).state = t.limited (v.toParam name) := by
  rw [state_top, if_neg h]
  rfl

theorem fault_top_of_ne (t : Select) (v : Typed) {name : String} (h : name ≠ "") :
    (t.top (some v) name).fault = none := by
  rw [top, edit_addParam t (p := v.toParam name) h]
  rfl

end Select

end SqlCompose
