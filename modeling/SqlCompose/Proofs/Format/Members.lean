import SqlCompose.Proofs.Format.Stored
import SqlCompose.Proofs.Json.Skipping

/-!
Stored formats as others may write them, in any order and spelling, where the contents count and
only a second content for one field is refused.
-/
namespace SqlCompose.Format

open Json

variable {f g : Format} {x : Field} {s : Setting} {ss : List Setting} {xs seen : List Field}
  {first : Bool} {b cs v rest : List Char} {n : Nat}

/-- The ways to write the content of a field. -/
inductive Setting.Spelled : Setting → List Char → Prop where
  | text {t : TextField} {s : String} {cs : List Char} (h : Literal s.toList cs) :
      Spelled (.text t s) ('"' :: cs)
  | renderIfEmpty (b : Bool) : Spelled (.renderIfEmpty b) (boolText b).toList

/-- The members of an object and its end, where those that are named like a field hold these contents,
in this order. -/
inductive MembersOf : Bool → List Setting → List Char → Prop where
  | close {first : Bool} {b : List Char} (h : Blank b) : MembersOf first [] (b ++ ['}'])
  | field {first : Bool} {lead name b b' v cs : List Char} {s : Setting} {ss : List Setting}
      (hlead : Lead first lead) (hname : Literal s.field.name.toList name) (hb : Blank b)
      (hb' : Blank b') (hv : s.Spelled v) (hcs : MembersOf false ss cs) :
      MembersOf first (s :: ss) (lead ++ '"' :: (name ++ (b ++ ':' :: (b' ++ (v ++ cs)))))
  | other {first : Bool} {lead name b b' v cs : List Char} {other : String} {ss : List Setting}
      (hlead : Lead first lead) (hother : ∀ x : Field, x.name ≠ other)
      (hname : Literal other.toList name) (hb : Blank b) (hb' : Blank b') (hv : IsValue v)
      (hcs : MembersOf false ss cs) :
      MembersOf first ss (lead ++ '"' :: (name ++ (b ++ ':' :: (b' ++ (v ++ cs)))))

/-- The elements of an array of these contents and its end. -/
inductive ElementsOf : Bool → List Setting → List Char → Prop where
  | close {first : Bool} {b : List Char} (h : Blank b) : ElementsOf first [] (b ++ [']'])
  | element {first : Bool} {lead v cs : List Char} {s : Setting} {ss : List Setting}
      (hlead : Lead first lead) (hv : s.Spelled v) (hcs : ElementsOf false ss cs) :
      ElementsOf first (s :: ss) (lead ++ (v ++ cs))

/-- The text is an object that holds these contents under the names of their fields. -/
inductive IsObjectOf (ss : List Setting) : List Char → Prop where
  | mk {b cs b' : List Char} (hb : Blank b) (hcs : MembersOf true ss cs) (hb' : Blank b') :
      IsObjectOf ss (b ++ '{' :: (cs ++ b'))

/-- The text is an array of these contents, each at the place of its field. -/
inductive IsArrayOf (ss : List Setting) : List Char → Prop where
  | mk {b cs b' : List Char} (hfields : ss.map Setting.field <+: Field.all) (hb : Blank b)
      (hcs : ElementsOf true ss cs) (hb' : Blank b') : IsArrayOf ss (b ++ '[' :: (cs ++ b'))

/-- The format has these contents in their fields, and in the others what an empty one has. -/
structure Holds (f : Format) (ss : List Setting) : Prop where
  listed : ∀ s ∈ ss, f.setting s.field = s
  unlisted : ∀ x, x ∉ ss.map Setting.field → f.setting x = setting {} x

theorem setting_set (f : Format) (s : Setting) (x : Field) :
    (f.set s).setting x = if s.field = x then s else f.setting x := by
  rcases s with ⟨t, content⟩ | content <;> rcases x with u | _
  · cases t <;> cases u <;> rfl
  · cases t <;> rfl
  · rfl
  · rfl

theorem ext_setting (h : ∀ x, f.setting x = g.setting x) : f = g := by
  rw [← foldl_setting f, ← foldl_setting g]
  simp only [h]

theorem setting_foldl_of_not_mem (hx : x ∉ ss.map Setting.field) (g : Format) :
    (ss.foldl set g).setting x = g.setting x := by
  induction ss generalizing g with
  | nil => rfl
  | cons s ss ih =>
    rw [List.map_cons, List.mem_cons, not_or] at hx
    rw [List.foldl_cons, ih hx.2, setting_set, if_neg (Ne.symm hx.1)]

theorem setting_foldl_of_mem (hnodup : (ss.map Setting.field).Nodup) (hs : s ∈ ss) (g : Format) :
    (ss.foldl set g).setting s.field = s := by
  induction ss generalizing g with
  | nil => cases hs
  | cons r ss ih =>
    rw [List.map_cons, List.nodup_cons] at hnodup
    rcases List.mem_cons.mp hs with rfl | hs
    · rw [List.foldl_cons, setting_foldl_of_not_mem hnodup.1, setting_set, if_pos rfl]
    · exact ih hnodup.2 hs _

theorem holds_foldl (hnodup : (ss.map Setting.field).Nodup) : (ss.foldl set {}).Holds ss where
  listed _ hs := setting_foldl_of_mem hnodup hs {}
  unlisted _ hx := setting_foldl_of_not_mem hx {}

/-- Contents determine the format, in whatever order they are listed. -/
theorem Holds.eq_of_perm {ss' : List Setting} (hf : f.Holds ss) (hg : g.Holds ss')
    (hperm : ss'.Perm ss) : f = g := by
  apply ext_setting
  intro x
  by_cases hx : x ∈ ss.map Setting.field
  · obtain ⟨s, hs, rfl⟩ := List.mem_map.mp hx
    rw [hf.listed s hs, hg.listed s (hperm.mem_iff.mpr hs)]
  · rw [hf.unlisted x hx, hg.unlisted x fun h => hx ((hperm.map _).mem_iff.mp h)]

theorem Setting.Spelled.head (hv : s.Spelled v) :
    ∃ c cs, v = c :: cs ∧ isSpace c = false ∧ c ≠ ']' := by
  cases hv with
  | text h => exact ⟨_, _, rfl, by decide, by decide⟩
  | renderIfEmpty b => cases b <;> exact ⟨_, _, rfl, by decide, by decide⟩

theorem read_spelled (hb : Blank b) (hv : s.Spelled v) (rest : List Char) :
    s.field.read (b ++ (v ++ rest)) = .ok (s, rest) := by
  cases hv with
  | @text t s cs h =>
    have hread : readString (b ++ ('"' :: cs ++ rest)) = .ok (s, rest) := by
      rw [readString, List.cons_append, skipSpace_blank_cons hb (by decide)]
      exact string_literal h rest
    rw [Setting.field, Field.read, hread]
    rfl
  | renderIfEmpty c =>
    have hread : readBool (b ++ ((boolText c).toList ++ rest)) = .ok (c, rest) := by
      rw [readBool, skipSpace_blank hb, ← readBool]
      exact readBool_boolText c rest
    rw [Setting.field, Field.read, hread]
    rfl

theorem MembersOf.stops (h : MembersOf false ss cs) (rest : List Char) : Stops (cs ++ rest) := by
  cases h with
  | close hb =>
    rw [List.append_assoc]
    exact stops_blank_cons hb (by decide) _
  | field hlead hname hb hb' hv hcs =>
    rw [List.append_assoc]
    exact hlead.stops _
  | other hlead hother hname hb hb' hv hcs =>
    rw [List.append_assoc]
    exact hlead.stops _

theorem ofName?_eq_none {other : String} (hother : ∀ x : Field, x.name ≠ other) :
    Field.ofName? other = none := by
  rw [Field.ofName?, List.find?_eq_none]
  intro x _
  simpa using hother x

/-- A second member of a field that was read before is refused. -/
theorem readMembers_repeated {afterLead afterName : List Char}
    (hlead : nextMember first cs = .ok (true, afterLead))
    (hname : string afterLead = .ok (x.name, afterName)) (hseen : x ∈ seen) :
    readMembers (n + 1) first seen g cs = .error .mismatched := by
  rw [readMembers]
  simp only [hlead, hname, Field.ofName?_name, if_pos hseen, bind, Except.bind, Bool.not_true,
    Bool.false_eq_true, if_false]
  rfl

/-- A member of another name is passed over. -/
theorem readMembers_other {other : String} {afterLead afterName afterColon : List Char}
    (hlead : nextMember first cs = .ok (true, afterLead))
    (hname : string afterLead = .ok (other, afterName)) (hother : ∀ x : Field, x.name ≠ other)
    (hcolon : colon afterName = .ok afterColon) (hvalue : skipValue afterColon = .ok rest) :
    readMembers (n + 1) first seen g cs = readMembers n false seen g rest := by
  rw [readMembers]
  simp only [hlead, hname, ofName?_eq_none hother, hcolon, hvalue, bind, Except.bind,
    Bool.not_true, Bool.false_eq_true, if_false]

/-- With as many steps as there are characters, one is left where anything is to be read. -/
theorem exists_step_left (hcs : cs ≠ []) (hn : cs.length ≤ n) : ∃ m, n = m + 1 :=
  Nat.exists_eq_add_one.mpr (Nat.lt_of_lt_of_le (List.length_pos_iff.mpr hcs) hn)

/-- The members set their fields one after the other, or are refused if a field is set a second time.
-/
theorem readMembers_membersOf (h : MembersOf first ss cs) (hseen : seen.Nodup) (hn : cs.length ≤ n)
    (g : Format) (rest : List Char) :
    readMembers n first seen g (cs ++ rest) =
      if (ss.map Setting.field ++ seen).Nodup then .ok (ss.foldl set g, rest)
      else .error .mismatched := by
  induction h generalizing n seen g with
  | @close first b hb =>
    obtain ⟨m, rfl⟩ := exists_step_left (by simp) hn
    rw [List.append_assoc, List.singleton_append, readMembers, nextMember_close first hb]
    simp [hseen, bind, Except.bind, pure, Except.pure]
  | @field first lead name b b' v cs s ss hlead hname hb hb' hv hcs ih =>
    obtain ⟨m, rfl⟩ := exists_step_left (by simp) hn
    simp only [List.append_assoc, List.cons_append]
    have hfirst := nextMember_lead hlead (name ++ (b ++ ':' :: (b' ++ (v ++ (cs ++ rest)))))
    have hstring := string_literal hname (b ++ ':' :: (b' ++ (v ++ (cs ++ rest))))
    by_cases hmem : s.field ∈ seen
    · have hrepeated : ¬ (s.field :: ss.map Setting.field ++ seen).Nodup := by
        rw [List.cons_append, List.nodup_cons]
        exact fun h => h.1 (List.mem_append_right _ hmem)
      rw [List.map_cons, if_neg hrepeated, readMembers_repeated hfirst hstring hmem]
    · have hnodup : (s.field :: seen).Nodup := List.nodup_cons.mpr ⟨hmem, hseen⟩
      have hlength : cs.length ≤ m := by
        simp only [List.length_append, List.length_cons] at hn
        omega
      have hmove : (ss.map Setting.field ++ s.field :: seen).Nodup ↔
          (s.field :: ss.map Setting.field ++ seen).Nodup :=
        List.perm_middle.nodup_iff
      rw [readMembers_member hfirst hstring (colon_blank hb _) (read_spelled hb' hv _) hmem,
        ih hnodup hlength, List.map_cons, List.foldl_cons]
      simp only [hmove]
  | @other first lead name b b' v cs other ss hlead hother hname hb hb' hv hcs ih =>
    obtain ⟨m, rfl⟩ := exists_step_left (by simp) hn
    have hlength : cs.length ≤ m := by
      simp only [List.length_append, List.length_cons] at hn
      omega
    simp only [List.append_assoc, List.cons_append]
    have hfirst := nextMember_lead hlead (name ++ (b ++ ':' :: (b' ++ (v ++ (cs ++ rest)))))
    have hstring := string_literal hname (b ++ ':' :: (b' ++ (v ++ (cs ++ rest))))
    rw [readMembers_other hfirst hstring hother (colon_blank hb _)
      (skipValue_isValue hb' hv (hcs.stops rest)), ih hseen hlength]

/-- The elements set the fields at whose places they stand. -/
theorem readElements_elementsOf (h : ElementsOf first ss cs) (hfields : ss.map Setting.field <+: xs)
    (g : Format) (rest : List Char) :
    readElements xs first g (cs ++ rest) = .ok (ss.foldl set g, rest) := by
  induction h generalizing xs g with
  | @close first b hb =>
    rw [List.append_assoc, List.singleton_append]
    cases xs with
    | nil =>
      rw [readElements, arrayEnd, skipSpace_blank_cons hb (by decide)]
      rfl
    | cons x xs =>
      rw [readElements, nextElement_close first hb]
      rfl
  | @element first lead v cs s ss hlead hv hcs ih =>
    obtain ⟨ys, rfl⟩ := hfields
    obtain ⟨c, w, rfl, hspace, hclose⟩ := hv.head
    have hnext := nextElement_lead hlead hspace hclose (w ++ (cs ++ rest))
    have hread : s.field.read (c :: w ++ (cs ++ rest)) = .ok (s, cs ++ rest) :=
      read_spelled (b := []) (fun _ h => nomatch h) hv (cs ++ rest)
    rw [List.cons_append] at hread
    rw [List.append_assoc, List.append_assoc, List.map_cons, List.cons_append, List.cons_append,
      readElements]
    simp only [hnext, hread, bind, Except.bind, Bool.not_true, Bool.false_eq_true, if_false]
    exact ih (List.prefix_append _ _) (g.set s)

theorem complete_blank {α : Type} {a : α} (hb : Blank b) :
    complete (.ok (a, b) : Except ReadError (α × List Char)) = .ok a := by
  have hskip : skipSpace b = [] := by
    rw [← List.append_nil b, skipSpace_blank hb]
    rfl
  rw [complete, hskip]
  rfl

theorem parse_of_read {text : String} (h : read text.toList = .ok (f, b)) (hb : Blank b) :
    parse text = .ok f := by
  rw [parse, h, complete_blank hb]

theorem read_isObjectOf (h : IsObjectOf ss cs) :
    ∃ b, Blank b ∧ read cs =
      if (ss.map Setting.field).Nodup then .ok (ss.foldl set {}, b) else .error .mismatched := by
  obtain @⟨b, cs, b', hb, hcs, hb'⟩ := h
  have hlength : cs.length ≤ (cs ++ b').length + 1 := by
    rw [List.length_append]
    omega
  refine ⟨b', hb', ?_⟩
  rw [read, skipSpace_blank_cons hb (by decide)]
  have hread := readMembers_membersOf hcs List.nodup_nil hlength {} b'
  rw [List.append_nil] at hread
  exact hread

theorem parse_isObjectOf {text : String} (h : IsObjectOf ss text.toList) :
    parse text =
      if (ss.map Setting.field).Nodup then .ok (ss.foldl set {}) else .error .mismatched := by
  obtain ⟨b, hb, hread⟩ := read_isObjectOf h
  by_cases hnodup : (ss.map Setting.field).Nodup
  · rw [if_pos hnodup] at hread ⊢
    exact parse_of_read hread hb
  · rw [if_neg hnodup] at hread ⊢
    rw [parse, hread]
    rfl

theorem parse_isArrayOf {text : String} (h : IsArrayOf ss text.toList) :
    parse text = .ok (ss.foldl set {}) := by
  generalize htext : text.toList = cs at h
  obtain @⟨b, cs, b', hfields, hb, hcs, hb'⟩ := h
  refine parse_of_read ?_ hb'
  rw [htext, read, skipSpace_blank_cons hb (by decide)]
  exact readElements_elementsOf hcs hfields {} b'

theorem IsArrayOf.nodup (h : IsArrayOf ss cs) : (ss.map Setting.field).Nodup := by
  cases h with
  | mk hfields hb hcs hb' => exact hfields.sublist.nodup (by decide)

/-- Of an object that holds contents of some fields, each field once, in any order and with values of any
kind under other names in between, a format with just these contents is read, and the same one of every
other object that holds them. An object that holds two contents for one field is refused as one that is no
format. Of an array of contents at the places of their fields the format with these contents is read. -/
theorem parse_whatever_order :
    (∀ ss text, IsObjectOf ss text.toList → (ss.map Setting.field).Nodup →
        ∃ f, parse text = .ok f ∧ f.Holds ss ∧
          ∀ ss' text', ss'.Perm ss → IsObjectOf ss' text'.toList → parse text' = .ok f) ∧
      (∀ ss text, IsObjectOf ss text.toList → ¬ (ss.map Setting.field).Nodup →
        parse text = .error .mismatched) ∧
      ∀ ss text, IsArrayOf ss text.toList → ∃ f, parse text = .ok f ∧ f.Holds ss := by
  refine ⟨fun ss text h hnodup => ?_, fun ss text h hrepeated => ?_, fun ss text h => ?_⟩
  · refine ⟨ss.foldl set {}, ?_, holds_foldl hnodup, fun ss' text' hperm h' => ?_⟩
    · rw [parse_isObjectOf h, if_pos hnodup]
    · have hnodup' : (ss'.map Setting.field).Nodup := (hperm.map _).nodup_iff.mpr hnodup
      have hsame : ss.foldl set {} = ss'.foldl set {} :=
        (holds_foldl hnodup).eq_of_perm (holds_foldl hnodup') hperm
      rw [parse_isObjectOf h', if_pos hnodup', hsame]
  · rw [parse_isObjectOf h, if_neg hrepeated]
  · exact ⟨ss.foldl set {}, parse_isArrayOf h, holds_foldl h.nodup⟩

/-- The tail of a format in an escape behind a value of another name that looks like one of its fields, and
the flag; both the other way round; the flag twice; and the first two fields in an array. -/
theorem parse_whatever_order_tail :
    let ss : List Setting := [.text .tail "A", .renderIfEmpty true]
    let twice : List Setting := [.renderIfEmpty true, .renderIfEmpty true]
    let pair : List Setting := [.text .head "A", .text .tail "B"]
    let text := "\x7b\"x\":[-1.5e3, \x7b\"\":\"\\ud800\"\x7d] ,"
      ++ "\"suffix\": \"\\u0041\",\"render_if_empty\":true\x7d\n"
    let reversed := "\x7b\"render_if_empty\":true,\"suffix\":\"A\"\x7d"
    let repeated := "\x7b\"render_if_empty\":true,\"render_if_empty\":true\x7d"
    let elements := "[\"A\",\"B\"]"
    IsObjectOf ss text.toList ∧ (ss.map Setting.field).Nodup ∧
      IsObjectOf ss.reverse reversed.toList ∧ IsObjectOf twice repeated.toList ∧
      IsArrayOf pair elements.toList ∧
      parse text = .ok { tail := "A", renderIfEmpty := true } ∧
      parse reversed = .ok { tail := "A", renderIfEmpty := true } ∧
      parse repeated = .error .mismatched ∧
      parse elements = .ok { head := "A", tail := "B" } := by
  intro ss twice pair text reversed repeated elements
  have hnone : Blank [] := fun _ h => nomatch h
  have hblank : Blank [' '] := List.forall_mem_singleton.mpr rfl
  have hline : Blank ['\n'] := List.forall_mem_singleton.mpr rfl
  have htail : Literal "suffix".toList ("suffix".toList ++ ['"']) := literal_of_plain (by decide)
  have hflag : Literal "render_if_empty".toList ("render_if_empty".toList ++ ['"']) :=
    literal_of_plain (by decide)
  have hother : Literal "x".toList ['x', '"'] := literal_of_plain (by decide)
  have hA : Literal "A".toList ['A', '"'] := literal_of_plain (by decide)
  have hB : Literal "B".toList ['B', '"'] := literal_of_plain (by decide)
  have hescaped : Literal "A".toList ('\\' :: 'u' :: (['0', '0', '4', '1'] ++ ['"'])) :=
    .char (.unit (u := 0x41) ⟨rfl, rfl⟩ rfl rfl) .close
  have hdigit : ∀ d : Char, d.isDigit = true → Digits [d] :=
    fun d hd => ⟨List.cons_ne_nil _ _, List.forall_mem_singleton.mpr hd⟩
  have hexponent : IsExponent ('e' :: ([] ++ ['3'])) :=
    .digits (.inl rfl) (by decide) (hdigit '3' rfl)
  have hnumber : IsNumeral (['1'] ++ (['.', '5'] ++ ['e', '3'])) :=
    .mk (hdigit '1' rfl) (by decide) (.digits (hdigit '5' rfl)) hexponent
  have hlone : IsLiteral ('\\' :: 'u' :: (['d', '8', '0', '0'] ++ ['"'])) :=
    .unit (u := 0xD800) ⟨rfl, rfl⟩ .close
  have hmember : IsValue
      ('{' :: ([] ++ '"' :: (['"'] ++ ([] ++ ':' :: ([] ++ ('"' :: _ ++ ([] ++ ['}']))))))) :=
    .object (.member (.first hnone) .close hnone hnone (.string hlone) (.close hnone))
  have hvalue : IsValue
      ('[' :: ([] ++ ('-' :: _ ++ (([] ++ ',' :: [' ']) ++ ('{' :: _ ++ ([] ++ [']'])))))) :=
    .array (.element (.first hnone) (.negative hnumber)
      (.element (.next hnone hblank) hmember (.close hnone)))
  have hunknown : ∀ x : Field, x.name ≠ "x" := by
    rintro (t | _)
    · cases t <;> decide
    · decide
  have hobject : IsObjectOf ss text.toList := by
    have h : IsObjectOf ss _ :=
      .mk hnone
        (.other (.first hnone) hunknown hother hnone hnone hvalue
          (.field (s := .text .tail "A") (.next hblank hnone) htail hnone hblank (.text hescaped)
            (.field (s := .renderIfEmpty true) (.next hnone hnone) hflag hnone hnone
              (.renderIfEmpty true) (.close hnone)))) hline
    exact (congrArg (IsObjectOf ss) (by decide)).mp h
  have hreversed : IsObjectOf ss.reverse reversed.toList := by
    have h : IsObjectOf ss.reverse _ :=
      .mk hnone
        (.field (s := .renderIfEmpty true) (.first hnone) hflag hnone hnone (.renderIfEmpty true)
          (.field (s := .text .tail "A") (.next hnone hnone) htail hnone hnone (.text hA)
            (.close hnone))) hnone
    exact (congrArg (IsObjectOf ss.reverse) (by decide)).mp h
  have hrepeated : IsObjectOf twice repeated.toList := by
    have h : IsObjectOf twice _ :=
      .mk hnone
        (.field (s := .renderIfEmpty true) (.first hnone) hflag hnone hnone (.renderIfEmpty true)
          (.field (s := .renderIfEmpty true) (.next hnone hnone) hflag hnone hnone
            (.renderIfEmpty true) (.close hnone))) hnone
    exact (congrArg (IsObjectOf twice) (by decide)).mp h
  have helements : IsArrayOf pair elements.toList := by
    have h : IsArrayOf pair _ :=
      .mk (by decide) hnone
        (.element (s := .text .head "A") (.first hnone) (.text hA)
          (.element (s := .text .tail "B") (.next hnone hnone) (.text hB) (.close hnone))) hnone
    exact (congrArg (IsArrayOf pair) (by decide)).mp h
  have hnodup : (ss.map Setting.field).Nodup := by decide
  obtain ⟨hordered, hrefused, harray⟩ := parse_whatever_order
  obtain ⟨f, hparse, hf, hsame⟩ := hordered ss text hobject hnodup
  obtain ⟨g, hparsed, hg⟩ := harray _ elements helements
  have hfirst : f = { tail := "A", renderIfEmpty := true } :=
    hf.eq_of_perm (holds_foldl hnodup) (.refl ss)
  have hsecond : g = { head := "A", tail := "B" } :=
    hg.eq_of_perm (holds_foldl helements.nodup) (.refl _)
  refine ⟨hobject, hnodup, hreversed, hrepeated, helements, hfirst ▸ hparse, ?_, ?_,
    hsecond ▸ hparsed⟩
  · exact hfirst ▸ hsame ss.reverse reversed (List.reverse_perm ss) hreversed
  · exact hrefused _ repeated hrepeated (by decide)

end SqlCompose.Format
