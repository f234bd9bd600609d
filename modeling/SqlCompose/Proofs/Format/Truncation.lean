import SqlCompose.Proofs.Format.Stored
import SqlCompose.Proofs.Json.Truncation

/-! Stored formats that break off, none of which is taken for a shorter format. -/
namespace SqlCompose.Format

open Json
open Text (BreaksOff breaksOff_append breaksOff_cons_iff breaksOff_singleton_iff)

variable {f g : Format} {x : Field} {xs seen : List Field} {first : Bool} {n : Nat}
  {lead p rest : List Char}

theorem read_breaksOff (h : BreaksOff p (f.fieldText x).toList) : x.read p = .error .truncated := by
  cases x with
  | text t =>
    rw [Field.read, readString_breaksOff h]
    rfl
  | renderIfEmpty =>
    rw [Field.read, readBool_breaksOff h]
    rfl

/-- A fault between the name and the end of the content is the fault of the whole. -/
theorem readMembers_of_content {e : ReadError} {cs afterLead afterName : List Char}
    (hlead : nextMember first cs = .ok (true, afterLead))
    (hname : string afterLead = .ok (x.name, afterName)) (hnew : x ∉ seen)
    (hfault : (do x.read (← colon afterName)) = .error e) :
    readMembers (n + 1) first seen g cs = .error e := by
  rw [readMembers]
  simp only [hlead, hname, Field.ofName?_name, if_neg hnew, bind, Except.bind, Bool.not_true,
    Bool.false_eq_true, if_false] at hfault ⊢
  cases hcolon : colon afterName with
  | error e' =>
    rw [hcolon] at hfault
    cases hfault
    rfl
  | ok afterColon =>
    rw [hcolon] at hfault
    simp only at hfault ⊢
    rw [hfault]

/-- A member that breaks off, be it in what leads up to its name, in the name, in front of the colon or in
the content, is not read; and behind it the text still breaks off. -/
theorem readMembers_breaksOff_written
    (hlead : ∀ cs, nextMember first (lead ++ '"' :: cs) = .ok (true, cs))
    (hbreak : ∀ p, BreaksOff p (lead ++ ['"']) → nextMember first p = .error .truncated)
    (hnew : x ∉ seen)
    (hrest : ∀ p, BreaksOff p rest →
      readMembers n false (x :: seen) (g.set (f.setting x)) p = .error .truncated)
    (h : BreaksOff p (lead ++ (memberText (x.name, f.fieldText x) ++ rest))) :
    readMembers (n + 1) first seen g p = .error .truncated := by
  have htext : lead ++ (memberText (x.name, f.fieldText x) ++ rest) =
      (lead ++ ['"']) ++ ((escapeText x.name.toList ++ ['"']) ++
        ([':'] ++ ((f.fieldText x).toList ++ rest))) := by
    rw [memberText_append]
    simp
  rw [htext] at h
  rcases h.of_append with hcut | ⟨p₁, rfl, h₁⟩
  · rw [readMembers, hbreak p hcut]
    rfl
  have hstart : nextMember first (lead ++ ['"'] ++ p₁) = .ok (true, p₁) := by
    rw [List.append_assoc]
    exact hlead p₁
  rcases h₁.of_append with hcut | ⟨p₂, rfl, h₂⟩
  · rw [readMembers, hstart]
    simp [string_breaksOff hcut, bind, Except.bind]
  have hname : string (escapeText x.name.toList ++ ['"'] ++ p₂) = .ok (x.name, p₂) := by
    rw [List.append_assoc]
    exact string_escapeText x.name p₂
  rcases h₂.of_append with hcut | ⟨p₃, rfl, h₃⟩
  · obtain rfl := breaksOff_singleton_iff.mp hcut
    exact readMembers_of_content hstart hname hnew rfl
  rcases h₃.of_append with hcut | ⟨p₄, rfl, h₄⟩
  · have hcontent : (do x.read (← colon ([':'] ++ p₃))) = .error .truncated := read_breaksOff hcut
    exact readMembers_of_content hstart hname hnew hcontent
  · rw [readMembers_member hstart hname rfl (read_fieldText f x p₄) hnew]
    exact hrest p₄ h₄

theorem readMembers_breaksOff_followers (f : Format) (hd : xs.Nodup) (hnew : ∀ x ∈ xs, x ∉ seen)
    (h : BreaksOff p (xs.flatMap (fun x => ',' :: memberText (x.name, f.fieldText x)) ++ ['}'])) :
    readMembers n false seen g p = .error .truncated := by
  induction xs generalizing n seen g p with
  | nil =>
    obtain rfl := breaksOff_singleton_iff.mp h
    cases n <;> rfl
  | cons x xs ih =>
    cases n with
    | zero => rfl
    | succ n =>
      rw [List.forall_mem_cons] at hnew
      rw [List.nodup_cons] at hd
      have hothers : ∀ y ∈ xs, y ∉ x :: seen := by
        intro y hy hmem
        rcases List.mem_cons.mp hmem with rfl | hseen
        · exact hd.1 hy
        · exact hnew.2 y hy hseen
      have hbreak : ∀ p, BreaksOff p ([','] ++ ['"']) → nextMember false p = .error .truncated := by
        intro p hp
        rcases breaksOff_cons_iff.mp hp with rfl | ⟨q, rfl, hq⟩
        · rfl
        · obtain rfl := breaksOff_singleton_iff.mp hq
          rfl
      rw [List.flatMap_cons, List.append_assoc, List.cons_append, ← List.singleton_append] at h
      exact readMembers_breaksOff_written (fun _ => rfl) hbreak hnew.1
        (fun p hp => ih hd.2 hothers hp) h

theorem readMembers_breaksOff_fields (f : Format) (hd : (x :: xs).Nodup)
    (h : BreaksOff p (memberText (x.name, f.fieldText x) ++
      (xs.flatMap (fun y => ',' :: memberText (y.name, f.fieldText y)) ++ ['}']))) :
    readMembers n true [] g p = .error .truncated := by
  cases n with
  | zero => rfl
  | succ n =>
    rw [List.nodup_cons] at hd
    have hothers : ∀ y ∈ xs, y ∉ [x] := by
      intro y hy hmem
      obtain rfl : y = x := List.mem_singleton.mp hmem
      exact hd.1 hy
    have hbreak : ∀ p, BreaksOff p ([] ++ ['"']) → nextMember true p = .error .truncated := by
      intro p hp
      obtain rfl := breaksOff_singleton_iff.mp hp
      rfl
    rw [← List.nil_append (memberText _ ++ _)] at h
    exact readMembers_breaksOff_written (fun _ => rfl) hbreak List.not_mem_nil
      (fun p hp => readMembers_breaksOff_followers f hd.2 hothers hp) h

/-- Whatever a format holds and wherever its text breaks off, the reader finds that the text has come to an
end, and neither takes it for a format nor finds another fault. -/
theorem parse_of_breaksOff (f : Format) {text : String}
    (h : BreaksOff text.toList f.jsonText.toList) : parse text = .error .truncated := by
  obtain ⟨x, xs, hall⟩ : ∃ x xs, Field.all = x :: xs := ⟨_, _, rfl⟩
  have hd : (x :: xs).Nodup := hall ▸ (by decide : Field.all.Nodup)
  have htext : f.jsonText.toList = '{' :: (memberText (x.name, f.fieldText x) ++
      (xs.flatMap (fun y => ',' :: memberText (y.name, f.fieldText y)) ++ ['}'])) := by
    rw [jsonText, hall, List.map_cons, toList_objectText_cons, List.flatMap_map]
    simp
  rw [htext] at h
  have hread : read text.toList = .error .truncated := by
    rcases breaksOff_cons_iff.mp h with hnone | ⟨q, hq, hcut⟩
    · rw [hnone]
      rfl
    · rw [hq, read_object]
      exact readMembers_breaksOff_fields f hd hcut
  rw [parse, hread]
  rfl

/-- Where the text of a format breaks off in an escape, and in the flag. -/
theorem parse_of_breaksOff_flag :
    let f : Format := { head := "\x01", renderIfEmpty := true }
    let escape := "\x7b\"prefix\":\"\\u00"
    let others := "01\",\"suffix\":\"\",\"expressions_prefix\":\"\",\"expressions_suffix\":\"\","
      ++ "\"expressions_separator\":\"\",\"render_if_empty\":tru"
    (BreaksOff escape.toList f.jsonText.toList ∧
        BreaksOff (escape ++ others).toList f.jsonText.toList) ∧
      parse escape = .error .truncated ∧ parse (escape ++ others) = .error .truncated := by
  intro f escape others
  have hall : f.jsonText.toList = (escape ++ others).toList ++ ['e', '}'] := by decide +kernel
  have hflag : BreaksOff (escape ++ others).toList f.jsonText.toList := by
    rw [hall]
    exact breaksOff_append (List.cons_ne_nil _ _)
  have hescape : BreaksOff escape.toList f.jsonText.toList := by
    rw [hall, String.toList_append, List.append_assoc]
    exact breaksOff_append (List.append_ne_nil_of_right_ne_nil _ (List.cons_ne_nil _ _))
  exact ⟨⟨hescape, hflag⟩, parse_of_breaksOff f hescape, parse_of_breaksOff f hflag⟩

end SqlCompose.Format
