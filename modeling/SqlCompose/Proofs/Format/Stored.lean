import SqlCompose.Clause.Op
import SqlCompose.Format.Stored
import SqlCompose.Proofs.Json.Writing

/-! Stored formats read back. -/
namespace SqlCompose.Format

open Json

variable {f g : Format} {x : Field} {s : Setting} {first : Bool} {seen : List Field}
  {xs : List Field} {n : Nat} {lead cs rest : List Char}

/-- What a format has in a field. -/
def setting (f : Format) : Field → Setting
  | .text t => .text t (f.text t)
  | .renderIfEmpty => .renderIfEmpty f.renderIfEmpty

/-- A format is made of its fields. -/
theorem foldl_setting (f : Format) :
    Field.all.foldl (fun g x => g.set (f.setting x)) {} = f := rfl

theorem read_fieldText (f : Format) (x : Field) (rest : List Char) :
    x.read ((f.fieldText x).toList ++ rest) = .ok (f.setting x, rest) := by
  cases x with
  | text t =>
    rw [Field.read, fieldText, readString_quote]
    rfl
  | renderIfEmpty =>
    rw [Field.read, fieldText, readBool_boolText]
    rfl

/-- The end of an object ends the reading of its members. -/
theorem readMembers_end (n : Nat) (first : Bool) (seen : List Field) (g : Format)
    (rest : List Char) : readMembers (n + 1) first seen g ('}' :: rest) = .ok (g, rest) := rfl

/-- A member of a field that was not read before sets that field. -/
theorem readMembers_member {afterLead afterName afterColon : List Char}
    (hlead : nextMember first cs = .ok (true, afterLead))
    (hname : string afterLead = .ok (x.name, afterName))
    (hcolon : colon afterName = .ok afterColon) (hvalue : x.read afterColon = .ok (s, rest))
    (hnew : x ∉ seen) :
    readMembers (n + 1) first seen g cs = readMembers n false (x :: seen) (g.set s) rest := by
  rw [readMembers]
  simp only [hlead, hname, Field.ofName?_name, if_neg hnew, hcolon, hvalue, bind, Except.bind,
    Bool.not_true, Bool.false_eq_true, if_false]

/-- A member as it is written, with what leads up to its name in front. -/
theorem readMembers_written (hlead : ∀ cs, nextMember first (lead ++ '"' :: cs) = .ok (true, cs))
    (f : Format) (hnew : x ∉ seen) :
    readMembers (n + 1) first seen g (lead ++ (memberText (x.name, f.fieldText x) ++ rest)) =
      readMembers n false (x :: seen) (g.set (f.setting x)) rest := by
  rw [memberText_append]
  exact readMembers_member (hlead _) (string_escapeText x.name _) rfl (read_fieldText f x rest) hnew

/-- Members behind others set their fields one after the other, each field once. -/
theorem readMembers_followers (f : Format) (hn : xs.length < n) (hd : xs.Nodup)
    (hnew : ∀ x ∈ xs, x ∉ seen) :
    readMembers n false seen g
        (xs.flatMap (fun x => ',' :: memberText (x.name, f.fieldText x)) ++ '}' :: rest) =
      .ok (xs.foldl (fun g x => g.set (f.setting x)) g, rest) := by
  induction xs generalizing n seen g with
  | nil =>
    obtain ⟨m, rfl⟩ : ∃ m, n = m + 1 := ⟨n - 1, by omega⟩
    exact readMembers_end m false seen g rest
  | cons x xs ih =>
    obtain ⟨m, rfl⟩ : ∃ m, n = m + 1 := ⟨n - 1, by omega⟩
    rw [List.forall_mem_cons] at hnew
    rw [List.nodup_cons] at hd
    rw [List.length_cons] at hn
    have hrest : ∀ y ∈ xs, y ∉ x :: seen := by
      intro y hy hmem
      rcases List.mem_cons.mp hmem with rfl | hseen
      · exact hd.1 hy
      · exact hnew.2 y hy hseen
    have hcomma : ∀ cs, nextMember false ([','] ++ '"' :: cs) = .ok (true, cs) := fun _ => rfl
    rw [List.flatMap_cons, List.append_assoc, List.cons_append, ← List.singleton_append,
      readMembers_written hcomma f hnew.1, ih (by omega) hd.2 hrest]
    rfl

/-- The members of an object set their fields one after the other, each field once. -/
theorem readMembers_fields (f : Format) (hn : xs.length + 1 < n) (hd : (x :: xs).Nodup) :
    readMembers n true [] g
        (memberText (x.name, f.fieldText x) ++
          (xs.flatMap (fun y => ',' :: memberText (y.name, f.fieldText y)) ++ '}' :: rest)) =
      .ok ((x :: xs).foldl (fun g y => g.set (f.setting y)) g, rest) := by
  obtain ⟨m, rfl⟩ : ∃ m, n = m + 1 := ⟨n - 1, by omega⟩
  rw [List.nodup_cons] at hd
  have hfirst : ∀ cs, nextMember true ([] ++ '"' :: cs) = .ok (true, cs) := fun _ => rfl
  have hnew : ∀ y ∈ xs, y ∉ [x] := by
    intro y hy hmem
    obtain rfl : y = x := List.mem_singleton.mp hmem
    exact hd.1 hy
  rw [← List.nil_append (memberText _ ++ _), readMembers_written hfirst f List.not_mem_nil,
    readMembers_followers f (by omega) hd.2 hnew]
  rfl

/-- Every follower takes at least the character of its comma. -/
theorem length_le_followers (f : Format) (xs : List Field) :
    xs.length ≤ (xs.flatMap fun x => ',' :: memberText (x.name, f.fieldText x)).length := by
  induction xs with
  | nil => exact Nat.le_refl 0
  | cons x xs ih =>
    rw [List.flatMap_cons, List.length_append, List.length_cons, List.length_cons]
    omega

theorem read_object (cs : List Char) :
    Format.read ('{' :: cs) = readMembers (cs.length + 1) true [] {} cs := rfl

/-- Of a text that begins with a stored format exactly that format is read. -/
theorem read_jsonText (f : Format) (rest : List Char) :
    Format.read (f.jsonText.toList ++ rest) = .ok (f, rest) := by
  obtain ⟨x, xs, hall⟩ : ∃ x xs, Field.all = x :: xs := ⟨_, _, rfl⟩
  have hd : Field.all.Nodup := by decide
  have htext : f.jsonText.toList ++ rest =
      '{' :: (memberText (x.name, f.fieldText x) ++
        (xs.flatMap (fun y => ',' :: memberText (y.name, f.fieldText y)) ++ '}' :: rest)) := by
    rw [jsonText, hall, List.map_cons, toList_objectText_cons, List.flatMap_map]
    simp
  rw [hall] at hd
  rw [htext, read_object, readMembers_fields f _ hd, ← hall, foldl_setting]
  -- the text has room for a step for each member and one for the end of the object
  have hfollowers := length_le_followers f xs
  simp only [List.length_append, List.length_cons]
  omega

/-- A format is the same after it has been stored, whatever its texts hold, and a clause that takes
on the format that is read has the text that it has with the stored one. -/
theorem parse_jsonText (f : Format) :
    Format.parse f.jsonText = .ok f ∧
      ∀ c : Clause, (Format.parse f.jsonText).map (fun g => (c.apply (.reformat g)).state.sql) =
        .ok (c.apply (.reformat f)).state.sql := by
  have hparse : Format.parse f.jsonText = .ok f := by
    have hread := read_jsonText f []
    rw [List.append_nil] at hread
    rw [parse, hread]
    rfl
  refine ⟨hparse, fun c => ?_⟩
  rw [hparse]
  rfl

end SqlCompose.Format
