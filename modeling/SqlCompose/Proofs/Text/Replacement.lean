/-!
Replacing a marker wherever it occurs in a text, from the left, which is what `String.replace`
gives.
-/
namespace SqlCompose.Text

open String.Slice.Pattern String.Slice.Pattern.Model

section Replacing

variable {marker put kept cs ds ds' : List Char}

/-- What becomes of a text. An occurrence that begins inside one already replaced does not count. -/
inductive Replaced (marker put : List Char) : List Char → List Char → Prop where
  | nil : Replaced marker put [] []
  | found {cs ds : List Char} :
      Replaced marker put cs ds → Replaced marker put (marker ++ cs) (put ++ ds)
  | kept {c : Char} {cs ds : List Char} :
      ¬ marker <+: c :: cs → Replaced marker put cs ds → Replaced marker put (c :: cs) (c :: ds)

theorem Replaced.unique (hmarker : marker ≠ []) (h : Replaced marker put cs ds)
    (h' : Replaced marker put cs ds') : ds = ds' := by
  induction h generalizing ds' with
  | nil =>
    generalize hcs : [] = cs at h'
    cases h' with
    | nil => rfl
    | found => exact absurd (List.append_eq_nil_iff.mp hcs.symm).1 hmarker
    | kept => cases hcs
  | found _ ih =>
    generalize hcs : marker ++ _ = cs at h'
    cases h' with
    | nil => exact absurd (List.append_eq_nil_iff.mp hcs).1 hmarker
    | found h' =>
      obtain rfl := List.append_cancel_left hcs
      rw [ih h']
    | kept hno => exact absurd ⟨_, hcs⟩ hno
  | kept hno _ ih =>
    generalize hcs : _ :: _ = cs at h'
    cases h' with
    | nil => cases hcs
    | found => exact absurd ⟨_, hcs.symm⟩ hno
    | kept _ h' =>
      cases hcs
      rw [ih h']

/-- A part in which no occurrence begins stays as it is. -/
theorem Replaced.append_kept (h : Replaced marker put cs ds)
    (hno : ∀ us ws, kept = us ++ ws → ws ≠ [] → ¬ marker <+: ws ++ cs) :
    Replaced marker put (kept ++ cs) (kept ++ ds) := by
  induction kept with
  | nil => exact h
  | cons c ws ih =>
    have hfirst : ¬ marker <+: c :: ws ++ cs := hno [] (c :: ws) rfl (List.cons_ne_nil c ws)
    refine .kept hfirst (ih fun us vs hws => hno (c :: us) vs ?_)
    rw [hws, List.cons_append]

end Replacing

section Searching

variable {s : String.Slice} {start stop : s.Pos} {marker front skipped rest : String}

/-- The text written up to a step of the search and what this step adds. -/
def written (put done : String) : SearchStep s → String
  | .matched .. => done ++ put.toSlice
  | .rejected start stop => done ++ s.slice! start stop

theorem written_matched (put done : String) :
    written put done (.matched start stop) = done ++ put := by
  rw [written, String.appendSlice_eq, String.copy_toSlice]

theorem written_rejected (hstart : start.Splits front (skipped ++ rest))
    (hstop : stop.Splits (front ++ skipped) rest) (put done : String) :
    written put done (.rejected start stop) = done ++ skipped := by
  obtain ⟨hle, hskipped⟩ :=
    String.Slice.copy_slice_eq_iff_splits.mpr ⟨front, rest, hstart, hstop⟩
  rw [written, String.appendSlice_eq, ← String.Slice.slice_eq_slice! (h := hle), hskipped]

/-- No occurrence begins at a character that the search has rejected. -/
theorem not_isPrefix_of_not_matchesAt {u w : String}
    (hno : ∀ p, start ≤ p → p < stop → ¬ MatchesAt marker p)
    (hstart : start.Splits front (u ++ w ++ rest)) (hstop : stop.Splits (front ++ (u ++ w)) rest)
    (hw : w ≠ "") : ¬ marker.toList <+: (w ++ rest).toList := by
  rintro ⟨behind, hbehind⟩
  have hfound : w ++ rest = marker ++ String.ofList behind := by
    rw [← String.toList_inj, ← hbehind, String.toList_append, String.toList_ofList]
  have hcopy : s.copy = front ++ u ++ (w ++ rest) := by
    rw [hstart.eq_append, String.append_assoc, String.append_assoc]
  have hp := String.Slice.Pos.splits_ofEqAppend hcopy
  have hmatches : MatchesAt marker (String.Slice.Pos.ofEqAppend hcopy) :=
    ForwardStringSearcher.matchesAt_iff_splits.mpr ⟨_, _, hp.of_eq rfl hfound⟩
  refine hno _ ?_ ?_ hmatches
  · exact (hstart.le_iff_exists_eq_append hp).mpr ⟨u, rfl, String.append_assoc⟩
  · exact (hp.lt_iff_exists_eq_append hstop).mpr ⟨w, hw, String.append_assoc.symm, rfl⟩

/-- What the steps of a search write is the rest of the text with the marker replaced. -/
theorem replaced_foldl_written {steps : List (SearchStep s)}
    (h : IsValidSearchFrom marker start steps) (hstart : start.Splits front rest)
    (put done : String) :
    ∃ out : String, steps.foldl (written put) done = done ++ out ∧
      Replaced marker.toList put.toList rest.toList out.toList := by
  induction h generalizing front rest done with
  | endPos =>
    obtain ⟨-, rfl⟩ := String.Slice.splits_endPos_iff.mp hstart
    exact ⟨"", String.append_empty.symm, .nil⟩
  | matched hmatch _ ih =>
    obtain ⟨_, _, hfound, hstop⟩ := ForwardStringSearcher.isLongestMatchAt_iff_splits.mp hmatch
    obtain ⟨rfl, rfl⟩ := hstart.eq hfound
    obtain ⟨out, hout, hreplaced⟩ := ih hstop (done ++ put)
    refine ⟨put ++ out, ?_, ?_⟩
    · rw [List.foldl_cons, written_matched, hout, String.append_assoc]
    · rw [String.toList_append, String.toList_append]
      exact .found hreplaced
  | @mismatched _ start stop hlt hno _ ih =>
    have hstop := stop.splits
    obtain ⟨skipped, -, hfront, rfl⟩ := (hstart.lt_iff_exists_eq_append hstop).mp hlt
    rw [hfront] at hstop
    obtain ⟨out, hout, hreplaced⟩ := ih hstop (done ++ skipped)
    refine ⟨skipped ++ out, ?_, ?_⟩
    · rw [List.foldl_cons, written_rejected hstart hstop, hout, String.append_assoc]
    -- what is rejected stays in the text, a character at a time
    · rw [String.toList_append, String.toList_append]
      refine hreplaced.append_kept fun us ws hskipped hws => ?_
      obtain rfl : skipped = .ofList us ++ .ofList ws := by
        rw [← String.toList_inj, hskipped, ← String.ofList_append, String.toList_ofList]
      have hw : String.ofList ws ≠ "" := by simpa using hws
      have hrejected := not_isPrefix_of_not_matchesAt hno hstart hstop hw
      rwa [String.toList_append, String.toList_ofList] at hrejected

end Searching

/-- The text that a replacement gives is the one in which just the marker is replaced. -/
theorem replace_eq_iff_replaced {s t marker : String} (put : String) (hmarker : marker ≠ "") :
    s.replace marker put = t ↔ Replaced marker.toList put.toList s.toList t.toList := by
  have hlawful := ForwardStringSearcher.lawfulToForwardSearcherModel hmarker
  have hsteps := hlawful.isValidSearchFrom_toList s.toSlice
  obtain ⟨out, hout, hreplaced⟩ :=
    replaced_foldl_written hsteps (String.Slice.splits_startPos s.toSlice) put ""
  have hreplace : s.replace marker put = out := by
    rw [String.empty_append] at hout
    rw [String.replace, String.Slice.replace, ← Std.Iter.foldl_toList, ← hout]
    congr 1
    funext done step
    cases step <;> rfl
  rw [String.copy_toSlice] at hreplaced
  rw [hreplace]
  constructor
  · rintro rfl
    exact hreplaced
  · intro h
    exact String.toList_inj.mp (hreplaced.unique (mt String.toList_eq_nil_iff.mp hmarker) h)

end SqlCompose.Text
