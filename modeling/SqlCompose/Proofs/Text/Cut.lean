import Mathlib.Data.List.DropRight
import SqlCompose.Text.Cut

/-! Where a text is trimmed and where it is cut is determined by what stands around the place. -/
namespace SqlCompose.Text

section Trimming

variable {body cs : List Char}

/-- A text without the blanks at its end. -/
structure Trimmed (body cs : List Char) : Prop where
  blanks : ∃ bs, cs = body ++ bs ∧ ∀ c ∈ bs, isBlank c = true
  last : ∀ hne : body ≠ [], isBlank (body.getLast hne) = false

theorem trimEnd_eq_rdropWhile (cs : List Char) : trimEnd cs = cs.rdropWhile isBlank := rfl

theorem trimmed_trimEnd (cs : List Char) : Trimmed (trimEnd cs) cs where
  blanks := by
    refine ⟨cs.rtakeWhile isBlank, ?_, fun _ hc => List.mem_rtakeWhile_imp hc⟩
    rw [trimEnd_eq_rdropWhile, List.rdropWhile_append_rtakeWhile]
  last hne := Bool.eq_false_iff.mpr (List.rdropWhile_last_not isBlank cs hne)

/-- Nothing else is left of a text without the blanks at its end. -/
theorem Trimmed.eq (h : Trimmed body cs) : trimEnd cs = body := by
  obtain ⟨⟨blanks, rfl, hblanks⟩, hlast⟩ := h
  rw [trimEnd_eq_rdropWhile]
  -- from the right, where the blanks are dropped
  induction blanks using List.reverseRecOn with
  | nil =>
    rw [List.append_nil, List.rdropWhile_eq_self_iff]
    intro hne
    simp [hlast hne]
  | append_singleton bs c ih =>
    rw [List.forall_mem_append] at hblanks
    have hc : isBlank c = true := hblanks.2 c (List.mem_singleton_self c)
    rw [← List.append_assoc, List.rdropWhile_concat_pos isBlank _ c hc, ih hblanks.1]

end Trimming

section Cutting

variable {marker front front' cs rest ms ks : List Char} {m : Char}

/-- What stands in front of the first occurrence of a marker, or the whole text if the marker does not
occur. -/
structure Front (marker front cs : List Char) : Prop where
  goesOn : front = cs ∨ front ++ marker <+: cs
  first : ∀ before, before ++ marker <+: cs → front.length ≤ before.length

theorem Front.isPrefix (h : Front marker front cs) : front <+: cs := by
  rcases h.goesOn with rfl | hfound
  · exact List.prefix_rfl
  · exact (List.prefix_append front marker).trans hfound

/-- A character that the marker does not begin with cannot be cut off in front of a cut. -/
theorem Front.cons {c : Char} (h : Front marker front cs) (hc : ¬ marker <+: c :: cs) :
    Front marker (c :: front) (c :: cs) where
  goesOn := by
    rcases h.goesOn with rfl | hfound
    · exact .inl rfl
    · exact .inr (List.cons_prefix_cons.mpr ⟨rfl, hfound⟩)
  first before hbefore := by
    cases before with
    | nil => exact absurd hbefore hc
    | cons b bs => exact Nat.succ_le_succ (h.first bs (List.cons_prefix_cons.mp hbefore).2)

theorem front_cutBefore (marker cs : List Char) :
    Front marker (cutBefore marker cs) cs := by
  induction cs with
  | nil => exact ⟨.inl rfl, fun before _ => Nat.zero_le _⟩
  | cons c cs ih =>
    rw [cutBefore]
    split
    · rename_i hfound
      exact ⟨.inr (List.isPrefixOf_iff_prefix.mp hfound), fun before _ => Nat.zero_le _⟩
    · rename_i hfound
      exact ih.cons (mt List.isPrefixOf_iff_prefix.mpr hfound)

theorem Front.length_le (h : Front marker front cs) (h' : Front marker front' cs) :
    front.length ≤ front'.length := by
  rcases h'.goesOn with rfl | hfound
  · exact h.isPrefix.length_le
  · exact h.first front' hfound

/-- A text is cut in one place only. -/
theorem Front.eq (h : Front marker front cs) (h' : Front marker front' cs) : front = front' :=
  (List.prefix_of_prefix_length_le h.isPrefix h'.isPrefix (h.length_le h')).eq_of_length_le
    (h'.length_le h)

/-- A list does not reach as far as an element that it does not contain. -/
theorem prefix_of_prefix_append_cons (hm : m ∉ ms) (h : ms <+: ks ++ m :: rest) : ms <+: ks := by
  by_cases hle : ms.length ≤ ks.length
  · exact List.prefix_of_prefix_length_le h (List.prefix_append ks _) hle
  · have hseam : ks ++ [m] <+: ks ++ m :: rest := by simp
    have hlong : ks ++ [m] <+: ms := by
      apply List.prefix_of_prefix_length_le hseam h
      rw [List.length_append, List.length_singleton]
      omega
    exact absurd (hlong.subset (by simp)) hm

/-- The marker may be written where a text is cut, with anything behind it, and the new text is cut in
the same place. -/
theorem Front.append_marker (hm : m ∉ ms) (h : Front (m :: ms) front cs) (rest : List Char) :
    Front (m :: ms) front (front ++ m :: ms ++ rest) where
  goesOn := .inr (List.prefix_append _ rest)
  first before hbefore := by
    by_contra hlt
    rw [Nat.not_le] at hlt
    rw [List.append_assoc] at hbefore
    have hpre : before <+: front :=
      List.prefix_of_prefix_length_le ((List.prefix_append before _).trans hbefore)
        (List.prefix_append front _) (Nat.le_of_lt hlt)
    obtain ⟨_ | ⟨k, ks⟩, rfl⟩ := hpre
    · simp at hlt
    -- an occurrence that begins in front of the seam does not reach it
    · rw [List.append_assoc, List.prefix_append_right_inj, List.cons_append,
        List.cons_prefix_cons] at hbefore
      obtain ⟨rfl, hms⟩ := hbefore
      have hinside : before ++ m :: ms <+: before ++ m :: ks := by
        rw [List.prefix_append_right_inj, List.cons_prefix_cons]
        exact ⟨rfl, prefix_of_prefix_append_cons hm hms⟩
      have hfirst := h.first before (hinside.trans h.isPrefix)
      omega

end Cutting

end SqlCompose.Text
