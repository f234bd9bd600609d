import Mathlib.Data.List.Forall2
import SqlCompose.Like

/-!
What patterns stand for, read from the front: that of a value without a backslash stands for the
value alone, but for the underscores in it.
-/
namespace SqlCompose.Like

variable {c : Char} {p s v : List Char}

theorem matches_nil : Matches [] s ↔ s = [] := by
  constructor
  · intro h
    cases h
    rfl
  · rintro rfl
    exact .nil

theorem matches_escaped : Matches ('\\' :: c :: p) s ↔ ∃ u, s = c :: u ∧ Matches p u := by
  constructor
  · intro h
    cases h with
    | escaped h => exact ⟨_, rfl, h⟩
    | literal h => exact absurd rfl h
  · rintro ⟨u, rfl, h⟩
    exact .escaped h

theorem matches_anyText : Matches ('%' :: p) s ↔ ∃ t u, s = t ++ u ∧ Matches p u := by
  constructor
  · intro h
    cases h with
    | anyText t h => exact ⟨t, _, rfl, h⟩
    | literal _ h => exact absurd rfl h
  · rintro ⟨t, u, rfl, h⟩
    exact .anyText t h

theorem matches_anyOne : Matches ('_' :: p) s ↔ ∃ d u, s = d :: u ∧ Matches p u := by
  constructor
  · intro h
    cases h with
    | anyOne h => exact ⟨_, _, rfl, h⟩
    | literal _ _ h => exact absurd rfl h
  · rintro ⟨d, u, rfl, h⟩
    exact .anyOne h

theorem matches_literal (hescape : c ≠ '\\') (hmany : c ≠ '%') (hone : c ≠ '_') :
    Matches (c :: p) s ↔ ∃ u, s = c :: u ∧ Matches p u := by
  constructor
  · intro h
    cases h with
    | literal _ _ _ h => exact ⟨_, rfl, h⟩
    | escaped h => exact absurd rfl hescape
    | lone => exact absurd rfl hescape
    | anyText t h => exact absurd rfl hmany
    | anyOne h => exact absurd rfl hone
  · rintro ⟨u, rfl, h⟩
    exact .literal hescape hmany hone h

/-- Whether a text is the value, with any one character in the place of each underscore. -/
def Resembles (v s : List Char) : Prop := List.Forall₂ (fun c d => c = '_' ∨ c = d) v s

theorem resembles_iff_eq (h : '_' ∉ v) : Resembles v s ↔ s = v := by
  induction v generalizing s with
  | nil => simp [Resembles]
  | cons c v ih =>
    rw [List.mem_cons, not_or] at h
    rw [Resembles, List.forall₂_cons_left_iff]
    constructor
    · rintro ⟨d, u, hd | rfl, hu, rfl⟩
      · exact absurd hd.symm h.1
      · rw [(ih h.2).mp hu]
    · rintro rfl
      exact ⟨c, v, .inr rfl, (ih h.2).mpr rfl, rfl⟩

/-- The pattern of a character stands for that character, or for any one if it is an underscore. -/
theorem matches_escape_singleton_append (hc : c ≠ '\\') :
    Matches (escape [c] ++ p) s ↔ ∃ d u, (c = '_' ∨ c = d) ∧ Matches p u ∧ s = d :: u := by
  by_cases hpercent : c = '%'
  · subst hpercent
    have hpattern : escape ['%'] ++ p = '\\' :: '%' :: p := rfl
    rw [hpattern, matches_escaped]
    constructor
    · rintro ⟨u, rfl, hu⟩
      exact ⟨'%', u, .inr rfl, hu, rfl⟩
    · rintro ⟨d, u, hd | rfl, hu, rfl⟩
      · exact absurd hd (by decide)
      · exact ⟨u, rfl, hu⟩
  · have hpattern : escape [c] ++ p = c :: p := by simp [escape, hpercent]
    rw [hpattern]
    by_cases hone : c = '_'
    · subst hone
      rw [matches_anyOne]
      constructor
      · rintro ⟨d, u, rfl, hu⟩
        exact ⟨d, u, .inl rfl, hu, rfl⟩
      · rintro ⟨d, u, -, hu, rfl⟩
        exact ⟨d, u, rfl, hu⟩
    · rw [matches_literal hc hpercent hone]
      constructor
      · rintro ⟨u, rfl, hu⟩
        exact ⟨c, u, .inr rfl, hu, rfl⟩
      · rintro ⟨d, u, hd | rfl, hu, rfl⟩
        · exact absurd hd hone
        · exact ⟨u, rfl, hu⟩

/-- In front of another pattern, that of a value takes a text that resembles the value. -/
theorem matches_escape_append (hv : '\\' ∉ v) :
    Matches (escape v ++ p) s ↔ ∃ t u, s = t ++ u ∧ Resembles v t ∧ Matches p u := by
  induction v generalizing s with
  | nil => simp [Resembles]
  | cons c v ih =>
    rw [List.mem_cons, not_or] at hv
    have hsplit : escape (c :: v) ++ p = escape [c] ++ (escape v ++ p) := by
      rw [← List.append_assoc, ← escape_append, List.singleton_append]
    rw [hsplit, matches_escape_singleton_append (Ne.symm hv.1)]
    constructor
    · rintro ⟨d, w, hd, hw, rfl⟩
      obtain ⟨t, u, rfl, ht, hu⟩ := (ih hv.2).mp hw
      exact ⟨d :: t, u, rfl, .cons hd ht, hu⟩
    · rintro ⟨t, u, rfl, ht, hu⟩
      obtain ⟨d, w, hd, hw, rfl⟩ := List.forall₂_cons_left_iff.mp ht
      exact ⟨d, w ++ u, hd, (ih hv.2).mpr ⟨w, u, rfl, hw, hu⟩, rfl⟩

theorem matches_escape (hv : '\\' ∉ v) : Matches (escape v) s ↔ Resembles v s := by
  rw [← List.append_nil (escape v), matches_escape_append hv]
  simp [matches_nil]

theorem matches_anyText_nil (s : List Char) : Matches ['%'] s :=
  matches_anyText.mpr ⟨s, [], (List.append_nil s).symm, .nil⟩

/-- The pattern for a value at the start stands for the texts that begin with something that
resembles the value. -/
theorem matches_pattern_atStart (hv : '\\' ∉ v) :
    Matches (Anchor.atStart.pattern v) s ↔ ∃ t, t <+: s ∧ Resembles v t := by
  rw [Anchor.pattern, matches_escape_append hv]
  constructor
  · rintro ⟨t, u, rfl, ht, -⟩
    exact ⟨t, List.prefix_append t u, ht⟩
  · rintro ⟨t, ⟨u, rfl⟩, ht⟩
    exact ⟨t, u, rfl, ht, matches_anyText_nil u⟩

/-- Whether a text has another one at the place where it is sought. -/
def Anchor.Finds (a : Anchor) (t s : List Char) : Prop :=
  match a with
  | .atStart => t <+: s
  | .atEnd => t <:+ s
  | .anywhere => t <:+: s

/-- The pattern for a value at a place stands for the texts that have something there that resembles
the value. -/
theorem matches_pattern {a : Anchor} (hv : '\\' ∉ v) :
    Matches (a.pattern v) s ↔ ∃ t, a.Finds t s ∧ Resembles v t := by
  cases a with
  | atStart => exact matches_pattern_atStart hv
  | atEnd =>
    rw [Anchor.pattern, matches_anyText]
    constructor
    · rintro ⟨u, t, rfl, ht⟩
      exact ⟨t, List.suffix_append u t, (matches_escape hv).mp ht⟩
    · rintro ⟨t, ⟨u, rfl⟩, ht⟩
      exact ⟨u, t, rfl, (matches_escape hv).mpr ht⟩
  | anywhere =>
    -- behind the text that the first `%` stands for, the value is sought at the start
    have hpattern : Anchor.anywhere.pattern v = '%' :: Anchor.atStart.pattern v := rfl
    rw [hpattern, matches_anyText]
    constructor
    · rintro ⟨u, w, rfl, hw⟩
      obtain ⟨t, ⟨rest, rfl⟩, ht⟩ := (matches_pattern_atStart hv).mp hw
      exact ⟨t, ⟨u, rest, List.append_assoc u t rest⟩, ht⟩
    · rintro ⟨t, ⟨u, rest, rfl⟩, ht⟩
      refine ⟨u, t ++ rest, List.append_assoc u t rest, ?_⟩
      exact (matches_pattern_atStart hv).mpr ⟨t, List.prefix_append t rest, ht⟩

/-- Without an underscore either, these are the texts that have the value itself at the place, however
many percent signs there are in it. -/
theorem matches_pattern_iff_finds {a : Anchor} (hv : '\\' ∉ v) (hone : '_' ∉ v) :
    Matches (a.pattern v) s ↔ a.Finds v s := by
  rw [matches_pattern hv]
  simp [resembles_iff_eq hone]

end SqlCompose.Like
