import SqlCompose.Proofs.Json.Tokens

/-!
Values of which only the form counts are passed over, whatever they hold and however deep they are.
-/
namespace SqlCompose.Json

variable {first : Bool} {b cs v rest : List Char} {n : Nat}

theorem skipWithin_blank (n : Nat) (hb : Blank b) (cs : List Char) :
    skipWithin n (b ++ cs) = skipWithin n cs := by
  cases n with
  | zero => rfl
  | succ n => rw [skipWithin, skipWithin, skipSpace_blank hb]

theorem skipWithin_number (h : IsNumeral cs) (hrest : Stops rest) (n : Nat) :
    skipWithin (n + 1) (cs ++ rest) = .ok rest := by
  obtain ⟨m, hm⟩ := numeral_append h hrest .malformed
  obtain ⟨c, cs, rfl, hspace, -⟩ := (IsValue.number h).head
  obtain ⟨d, ds, hcons, hd⟩ := h.head
  obtain ⟨rfl, rfl⟩ : c = d ∧ cs = ds := by simpa using hcons
  unfold skipWithin
  rw [List.cons_append, skipSpace_cons hspace]
  rw [List.cons_append] at hm
  -- a digit is none of the characters that values of other kinds begin with
  split <;> rename_i heq <;> cases heq
  case h_9 =>
    rw [if_pos hd, hm]
    rfl
  all_goals exact absurd hd (by decide)

/-- Within so many steps every value that takes no more than half of them in length is passed over, and
so are the rest of an array and that of an object. -/
structure Passes (n : Nat) : Prop where
  value : ∀ {v rest : List Char}, IsValue v → Stops rest → 2 * v.length ≤ n →
    skipWithin n (v ++ rest) = .ok rest
  elements : ∀ {first : Bool} {cs : List Char} (rest : List Char), IsElements first cs →
    2 * cs.length ≤ n → skipElementsWithin n first (cs ++ rest) = .ok rest
  members : ∀ {first : Bool} {cs : List Char} (rest : List Char), IsMembers first cs →
    2 * cs.length ≤ n → skipMembersWithin n first (cs ++ rest) = .ok rest

theorem Passes.zero : Passes 0 where
  value hv _ hn := by
    obtain ⟨c, cs, rfl, -⟩ := hv.head
    simp at hn
  elements rest h hn := absurd (List.eq_nil_of_length_eq_zero (by omega)) h.ne_nil
  members rest h hn := absurd (List.eq_nil_of_length_eq_zero (by omega)) h.ne_nil

theorem Passes.skipWithin_succ (hpasses : Passes n) (hv : IsValue v) (hrest : Stops rest)
    (hn : 2 * v.length ≤ n + 1) : skipWithin (n + 1) (v ++ rest) = .ok rest := by
  cases hv with
  | null => rfl
  | bool b => cases b <;> rfl
  | number h => exact skipWithin_number h hrest n
  | negative h =>
    obtain ⟨m, hm⟩ := numeral_append h hrest .malformed
    rw [List.cons_append, skipWithin, skipSpace_cons (by decide)]
    simp only [hm]
    rfl
  | string h => exact skipString_isLiteral h rest
  | array h =>
    rw [List.length_cons] at hn
    exact hpasses.elements rest h (by omega)
  | object h =>
    rw [List.length_cons] at hn
    exact hpasses.members rest h (by omega)

theorem Passes.skipElementsWithin_succ (hpasses : Passes n) (h : IsElements first cs)
    (hn : 2 * cs.length ≤ n + 1) (rest : List Char) :
    skipElementsWithin (n + 1) first (cs ++ rest) = .ok rest := by
  cases h with
  | close hb =>
    rw [List.append_assoc, skipElementsWithin, List.singleton_append, nextElement_close first hb]
    rfl
  | @element _ lead v cs hlead hv hcs =>
    obtain ⟨c, w, rfl, hspace, hclose⟩ := hv.head
    have hlength : 0 < cs.length := List.length_pos_iff.mpr hcs.ne_nil
    simp only [List.length_append, List.length_cons] at hn
    have hvalue : skipWithin n (c :: w ++ (cs ++ rest)) = .ok (cs ++ rest) :=
      hpasses.value hv (hcs.stops rest) (by rw [List.length_cons]; omega)
    have hnext : nextElement first (lead ++ (c :: w ++ (cs ++ rest))) =
        .ok (true, c :: w ++ (cs ++ rest)) := nextElement_lead hlead hspace hclose _
    rw [List.append_assoc, List.append_assoc, skipElementsWithin, hnext]
    simp only [bind, Except.bind, if_true, hvalue]
    exact hpasses.elements rest hcs (by omega)

theorem Passes.skipMembersWithin_succ (hpasses : Passes n) (h : IsMembers first cs)
    (hn : 2 * cs.length ≤ n + 1) (rest : List Char) :
    skipMembersWithin (n + 1) first (cs ++ rest) = .ok rest := by
  cases h with
  | close hb =>
    rw [List.append_assoc, skipMembersWithin, List.singleton_append, nextMember_close first hb]
    rfl
  | @member _ lead name b b' v cs hlead hname hb hb' hv hcs =>
    simp only [List.length_append, List.length_cons] at hn
    have hvalue : skipWithin n (b' ++ (v ++ (cs ++ rest))) = .ok (cs ++ rest) := by
      rw [skipWithin_blank n hb']
      exact hpasses.value hv (hcs.stops rest) (by omega)
    simp only [List.append_assoc, List.cons_append]
    rw [skipMembersWithin, nextMember_lead hlead]
    simp only [bind, Except.bind, if_true, skipString_isLiteral hname, colon_blank hb, hvalue]
    exact hpasses.members rest hcs (by omega)

/-- The induction is on the steps, which the nesting uses up. -/
theorem passes (n : Nat) : Passes n := by
  induction n with
  | zero => exact .zero
  | succ n ih =>
    exact {
      value := ih.skipWithin_succ
      elements := fun rest h hn => ih.skipElementsWithin_succ h hn rest
      members := fun rest h hn => ih.skipMembersWithin_succ h hn rest }

/-- A value of any kind and depth is passed over. -/
theorem skipValue_isValue (hb : Blank b) (hv : IsValue v) (hrest : Stops rest) :
    skipValue (b ++ (v ++ rest)) = .ok rest := by
  rw [skipValue, skipWithin_blank _ hb]
  refine (passes _).value hv hrest ?_
  simp only [List.length_append]
  omega

end SqlCompose.Json
