import SqlCompose.Like
import SqlCompose.Proofs.Text.Replacement

/-!
Escaping and its inverse, which puts back each percent sign whatever backslashes the value has.
-/
namespace SqlCompose.Like

open Text (Replaced replace_eq_iff_replaced)

variable {v front rest : List Char}

/-- Induction over a value in the steps that escaping makes, with the percent signs apart. -/
@[elab_as_elim]
theorem percent_induction {P : List Char → Prop} (nil : P [])
    (percent : ∀ v, P v → P ('%' :: v)) (other : ∀ c v, c ≠ '%' → P v → P (c :: v))
    (v : List Char) : P v := by
  induction v with
  | nil => exact nil
  | cons c v ih =>
    by_cases hc : c = '%'
    · subst hc
      exact percent v ih
    · exact other c v hc ih

theorem replaced_escape (v : List Char) : Replaced ['%'] ['\\', '%'] v (escape v) := by
  induction v using percent_induction with
  | nil => exact .nil
  | percent v ih => exact .found ih
  | other c v hc ih =>
    rw [escape_cons hc]
    refine .kept (fun hfound => hc ?_) ih
    exact (List.cons_prefix_cons.mp hfound).1.symm

/-- Escaping is the replacement of each percent sign by one with a backslash in front of it. -/
theorem escape_eq_replace (v : List Char) :
    String.ofList (escape v) = (String.ofList v).replace "%" "\\%" := by
  symm
  rw [replace_eq_iff_replaced _ (by decide)]
  simpa using replaced_escape v

/-- An escaped text never begins with a percent sign: the backslash comes first. -/
theorem head?_escape_ne (v : List Char) : (escape v).head? ≠ some '%' := by
  cases v using percent_induction with
  | nil => simp
  | percent v => simp [escape_percent_cons]
  | other c v hc => simp [escape_cons hc, hc]

theorem replaced_escape_back (v : List Char) : Replaced ['\\', '%'] ['%'] (escape v) v := by
  induction v using percent_induction with
  | nil => exact .nil
  | percent v ih => exact .found ih
  | other c v hc ih =>
    -- not even a backslash of the value is followed by a percent sign now
    rw [escape_cons hc]
    refine .kept (fun hfound => ?_) ih
    obtain ⟨tail, htail⟩ := (List.cons_prefix_cons.mp hfound).2
    have hhead : (escape v).head? = some '%' := by
      rw [← htail]
      rfl
    exact head?_escape_ne v hhead

theorem replace_escape (v : List Char) :
    (String.ofList (escape v)).replace "\\%" "%" = .ofList v := by
  rw [replace_eq_iff_replaced _ (by decide)]
  simpa using replaced_escape_back v

theorem escape_injective : Function.Injective escape := by
  intro v w h
  have hback : Replaced ['\\', '%'] ['%'] (escape v) w := h ▸ replaced_escape_back w
  exact (replaced_escape_back v).unique (List.cons_ne_nil _ _) hback

theorem backslash_suffix_of_escape_eq (h : escape v = front ++ '%' :: rest) :
    ['\\'] <:+ front := by
  induction v using percent_induction generalizing front with
  | nil => simp at h
  | percent v ih =>
    rw [escape_percent_cons] at h
    cases front with
    | nil => simp at h
    | cons a front =>
      obtain ⟨rfl, hrest⟩ := List.cons_eq_cons.mp h
      cases front with
      | nil => exact List.suffix_rfl
      | cons b front =>
        have hbehind : ['\\'] <:+ front := ih (List.cons_eq_cons.mp hrest).2
        exact hbehind.trans (List.suffix_append ['\\', b] front)
  | other c v hc ih =>
    rw [escape_cons hc] at h
    cases front with
    | nil => exact absurd (List.cons_eq_cons.mp h).1 hc
    | cons a front =>
      have hbehind : ['\\'] <:+ front := ih (List.cons_eq_cons.mp h).2
      exact hbehind.trans (List.suffix_cons a front)

theorem count_percent_escape (v : List Char) : (escape v).count '%' = v.count '%' := by
  induction v using percent_induction with
  | nil => rfl
  | percent v ih =>
    rw [escape_percent_cons, List.count_cons_of_ne (by decide), List.count_cons_self,
      List.count_cons_self, ih]
  | other c v hc ih => rw [escape_cons hc, List.count_cons_of_ne hc, List.count_cons_of_ne hc, ih]

/-- Escaping is undone by replacing each percent sign with a backslash in front of it, from the left, by
the percent sign alone, so different values are escaped differently. It works part by part. It adds no
percent sign, and each one stands directly behind a backslash. All this holds as well of values with
backslashes of their own in front of percent signs. -/
theorem escape_loses_nothing :
    (∀ v : List Char, (String.ofList (escape v)).replace "\\%" "%" = .ofList v) ∧
      Function.Injective escape ∧
      (∀ v w : List Char, escape (v ++ w) = escape v ++ escape w) ∧
      ∀ v : List Char,
        (∀ front rest, escape v = front ++ '%' :: rest → ['\\'] <:+ front) ∧
          (escape v).count '%' = v.count '%' := by
  refine ⟨replace_escape, escape_injective, escape_append, fun v => ⟨?_, ?_⟩⟩
  · intro front rest h
    exact backslash_suffix_of_escape_eq h
  · exact count_percent_escape v

/-- One backslash in front of a percent sign, and two in front of a pair of them. -/
theorem escape_loses_nothing_backslashes :
    let v := ("50\\%\\\\%%").toList
    let front := ("50\\\\%\\\\\\%\\").toList
    escape v = front ++ ['%'] ∧ ['\\'] <:+ front ∧
      (String.ofList (escape v)).replace "\\%" "%" = .ofList v ∧ (escape v).count '%' = 3 := by
  intro v front
  have hescape : escape v = front ++ ['%'] := by decide
  obtain ⟨hback, -, -, hpercent⟩ := escape_loses_nothing
  exact ⟨hescape, (hpercent v).1 front [] hescape, hback v, (hpercent v).2⟩

end SqlCompose.Like
