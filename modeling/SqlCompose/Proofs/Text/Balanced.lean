import Mathlib.Data.List.Infix
import Mathlib.Data.String.Basic

/-! Parentheses in balance, told by what a text does to the number of open ones. -/
namespace SqlCompose.Text

variable {a b c : Nat} {s t u : String} {cs ds : List Char}

/-- No beginning closes more parentheses than it opens, and the whole closes as many as it opens. -/
def Balanced (cs : List Char) : Prop :=
  (∀ ds, ds <+: cs → ds.count ')' ≤ ds.count '(') ∧ cs.count ')' = cs.count '('

/-- How many parentheses are open behind a text in front of which a number of them are, if none is
closed that is not open. -/
def depth? : Nat → List Char → Option Nat
  | n, [] => some n
  | n, '(' :: cs => depth? (n + 1) cs
  | 0, ')' :: _ => none
  | n + 1, ')' :: cs => depth? n cs
  | n, _ :: cs => depth? n cs

theorem depth?_cons_of_ne {d : Char} (hopen : d ≠ '(') (hclose : d ≠ ')') (n : Nat)
    (cs : List Char) : depth? n (d :: cs) = depth? n cs := by
  rw [depth?] <;> simp_all

theorem depth?_append (n : Nat) (cs ds : List Char) :
    depth? n (cs ++ ds) = (depth? n cs).bind fun m => depth? m ds := by
  induction cs generalizing n with
  | nil => rfl
  | cons d cs ih =>
    by_cases hopen : d = '('
    · subst hopen
      exact ih (n + 1)
    · by_cases hclose : d = ')'
      · subst hclose
        cases n with
        | zero => rfl
        | succ n => exact ih n
      · rw [List.cons_append, depth?_cons_of_ne hopen hclose, depth?_cons_of_ne hopen hclose, ih]

/-- More open parentheses in front stay open behind. -/
theorem depth?_add (h : depth? a cs = some b) (k : Nat) : depth? (a + k) cs = some (b + k) := by
  induction cs generalizing a with
  | nil => exact congrArg (Option.map (· + k)) h
  | cons d cs ih =>
    by_cases hopen : d = '('
    · subst hopen
      have := ih (a := a + 1) h
      rwa [Nat.add_right_comm] at this
    · by_cases hclose : d = ')'
      · subst hclose
        cases a with
        | zero => cases h
        | succ a =>
          rw [Nat.add_right_comm]
          exact ih (a := a) h
      · rw [depth?_cons_of_ne hopen hclose] at h ⊢
        exact ih h

theorem depth?_of_forall_ne (h : ∀ d ∈ cs, d ≠ '(' ∧ d ≠ ')') (n : Nat) : depth? n cs = some n := by
  induction cs with
  | nil => rfl
  | cons d cs ih =>
    rw [List.forall_mem_cons] at h
    rw [depth?_cons_of_ne h.1.1 h.1.2]
    exact ih h.2

/-- Beginnings may be taken behind the first character, as far as the empty one is known. -/
theorem forall_prefix_cons {p : List Char → Prop} (hnil : p []) (d : Char) :
    (∀ ds, ds <+: d :: cs → p ds) ↔ ∀ ds, ds <+: cs → p (d :: ds) := by
  constructor
  · intro h ds hds
    exact h (d :: ds) (List.prefix_cons_iff.mpr (.inr ⟨ds, rfl, hds⟩))
  · intro h ds hds
    rcases List.prefix_cons_iff.mp hds with rfl | ⟨es, rfl, hes⟩
    · exact hnil
    · exact h es hes

/-- The number of open parentheses never falls below zero, and changes by what is opened and closed. -/
theorem depth?_eq_some_iff :
    depth? a cs = some b ↔
      (∀ ds, ds <+: cs → ds.count ')' ≤ a + ds.count '(') ∧
        a + cs.count '(' = b + cs.count ')' := by
  induction cs generalizing a with
  | nil => simp [depth?]
  | cons d cs ih =>
    rw [forall_prefix_cons (p := fun ds => ds.count ')' ≤ a + ds.count '(') (Nat.zero_le _)]
    by_cases hopen : d = '('
    · subst hopen
      have hcount : ∀ ds : List Char, ('(' :: ds).count '(' = ds.count '(' + 1 ∧
          ('(' :: ds).count ')' = ds.count ')' :=
        fun ds => ⟨List.count_cons_self, List.count_cons_of_ne (by decide)⟩
      rw [depth?, ih]
      simp only [hcount, Nat.add_assoc, Nat.add_comm 1]
    · by_cases hclose : d = ')'
      · subst hclose
        have hcount : ∀ ds : List Char, (')' :: ds).count '(' = ds.count '(' ∧
            (')' :: ds).count ')' = ds.count ')' + 1 :=
          fun ds => ⟨List.count_cons_of_ne (by decide), List.count_cons_self⟩
        simp only [hcount]
        cases a with
        | zero =>
          -- nothing is open, so the beginning of one character closes too much
          constructor
          · intro h
            cases h
          · intro h
            have := h.1 [] List.nil_prefix
            simp at this
        | succ a =>
          have hshift : ∀ x y : Nat, x + 1 ≤ a + 1 + y ↔ x ≤ a + y := by omega
          have htotal : a + 1 + cs.count '(' = b + (cs.count ')' + 1) ↔
              a + cs.count '(' = b + cs.count ')' := by omega
          rw [depth?, ih, htotal]
          simp only [hshift]
      · have hcount : ∀ ds : List Char, (d :: ds).count '(' = ds.count '(' ∧
            (d :: ds).count ')' = ds.count ')' :=
          fun ds => ⟨List.count_cons_of_ne hopen, List.count_cons_of_ne hclose⟩
        rw [depth?_cons_of_ne hopen hclose, ih]
        simp only [hcount]

theorem balanced_iff_depth? : Balanced cs ↔ depth? 0 cs = some 0 := by
  rw [depth?_eq_some_iff, Balanced]
  simp only [Nat.zero_add, eq_comm]

instance (cs : List Char) : Decidable (Balanced cs) := decidable_of_iff _ balanced_iff_depth?.symm

/-- Behind the text the second number of parentheses is open if in front of it the first one is. -/
def Leads (a b : Nat) (s : String) : Prop := depth? a s.toList = some b

instance (a b : Nat) (s : String) : Decidable (Leads a b s) :=
  inferInstanceAs (Decidable (depth? a s.toList = some b))

theorem leads_empty (a : Nat) : Leads a a "" := rfl

theorem Leads.append (hs : Leads a b s) (ht : Leads b c t) : Leads a c (s ++ t) := by
  rw [Leads, String.toList_append, depth?_append, hs]
  exact ht

/-- What is balanced may stand anywhere. -/
theorem Leads.of_balanced (h : Balanced s.toList) (a : Nat) : Leads a a s := by
  have := depth?_add (balanced_iff_depth?.mp h) a
  rwa [Nat.zero_add] at this

theorem Leads.balanced (h : Leads 0 0 s) : Balanced s.toList := balanced_iff_depth?.mpr h

theorem balanced_append (hs : Balanced s.toList) (ht : Balanced t.toList) :
    Balanced (s ++ t).toList :=
  ((Leads.of_balanced hs 0).append (.of_balanced ht 0)).balanced

theorem Leads.around (hs : Balanced s.toList) (ht : Balanced t.toList) (hu : Leads 0 c u) :
    Leads 0 c (s ++ t ++ u) :=
  ((Leads.of_balanced hs 0).append (.of_balanced ht 0)).append hu

/-- A number has no parentheses. -/
theorem balanced_toString (n : Nat) : Balanced (toString n).toList := by
  refine balanced_iff_depth?.mpr (depth?_of_forall_ne (fun d hd => ?_) 0)
  have hdigit : d.isDigit = true := by
    rw [Nat.toString_eq_repr, Nat.toList_repr] at hd
    exact Nat.isDigit_of_mem_toDigits (by decide) (by decide) hd
  constructor
  · rintro rfl
    exact absurd hdigit (by decide)
  · rintro rfl
    exact absurd hdigit (by decide)

theorem balanced_intercalate {ss : List String} (hsep : Balanced s.toList)
    (hss : ∀ t ∈ ss, Balanced t.toList) : Balanced (s.intercalate ss).toList := by
  induction ss with
  | nil => exact (leads_empty 0).balanced
  | cons t ts ih =>
    rw [List.forall_mem_cons] at hss
    cases ts with
    | nil => rw [String.intercalate_singleton]; exact hss.1
    | cons t' ts' =>
      rw [String.intercalate_cons_cons]
      exact balanced_append (balanced_append hss.1 hsep) (ih hss.2)

end SqlCompose.Text
