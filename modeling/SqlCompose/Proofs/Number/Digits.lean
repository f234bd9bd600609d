import SqlCompose.Number.Decimal
import SqlCompose.Proofs.Json.Grammar

/-! Numbers are known from their digits, which end where something else begins. -/
namespace SqlCompose

open Json (Digits NoDigit noDigit_nil noDigit_cons)

variable {p : Char → Bool} {as bs cs ds es r r' s t : List Char} {m n v w : Nat}

theorem takeWhile_run (has : ∀ c ∈ as, p c = true) (hr : ∀ c ∈ r.head?, p c = false) :
    (as ++ r).takeWhile p = as := by
  rw [List.takeWhile_append_of_pos has]
  cases r with
  | nil => simp
  | cons c r => simp [hr c rfl]

/-- Two texts that are equal agree in the run of one kind of characters that they begin with. -/
theorem run_inj (has : ∀ c ∈ as, p c = true) (hbs : ∀ c ∈ bs, p c = true)
    (hr : ∀ c ∈ r.head?, p c = false) (hr' : ∀ c ∈ r'.head?, p c = false)
    (h : as ++ r = bs ++ r') : as = bs ∧ r = r' := by
  have hrun := congrArg (List.takeWhile p) h
  rw [takeWhile_run has hr, takeWhile_run hbs hr'] at hrun
  subst hrun
  exact ⟨rfl, List.append_cancel_left h⟩

theorem isDigit_head_append (hds : Digits ds) (r : List Char) :
    ∀ c ∈ (ds ++ r).head?, c.isDigit = true := by
  obtain ⟨d, ds, rfl⟩ := List.exists_cons_of_ne_nil hds.1
  intro c hc
  obtain rfl : d = c := Option.some.inj hc
  exact hds.2 d List.mem_cons_self

theorem digits_inj (hds : Digits ds) (hes : Digits es) (hr : NoDigit r) (hr' : NoDigit r')
    (h : ds ++ r = es ++ r') : ds = es ∧ r = r' :=
  run_inj hds.2 hes.2 hr hr' h

/-- A sign is told from the digits behind it, and they from what follows them. -/
theorem signed_inj (hs : ∀ c ∈ s, c.isDigit = false) (ht : ∀ c ∈ t, c.isDigit = false)
    (hds : Digits ds) (hes : Digits es) (hr : NoDigit r) (hr' : NoDigit r')
    (h : s ++ (ds ++ r) = t ++ (es ++ r')) : s = t ∧ ds = es ∧ r = r' := by
  obtain ⟨hsign, hrest⟩ := run_inj (p := fun c => !c.isDigit) (by simpa using hs) (by simpa using ht)
    (fun c hc => by simp [isDigit_head_append hds r c hc])
    (fun c hc => by simp [isDigit_head_append hes r' c hc]) h
  exact ⟨hsign, digits_inj hds hes hr hr' hrest⟩

theorem digits_toDigits (n : Nat) : Digits (Nat.toDigits 10 n) :=
  ⟨Nat.toDigits_ne_nil, fun _ hd => Nat.isDigit_of_mem_toDigits (by decide) (by decide) hd⟩

theorem toDigits_inj (h : Nat.toDigits 10 m = Nat.toDigits 10 n) : m = n := by
  rw [← Nat.ofDigitChars_ten_toDigits (n := m), h, Nat.ofDigitChars_ten_toDigits]

theorem digits_padded (w n : Nat) : Digits (padded w n) := by
  constructor
  · simp [padded, Nat.toDigits_ne_nil]
  · intro d hd
    rcases List.mem_append.mp hd with hzero | hdigit
    · rw [List.eq_of_mem_replicate hzero]
      rfl
    · exact (digits_toDigits n).2 d hdigit

theorem ofDigitChars_padded (w n : Nat) : Nat.ofDigitChars 10 (padded w n) 0 = n := by
  rw [padded, Nat.ofDigitChars_append, Nat.ofDigitChars_replicate_zero, Nat.mul_zero,
    Nat.ofDigitChars_ten_toDigits]

/-- Zeros in front do not change a number. -/
theorem padded_inj (h : padded v m = padded w n) : m = n := by
  rw [← ofDigitChars_padded v m, h, ofDigitChars_padded]

theorem le_length_padded (w n : Nat) : w ≤ (padded w n).length := by
  simp only [padded, List.length_append, List.length_replicate]
  omega

theorem length_padded (hw : 0 < w) (h : n < Nat.pow 10 w) : (padded w n).length = w := by
  have hlength := (Nat.length_toDigits_le_iff (by decide) hw).mpr h
  simp only [padded, List.length_append, List.length_replicate]
  omega

namespace Hex

theorem ofDigits?_append (cs : List Char) (c : Char) :
    ofDigits? (cs ++ [c]) = (ofDigits? cs).bind fun n => (value? c).map (16 * n + ·) := by
  simp [ofDigits?, List.foldlM_append, bind]

theorem ofDigits?_digits {k n : Nat} (h : n < Nat.pow 16 k) : ofDigits? (digits k n) = some n := by
  induction k generalizing n with
  | zero =>
    obtain rfl : n = 0 := Nat.lt_one_iff.mp h
    rfl
  | succ k ih =>
    have hhigh : n / 16 < Nat.pow 16 k := by
      rw [Nat.pow_eq, Nat.pow_succ'] at h
      exact Nat.div_lt_of_lt_mul h
    rw [digits, ofDigits?_append, ih hhigh, value?_digit (Nat.mod_lt n (by decide))]
    simp [Nat.div_add_mod]

theorem digit_ne_hyphen (h : n < 16) : digit n ≠ '-' := by
  have all : ∀ i : Fin 16, digit i ≠ '-' := by decide
  exact all ⟨n, h⟩

theorem ne_hyphen_of_mem_digits {k : Nat} {c : Char} (h : c ∈ digits k n) : c ≠ '-' := by
  induction k generalizing n with
  | zero => cases h
  | succ k ih =>
    rcases List.mem_append.mp h with hhigh | hlast
    · exact ih hhigh
    · rw [List.mem_singleton.mp hlast]
      exact digit_ne_hyphen (Nat.mod_lt n (by decide))

end Hex

/-- The sign of a number that is written without one unless it is negative. -/
def minus (n : Int) : List Char := if n < 0 then ['-'] else []

theorem isDigit_of_mem_minus {n : Int} {c : Char} (h : c ∈ minus n) : c.isDigit = false := by
  unfold minus at h
  split at h
  · rw [List.mem_singleton.mp h]
    rfl
  · cases h

theorem int_eq_of_minus {m n : Int} (hsign : minus m = minus n) (habs : m.natAbs = n.natAbs) :
    m = n := by
  unfold minus at hsign
  split at hsign <;> split at hsign <;> first | omega | cases hsign

theorem toList_toString_int (n : Int) :
    (toString n).toList = minus n ++ Nat.toDigits 10 n.natAbs := by
  rw [Int.toString_eq_repr, Int.repr_eq_if, minus]
  by_cases h : 0 ≤ n
  · rw [if_pos h, if_neg (by omega), List.nil_append, show n.natAbs = n.toNat by omega]
    exact Nat.toList_repr
  · rw [if_neg h, if_pos (by omega), show n.natAbs = (-n).toNat by omega, String.toList_append,
      Nat.toList_repr]
    rfl

theorem toString_int_inj {m n : Int} (hr : NoDigit r) (hr' : NoDigit r')
    (h : (toString m).toList ++ r = (toString n).toList ++ r') : m = n ∧ r = r' := by
  rw [toList_toString_int, toList_toString_int, List.append_assoc, List.append_assoc] at h
  obtain ⟨hsign, hdigits, hrest⟩ := signed_inj (fun _ => isDigit_of_mem_minus)
    (fun _ => isDigit_of_mem_minus) (digits_toDigits _) (digits_toDigits _) hr hr' h
  exact ⟨int_eq_of_minus hsign (toDigits_inj hdigits), hrest⟩

/-- The sign of a decimal, which stands in front of a zero as well. -/
def Decimal.sign (d : Decimal) : List Char := if d.negative then ['-'] else []

theorem Decimal.isDigit_of_mem_sign {d : Decimal} {c : Char} (h : c ∈ d.sign) :
    c.isDigit = false := by
  unfold sign at h
  split at h
  · rw [List.mem_singleton.mp h]
    rfl
  · cases h

theorem Decimal.negative_eq_of_sign {a b : Decimal} (h : a.sign = b.sign) :
    a.negative = b.negative := by
  unfold sign at h
  cases ha : a.negative <;> cases hb : b.negative <;> simp_all

/-- The digits of a decimal in front of the point and behind it. -/
theorem Decimal.toList_write (d : Decimal) :
    ∃ whole fraction, d.write.toList = d.sign ++ (whole ++
        (if fraction.isEmpty then [] else '.' :: fraction)) ∧
      whole ++ fraction = padded (d.places + 1) d.magnitude ∧ Digits whole ∧
      fraction.length = d.places := by
  have hlength := le_length_padded (d.places + 1) d.magnitude
  have hdigits := digits_padded (d.places + 1) d.magnitude
  generalize hall : padded (d.places + 1) d.magnitude = ds at *
  refine ⟨ds.take (ds.length - d.places), ds.drop (ds.length - d.places), ?_,
    List.take_append_drop .., ⟨?_, fun c hc => hdigits.2 c (List.mem_of_mem_take hc)⟩, ?_⟩
  · rw [write, hall, String.toList_ofList, List.append_assoc]
    rfl
  · apply List.ne_nil_of_length_pos
    rw [List.length_take]
    omega
  · rw [List.length_drop]
    omega

/-- A decimal is written with its sign, its digits and its places, so all three are read off. -/
theorem Decimal.write_inj {a b : Decimal} (h : a.write = b.write) : a = b := by
  obtain ⟨whole, fraction, hwrite, hall, hdigits, hplaces⟩ := a.toList_write
  obtain ⟨whole', fraction', hwrite', hall', hdigits', hplaces'⟩ := b.toList_write
  have hpoint : ∀ fraction : List Char,
      NoDigit (if fraction.isEmpty then [] else '.' :: fraction) := by
    intro fraction
    split
    · exact noDigit_nil
    · exact noDigit_cons rfl _
  have htext := congrArg String.toList h
  rw [hwrite, hwrite'] at htext
  obtain ⟨hsign, rfl, hrest⟩ := signed_inj (fun _ => isDigit_of_mem_sign)
    (fun _ => isDigit_of_mem_sign) hdigits hdigits' (hpoint _) (hpoint _) htext
  obtain rfl : fraction = fraction' := by
    cases fraction <;> cases fraction' <;> simp_all
  have hnegative := negative_eq_of_sign hsign
  have hmagnitude : a.magnitude = b.magnitude := padded_inj (hall.symm.trans hall')
  cases a
  cases b
  simp_all

end SqlCompose
