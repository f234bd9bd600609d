import SqlCompose.Proofs.Number.Digits
import SqlCompose.Value.Basic

/-!
Identifiers, dates and times are known from their texts, but for a leap second behind another second
than the last of a minute.
-/
namespace SqlCompose

open Json (NoDigit noDigit_nil noDigit_cons)

variable {r r' : List Char}

namespace Uuid

theorem filter_hyphenated (ns : List Nat) (cs : List Char) :
    (hyphenated ns cs).filter (· != '-') = cs.filter (· != '-') := by
  fun_induction hyphenated ns cs with
  | case1 n m ns cs ih =>
    rw [List.filter_append, List.filter_cons_of_neg (by simp), ih, ← List.filter_append,
      List.take_append_drop]
  | case2 => rfl

theorem filter_text (u : Uuid) : u.text.toList.filter (· != '-') = Hex.digits 32 u.bits.toNat := by
  rw [text, String.toList_ofList, filter_hyphenated, List.filter_eq_self]
  intro c hc
  simpa using Hex.ne_hyphen_of_mem_digits hc

theorem text_inj {u v : Uuid} (h : u.text = v.text) : u = v := by
  have hdigits : Hex.digits 32 u.bits.toNat = Hex.digits 32 v.bits.toNat := by
    rw [← filter_text, h, filter_text]
  have hbits : ∀ u : Uuid, Hex.ofDigits? (Hex.digits 32 u.bits.toNat) = some u.bits.toNat :=
    fun u => Hex.ofDigits?_digits u.bits.isLt
  have hnat : u.bits.toNat = v.bits.toNat := by
    rw [← Option.some_inj, ← hbits, hdigits, hbits]
  cases u
  cases v
  exact congrArg _ (BitVec.eq_of_toNat_eq hnat)

end Uuid

namespace Date

/-- The sign of a year: none for the years that four digits are enough for. -/
def yearSign (y : Int) : List Char :=
  if 0 ≤ y ∧ y ≤ 9999 then [] else if y < 0 then ['-'] else ['+']

theorem yearText_eq (y : Int) : yearText y = yearSign y ++ padded 4 y.natAbs := by
  unfold yearText yearSign
  split
  · rfl
  · split <;> rfl

theorem isDigit_of_mem_yearSign {y : Int} {c : Char} (h : c ∈ yearSign y) : c.isDigit = false := by
  unfold yearSign at h
  split at h
  · cases h
  · split at h <;> rw [List.mem_singleton.mp h] <;> rfl

theorem year_eq_of_sign {y z : Int} (hsign : yearSign y = yearSign z)
    (habs : y.natAbs = z.natAbs) : y = z := by
  unfold yearSign at hsign
  repeat' split at hsign
  all_goals first | omega | cases hsign

theorem chars_inj {d e : Date} (hr : NoDigit r) (hr' : NoDigit r')
    (h : d.chars ++ r = e.chars ++ r') : d = e ∧ r = r' := by
  have hhyphen : ∀ cs, NoDigit ('-' :: cs) := noDigit_cons rfl
  simp only [chars, yearText_eq, List.append_assoc, List.cons_append] at h
  obtain ⟨hsign, hyear, hafterYear⟩ := signed_inj (fun _ => isDigit_of_mem_yearSign)
    (fun _ => isDigit_of_mem_yearSign) (digits_padded ..) (digits_padded ..) (hhyphen _)
    (hhyphen _) h
  obtain ⟨hmonth, hafterMonth⟩ := digits_inj (digits_padded ..) (digits_padded ..) (hhyphen _)
    (hhyphen _) (List.cons.inj hafterYear).2
  obtain ⟨hday, hafterDay⟩ := digits_inj (digits_padded ..) (digits_padded ..) hr hr'
    (List.cons.inj hafterMonth).2
  have hy := year_eq_of_sign hsign (padded_inj hyear)
  have hm := padded_inj hmonth
  have hd := padded_inj hday
  cases d
  cases e
  simp_all

theorem text_inj {d e : Date} (h : d.text = e.text) : d = e :=
  (chars_inj noDigit_nil noDigit_nil (congrArg (· ++ []) (String.ofList_injective h))).1

end Date

namespace Time

variable {t u : Time}

/-- The fraction of a second shows with how many digits it is written, and with that its value. -/
theorem fractionText_cases {n : Nat} (h : n < 1000000000) :
    (n = 0 ∧ fractionText n = []) ∨ ∃ w k, n = k * Nat.pow 10 (9 - w) ∧
      fractionText n = '.' :: padded w k ∧ (padded w k).length = w := by
  simp only [Nat.pow_eq]
  unfold fractionText
  split
  · exact .inl ⟨‹_›, rfl⟩
  right
  split
  · exact ⟨3, n / 1000000, by omega, rfl, length_padded (by decide) (by rw [Nat.pow_eq]; omega)⟩
  split
  · exact ⟨6, n / 1000, by omega, rfl, length_padded (by decide) (by rw [Nat.pow_eq]; omega)⟩
  · exact ⟨9, n, by omega, rfl, length_padded (by decide) (by rw [Nat.pow_eq]; omega)⟩

theorem fractionText_inj {m n : Nat} (hm : m < 1000000000) (hn : n < 1000000000)
    (h : fractionText m = fractionText n) : m = n := by
  obtain ⟨hzero, hleft⟩ | ⟨w, k, hwhole, hleft, hw⟩ := fractionText_cases hm <;>
    obtain ⟨hzero', hright⟩ | ⟨v, l, hwhole', hright, hv⟩ := fractionText_cases hn <;>
    rw [hleft, hright] at h
  · rw [hzero, hzero']
  · cases h
  · cases h
  · have hpadded := (List.cons.inj h).2
    rw [hwhole, hwhole', padded_inj hpadded, ← hw, hpadded, hv]

theorem noDigit_fractionText (n : Nat) : NoDigit (fractionText n) := by
  unfold fractionText
  split
  · exact noDigit_nil
  · repeat' split
    all_goals exact noDigit_cons rfl _

/-- The time that a text is read as: a leap second that has the text of the next second is that second. -/
def shown (t : Time) : Time :=
  if h : t.second < 59 ∧ 1000000000 ≤ t.nanosecond then
    ⟨t.hour, t.minute, t.second + 1, t.nanosecond - 1000000000, t.hour_lt, t.minute_lt,
      Nat.succ_lt_succ h.1, Nat.lt_of_le_of_lt (Nat.sub_le _ _) t.nanosecond_lt⟩
  else t

/-- A time whose leap second, if it is within one, is the last of its minute. -/
def LeapsLast (t : Time) : Prop := 1000000000 ≤ t.nanosecond → t.second = 59

theorem leapsLast_shown (t : Time) : t.shown.LeapsLast := by
  have hsecond := t.second_lt
  have hnanosecond := t.nanosecond_lt
  unfold shown LeapsLast
  split
  · dsimp only
    omega
  · omega

theorem shown_eq_self (h : t.LeapsLast) : t.shown = t := by
  unfold LeapsLast at h
  exact dif_neg (by omega)

theorem chars_shown (t : Time) : t.shown.chars = t.chars := by
  unfold shown
  split
  · rename_i h
    obtain ⟨-, hleap⟩ := h
    have hseconds : t.second + 1 + (t.nanosecond - 1000000000) / 1000000000 =
        t.second + t.nanosecond / 1000000000 := by omega
    have hpart : (t.nanosecond - 1000000000) % 1000000000 = t.nanosecond % 1000000000 := by omega
    rw [chars, chars, hseconds, hpart]
  · rfl

theorem eq_of_chars_eq (ht : t.LeapsLast) (hu : u.LeapsLast) (h : t.chars = u.chars) : t = u := by
  have hcolon : ∀ cs, NoDigit (':' :: cs) := noDigit_cons rfl
  unfold chars at h
  obtain ⟨hhour, hafterHour⟩ := digits_inj (digits_padded ..) (digits_padded ..) (hcolon _)
    (hcolon _) h
  obtain ⟨hminute, hafterMinute⟩ := digits_inj (digits_padded ..) (digits_padded ..) (hcolon _)
    (hcolon _) (List.cons.inj hafterHour).2
  obtain ⟨hsecond, hfraction⟩ := digits_inj (digits_padded ..) (digits_padded ..)
    (noDigit_fractionText _) (noDigit_fractionText _) (List.cons.inj hafterMinute).2
  have hseconds := padded_inj hsecond
  have hpart := fractionText_inj (Nat.mod_lt _ (by decide)) (Nat.mod_lt _ (by decide)) hfraction
  -- a second sixty is second 59 with a nanosecond behind the full second, and nothing else
  unfold LeapsLast at ht hu
  have htsecond := t.second_lt
  have husecond := u.second_lt
  have htnanosecond := t.nanosecond_lt
  have hunanosecond := u.nanosecond_lt
  have hs : t.second = u.second := by omega
  have hn : t.nanosecond = u.nanosecond := by omega
  have hh := padded_inj hhour
  have hm := padded_inj hminute
  cases t
  cases u
  simp_all

theorem shown_eq_of_chars_eq (h : t.chars = u.chars) : t.shown = u.shown := by
  rw [← chars_shown t, ← chars_shown u] at h
  exact eq_of_chars_eq (leapsLast_shown t) (leapsLast_shown u) h

theorem text_shown (t : Time) : t.shown.text = t.text := congrArg String.ofList (chars_shown t)

theorem shown_eq_of_text_eq (h : t.text = u.text) : t.shown = u.shown :=
  shown_eq_of_chars_eq (String.ofList_injective h)

end Time

namespace DateTime

variable {d e : DateTime}

def shown (d : DateTime) : DateTime := { d with time := d.time.shown }

theorem chars_shown (d : DateTime) : d.shown.chars = d.chars := by
  rw [chars, chars, shown, Time.chars_shown]

theorem shown_eq_of_chars_eq (h : d.chars = e.chars) : d.shown = e.shown := by
  obtain ⟨hdate, hrest⟩ := Date.chars_inj (noDigit_cons rfl _) (noDigit_cons rfl _) h
  rw [shown, shown, hdate, Time.shown_eq_of_chars_eq (List.cons.inj hrest).2]

theorem text_shown (d : DateTime) : d.shown.text = d.text := by
  rw [text, text, chars_shown]

theorem utcText_shown (d : DateTime) : d.shown.utcText = d.utcText := by
  rw [utcText, utcText, chars_shown]

theorem shown_eq_of_text_eq (h : d.text = e.text) : d.shown = e.shown :=
  shown_eq_of_chars_eq (String.ofList_injective h)

theorem shown_eq_of_utcText_eq (h : d.utcText = e.utcText) : d.shown = e.shown :=
  shown_eq_of_chars_eq (List.append_cancel_right (String.ofList_injective h))

end DateTime

end SqlCompose
