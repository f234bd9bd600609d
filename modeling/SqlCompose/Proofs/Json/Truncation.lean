import SqlCompose.Proofs.Json.Writing

/-!
Texts that break off inside of what was written, where the reader meets the end before any other
fault.
-/
namespace SqlCompose

namespace Text

variable {p s t : List Char} {c : Char}

/-- The text is the beginning of another, and not all of it. -/
def BreaksOff (p t : List Char) : Prop := p <+: t ∧ p ≠ t

theorem breaksOff_append (h : t ≠ []) : BreaksOff s (s ++ t) :=
  ⟨List.prefix_append s t, fun hall => h (List.self_eq_append_right.mp hall)⟩

theorem not_breaksOff_nil : ¬ BreaksOff p [] := fun h => h.2 (List.prefix_nil.mp h.1)

theorem breaksOff_cons_iff : BreaksOff p (c :: t) ↔ p = [] ∨ ∃ q, p = c :: q ∧ BreaksOff q t := by
  constructor
  · rintro ⟨hbegin, hne⟩
    rcases List.prefix_cons_iff.mp hbegin with rfl | ⟨q, rfl, hq⟩
    · exact .inl rfl
    · exact .inr ⟨q, rfl, hq, fun h => hne (congrArg _ h)⟩
  · rintro (rfl | ⟨q, rfl, hbegin, hne⟩)
    · exact ⟨List.nil_prefix, by simp⟩
    · exact ⟨List.cons_prefix_cons.mpr ⟨rfl, hbegin⟩, by simpa using hne⟩

theorem breaksOff_singleton_iff : BreaksOff p [c] ↔ p = [] := by
  simp [breaksOff_cons_iff, not_breaksOff_nil]

/-- A text breaks off in the first part of another, or has that part and breaks off in the second. -/
theorem BreaksOff.of_append (h : BreaksOff p (s ++ t)) :
    BreaksOff p s ∨ ∃ q, p = s ++ q ∧ BreaksOff q t := by
  induction s generalizing p with
  | nil => exact .inr ⟨p, rfl, h⟩
  | cons c s ih =>
    rcases breaksOff_cons_iff.mp h with rfl | ⟨q, rfl, hq⟩
    · exact .inl (breaksOff_cons_iff.mpr (.inl rfl))
    · rcases ih hq with hs | ⟨r, rfl, hr⟩
      · exact .inl (breaksOff_cons_iff.mpr (.inr ⟨q, rfl, hs⟩))
      · exact .inr ⟨r, rfl, hr⟩

end Text

namespace Json

open Text (BreaksOff breaksOff_cons_iff breaksOff_singleton_iff not_breaksOff_nil)

variable {acc cs e p : List Char} {c d : Char}

/-- A character stands for itself, for a short code, or for one with four digits. -/
theorem escapeChar_shape (c : Char) :
    escapeChar c = [c] ∨ (∃ d, escapeChar c = ['\\', d]) ∨
      ∃ m n, m < 16 ∧ n < 16 ∧
        escapeChar c = ['\\', 'u', '0', '0', Hex.digit m, Hex.digit n] := by
  by_cases hshort : c = '"' ∨ c = '\\' ∨ c = '\x08' ∨ c = '\t' ∨ c = '\n' ∨ c = '\x0c' ∨ c = '\r'
  · rcases hshort with rfl | rfl | rfl | rfl | rfl | rfl | rfl <;> exact .inr (.inl ⟨_, rfl⟩)
  · simp only [not_or] at hshort
    obtain ⟨hquote, hbackslash, hback, htab, hline, hfeed, hreturn⟩ := hshort
    rw [escapeChar, if_neg hquote, if_neg hbackslash, if_neg hback, if_neg htab, if_neg hline,
      if_neg hfeed, if_neg hreturn]
    by_cases hcontrol : c.toNat < 0x20
    · rw [if_pos hcontrol]
      exact .inr (.inr ⟨_, _, by omega, by omega, rfl⟩)
    · rw [if_neg hcontrol]
      exact .inl rfl

/-- Four digits are looked at only once they are all there. -/
theorem hexUnit_breaksOff {m n : Nat} (hm : m < 16)
    (h : BreaksOff p ['0', '0', Hex.digit m, Hex.digit n]) : hexUnit p = .error .truncated := by
  have hbytes : Text.byteLength (p.take 4) < 4 := by
    have hzero : '0'.utf8Size = 1 := rfl
    have hdigit : (Hex.digit m).utf8Size = 1 := utf8Size_digit hm
    rcases breaksOff_cons_iff.mp h with rfl | ⟨p₁, rfl, h₁⟩
    · decide
    rcases breaksOff_cons_iff.mp h₁ with rfl | ⟨p₂, rfl, h₂⟩
    · decide
    rcases breaksOff_cons_iff.mp h₂ with rfl | ⟨p₃, rfl, h₃⟩
    · decide
    obtain rfl := breaksOff_singleton_iff.mp h₃
    simp [Text.byteLength, hzero, hdigit]
  unfold hexUnit
  rw [if_pos hbytes]

/-- A code that is not there as a whole is not taken for another. -/
theorem escapeAt_breaksOff (he : escapeChar c = '\\' :: e) (h : BreaksOff p e) :
    escapeAt p = .error .truncated := by
  rcases escapeChar_shape c with hself | ⟨d, hshort⟩ | ⟨m, n, hm, -, hunit⟩
  · rw [hself] at he
    obtain rfl : [] = e := (List.cons.inj he).2
    exact absurd h not_breaksOff_nil
  · rw [hshort] at he
    obtain rfl : [d] = e := (List.cons.inj he).2
    obtain rfl := breaksOff_singleton_iff.mp h
    rfl
  · rw [hunit] at he
    obtain rfl := (List.cons.inj he).2
    rcases breaksOff_cons_iff.mp h with rfl | ⟨q, rfl, hq⟩
    · rfl
    · simp [escapeAt, hexUnit_breaksOff hm hq, bind, Except.bind]

/-- A literal that breaks off in front of its closing quote, or in a code, is no other literal. -/
theorem stringBody_breaksOff {s : List Char} (acc : List Char)
    (h : BreaksOff p (escapeText s ++ ['"'])) : stringBody escapeAt acc 0 p = .error .truncated := by
  induction s generalizing acc p with
  | nil =>
    obtain rfl := breaksOff_singleton_iff.mp h
    rfl
  | cons c s ih =>
    have htext : escapeText (c :: s) ++ ['"'] = escapeChar c ++ (escapeText s ++ ['"']) := by
      rw [escapeText, List.flatMap_cons, List.append_assoc, ← escapeText]
    rw [htext] at h
    rcases h.of_append with hcode | ⟨q, rfl, hq⟩
    · obtain ⟨hself, -, -, -⟩ | ⟨e, hescaped, -⟩ := escapeChar_cases c
      · rw [hself] at hcode
        obtain rfl := breaksOff_singleton_iff.mp hcode
        rfl
      · rw [hescaped] at hcode
        rcases breaksOff_cons_iff.mp hcode with rfl | ⟨q, rfl, hq⟩
        · rfl
        · simp [stringBody, escapeAt_breaksOff hescaped hq, bind, Except.bind]
    · rw [stringBody_escapeChar]
      exact ih _ hq

theorem string_breaksOff {s : String} (h : BreaksOff p (escapeText s.toList ++ ['"'])) :
    string p = .error .truncated := by
  rw [string, stringBody_breaksOff [] h]
  rfl

theorem readString_breaksOff {s : String} (h : BreaksOff p (quote s).toList) :
    readString p = .error .truncated := by
  rw [toList_quote] at h
  rcases breaksOff_cons_iff.mp h with rfl | ⟨q, rfl, hq⟩
  · rfl
  · exact string_breaksOff hq

theorem word_breaksOff {w : List Char} (h : BreaksOff p w) : word w p = .error .truncated := by
  induction w generalizing p with
  | nil => exact absurd h not_breaksOff_nil
  | cons c w ih =>
    rcases breaksOff_cons_iff.mp h with rfl | ⟨q, rfl, hq⟩
    · rfl
    · rw [word, if_pos rfl, ih hq]

theorem readBool_breaksOff {b : Bool} (h : BreaksOff p (boolText b).toList) :
    readBool p = .error .truncated := by
  cases b with
  | false =>
    rcases breaksOff_cons_iff.mp (h : BreaksOff p ('f' :: _)) with rfl | ⟨q, rfl, hq⟩
    · rfl
    · exact congrArg (· >>= _) (word_breaksOff hq)
  | true =>
    rcases breaksOff_cons_iff.mp (h : BreaksOff p ('t' :: _)) with rfl | ⟨q, rfl, hq⟩
    · rfl
    · exact congrArg (· >>= _) (word_breaksOff hq)

end Json

end SqlCompose
