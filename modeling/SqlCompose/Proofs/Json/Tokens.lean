import SqlCompose.Proofs.Json.Grammar
import SqlCompose.Proofs.Json.Writing

/-!
Blanks, numbers and strings as they are taken from the front of a text, in every way in which the
grammar lets them be written.
-/
namespace SqlCompose.Json

variable {first : Bool} {b lead ds cs rest : List Char} {c d : Char} {u : Nat}

theorem skipSpace_blank (hb : Blank b) (cs : List Char) : skipSpace (b ++ cs) = skipSpace cs := by
  induction b with
  | nil => rfl
  | cons c b ih =>
    have hc : isSpace c = true := hb c List.mem_cons_self
    have hrest : Blank b := fun d hd => hb d (List.mem_cons_of_mem c hd)
    rw [List.cons_append, skipSpace, List.dropWhile_cons_of_pos hc, ← skipSpace, ih hrest]

theorem skipSpace_cons (hc : isSpace c = false) (cs : List Char) : skipSpace (c :: cs) = c :: cs := by
  rw [skipSpace, List.dropWhile_cons_of_neg (by simp [hc])]

theorem skipSpace_blank_cons (hb : Blank b) (hc : isSpace c = false) (cs : List Char) :
    skipSpace (b ++ c :: cs) = c :: cs := by
  rw [skipSpace_blank hb, skipSpace_cons hc]

theorem colon_blank (hb : Blank b) (rest : List Char) : colon (b ++ ':' :: rest) = .ok rest := by
  rw [colon, skipSpace_blank_cons hb (by decide)]
  rfl

theorem nextElement_close (first : Bool) (hb : Blank b) (rest : List Char) :
    nextElement first (b ++ ']' :: rest) = .ok (false, rest) := by
  rw [nextElement, skipSpace_blank_cons hb (by decide)]
  rfl

theorem nextMember_close (first : Bool) (hb : Blank b) (rest : List Char) :
    nextMember first (b ++ '}' :: rest) = .ok (false, rest) := by
  rw [nextMember, skipSpace_blank_cons hb (by decide)]
  rfl

theorem nextElement_lead (hlead : Lead first lead) (hspace : isSpace c = false) (hc : c ≠ ']')
    (rest : List Char) : nextElement first (lead ++ c :: rest) = .ok (true, c :: rest) := by
  cases hlead with
  | first hb =>
    rw [nextElement, skipSpace_blank_cons hb hspace]
    simp
  | next hb hb' =>
    rw [List.append_assoc, List.cons_append, nextElement, skipSpace_blank_cons hb (by decide)]
    simp [skipSpace_blank_cons hb' hspace, hc]

theorem nextMember_lead (hlead : Lead first lead) (rest : List Char) :
    nextMember first (lead ++ '"' :: rest) = .ok (true, rest) := by
  cases hlead with
  | first hb =>
    rw [nextMember, skipSpace_blank_cons hb (by decide)]
    rfl
  | next hb hb' =>
    rw [List.append_assoc, List.cons_append, nextMember, skipSpace_blank_cons hb (by decide)]
    simp [skipSpace_blank_cons hb' (by decide : isSpace '"' = false)]

/-- Digits are taken as far as they go. -/
theorem someDigits_append (hds : Digits ds) (hcs : NoDigit cs) (early : ReadError) :
    someDigits early (ds ++ cs) = .ok (ds, cs) := by
  have hafter : cs.takeWhile Char.isDigit = [] ∧ cs.dropWhile Char.isDigit = cs := by
    cases cs with
    | nil => exact ⟨rfl, rfl⟩
    | cons c cs => simp [hcs c rfl]
  have hsplit : digitsOf (ds ++ cs) = (ds, cs) := by
    rw [digitsOf, List.takeWhile_append_of_pos hds.2, List.dropWhile_append_of_pos hds.2, hafter.1,
      hafter.2, List.append_nil]
  obtain ⟨d, ds, rfl⟩ := List.exists_cons_of_ne_nil hds.1
  rw [someDigits, hsplit]

/-- The exponent from its letter on: a sign, if there is one, and digits. -/
theorem exponentPart_digits {e : Char} {sign : List Char} (he : e = 'e' ∨ e = 'E')
    (hsign : sign ∈ [[], ['+'], ['-']]) (hds : Digits ds) (hrest : Stops rest) (early : ReadError)
    (whole fraction : List Char) :
    ∃ n, exponentPart early whole fraction (e :: (sign ++ (ds ++ rest))) = .ok (n, rest) := by
  have hdigits := someDigits_append hds hrest.noDigit early
  unfold exponentPart
  simp only [if_pos he]
  simp only [List.mem_cons, List.not_mem_nil, or_false] at hsign
  rcases hsign with rfl | rfl | rfl
  · -- without a sign it is the first digit that tells that there is none
    obtain ⟨d, ds, rfl⟩ := List.exists_cons_of_ne_nil hds.1
    have hd : d.isDigit = true := hds.2 d List.mem_cons_self
    have hminus : d ≠ '-' := by rintro rfl; exact absurd hd (by decide)
    have hplus : d ≠ '+' := by rintro rfl; exact absurd hd (by decide)
    rw [List.cons_append] at hdigits
    simp [hminus, hplus, hdigits, bind, Except.bind, pure, Except.pure]
  · simp [hdigits, bind, Except.bind, pure, Except.pure]
  · simp [hdigits, bind, Except.bind, pure, Except.pure]

theorem exponentPart_append {exponent : List Char} (h : IsExponent exponent) (hrest : Stops rest)
    (early : ReadError) (whole fraction : List Char) :
    ∃ n, exponentPart early whole fraction (exponent ++ rest) = .ok (n, rest) := by
  cases h with
  | absent =>
    cases rest with
    | nil => exact ⟨_, rfl⟩
    | cons c rest =>
      obtain ⟨-, -, he, hE⟩ := hrest c rfl
      refine ⟨⟨whole, fraction, none⟩, ?_⟩
      unfold exponentPart
      simp only [List.nil_append, if_neg (not_or.mpr ⟨he, hE⟩)]
  | digits he hsign hds =>
    rw [List.cons_append, List.append_assoc]
    exact exponentPart_digits he hsign hds hrest early whole fraction

theorem IsExponent.head_append {exponent : List Char} (h : IsExponent exponent) (hrest : Stops rest) :
    ∀ c ∈ (exponent ++ rest).head?, c.isDigit = false ∧ c ≠ '.' := by
  cases h with
  | absent => exact fun c hc => ⟨(hrest c hc).1, (hrest c hc).2.1⟩
  | digits he hsign hds =>
    rintro c ⟨⟩
    rcases he with rfl | rfl <;> exact ⟨by decide, by decide⟩

theorem numeral_append (h : IsNumeral cs) (hrest : Stops rest) (early : ReadError) :
    ∃ n, numeral early (cs ++ rest) = .ok (n, rest) := by
  obtain @⟨whole, fraction, exponent, hwhole, hzero, hfraction, hexponent⟩ := h
  have htail := hexponent.head_append hrest
  have hnozero : ¬ (whole.head? = some '0' ∧ 1 < whole.length) := by
    rintro ⟨h0, hlong⟩
    exact absurd (hzero h0) (Nat.ne_of_gt hlong)
  rw [List.append_assoc, List.append_assoc, numeral]
  cases hfraction with
  | absent =>
    obtain ⟨n, hn⟩ := exponentPart_append hexponent hrest early whole []
    refine ⟨n, ?_⟩
    rw [List.nil_append, someDigits_append hwhole fun c hc => (htail c hc).1]
    have hpoint : fractionPart early whole (exponent ++ rest) =
        exponentPart early whole [] (exponent ++ rest) := by
      rw [fractionPart]
      intro r hr
      exact (htail '.' (by rw [hr]; rfl)).2 rfl
    simp [hnozero, hpoint, hn, bind, Except.bind]
  | @digits ds hds =>
    obtain ⟨n, hn⟩ := exponentPart_append hexponent hrest early whole ds
    refine ⟨n, ?_⟩
    rw [List.cons_append, someDigits_append hwhole (noDigit_cons (by decide) _)]
    have hdigits := someDigits_append hds (fun c hc => (htail c hc).1) early
    simp [hnozero, fractionPart, hdigits, hn, bind, Except.bind]

theorem length_le_byteLength (cs : List Char) : cs.length ≤ Text.byteLength cs := by
  induction cs with
  | nil => exact Nat.le_refl 0
  | cons c cs ih =>
    have hc : 0 < c.utf8Size := c.utf8Size_pos
    rw [List.length_cons, Text.byteLength]
    omega

theorem hexUnit_fourDigits (h : FourDigits ds u) (cs : List Char) : hexUnit (ds ++ cs) = .ok u := by
  obtain ⟨hlength, hvalue⟩ := h
  have henough : ¬ Text.byteLength ((ds ++ cs).take 4) < 4 := by
    rw [List.take_left' hlength, Nat.not_lt, ← hlength]
    exact length_le_byteLength ds
  obtain ⟨a, b, c, d, rfl⟩ : ∃ a b c d, ds = [a, b, c, d] := by
    match ds, hlength with
    | [a, b, c, d], _ => exact ⟨a, b, c, d, rfl⟩
  simp only [Hex.ofDigits?, List.foldlM_cons, List.foldlM_nil, Option.bind_eq_bind,
    Option.bind_eq_some_iff, Option.map_eq_some_iff, Option.pure_def, Option.some.injEq] at hvalue
  obtain ⟨_, ⟨a', ha, rfl⟩, _, ⟨b', hb, rfl⟩, _, ⟨c', hc, rfl⟩, _, ⟨d', hd, rfl⟩, rfl⟩ := hvalue
  unfold hexUnit
  rw [if_neg henough]
  simp only [List.cons_append, List.nil_append, ha, hb, hc, hd, Except.ok.injEq]
  omega

theorem escapeAt_fourDigits (h : FourDigits ds u) (hleading : isLeading u = false)
    (htrailing : isTrailing u = false) (cs : List Char) :
    escapeAt ('u' :: (ds ++ cs)) = .ok (Char.ofNat u, 5) := by
  simp [escapeAt, hexUnit_fourDigits h, hleading, htrailing, bind, Except.bind, pure, Except.pure]

theorem escapeAt_pair {es : List Char} {v : Nat} (hu : FourDigits ds u) (hv : FourDigits es v)
    (hleading : isLeading u = true) (htrailing : isTrailing v = true) (cs : List Char) :
    escapeAt ('u' :: (ds ++ '\\' :: 'u' :: (es ++ cs))) =
      .ok (Char.ofNat (0x10000 + (u - 0xD800) * 0x400 + (v - 0xDC00)), 11) := by
  have hnot : isTrailing u = false := by
    simp only [isLeading, isTrailing, Bool.and_eq_true, decide_eq_true_eq, Bool.and_eq_false_iff,
      decide_eq_false_iff_not] at hleading ⊢
    omega
  simp [escapeAt, hexUnit_fourDigits hu, hexUnit_fourDigits hv, hleading, htrailing, hnot,
    List.drop_left' hu.1, bind, Except.bind, pure, Except.pure]

theorem ne_u_of_shortEscape? (h : shortEscape? d = some c) : d ≠ 'u' := by
  rintro rfl
  cases h

theorem stringBody_spells (acc : List Char) {e : List Char} (h : Spells c e) (cs : List Char) :
    stringBody escapeAt acc 0 (e ++ cs) = stringBody escapeAt (c :: acc) 0 cs := by
  cases h with
  | plain h => exact stringBody_plain h.1 h.2.1 h.2.2
  | @short c d h =>
    exact stringBody_escaped (e := [d]) (escapeAt_short h (ne_u_of_shortEscape? h) cs)
  | @unit ds u h hleading htrailing =>
    apply stringBody_escaped (e := 'u' :: ds)
    rw [List.length_cons, h.1]
    exact escapeAt_fourDigits h hleading htrailing cs
  | @pair ds es u v hu hv hleading htrailing =>
    apply stringBody_escaped (e := 'u' :: (ds ++ '\\' :: 'u' :: es))
    simp only [List.length_cons, List.length_append, hu.1, hv.1, List.cons_append, List.append_assoc]
    exact escapeAt_pair hu hv hleading htrailing cs

theorem stringBody_literal {s : List Char} (h : Literal s cs) (acc rest : List Char) :
    stringBody escapeAt acc 0 (cs ++ rest) = .ok (acc.reverse ++ s, rest) := by
  induction h generalizing acc with
  | close => simp [stringBody]
  | char h hs ih =>
    rw [List.append_assoc, stringBody_spells acc h, ih]
    simp

/-- Every way to write a text is read as that text. -/
theorem string_literal {s : String} (h : Literal s.toList cs) (rest : List Char) :
    string (cs ++ rest) = .ok (s, rest) := by
  rw [string, stringBody_literal h]
  simp [bind, Except.bind, pure, Except.pure]

theorem stringBody_isLiteral (h : IsLiteral cs) (acc rest : List Char) :
    ∃ s, stringBody escapeFormAt acc 0 (cs ++ rest) = .ok (s, rest) := by
  induction h generalizing acc with
  | close => exact ⟨acc.reverse, rfl⟩
  | @plain c cs h hcs ih =>
    obtain ⟨s, hs⟩ := ih (c :: acc)
    exact ⟨s, (stringBody_plain h.1 h.2.1 h.2.2).trans hs⟩
  | @short c d cs h hcs ih =>
    obtain ⟨s, hs⟩ := ih (d :: acc)
    refine ⟨s, (stringBody_escaped (e := [d]) ?_).trans hs⟩
    have hform : escapeFormAt (d :: (cs ++ rest)) = .ok (d, 1) := by
      rw [escapeFormAt, h]
      · rfl
      · exact ne_u_of_shortEscape? h
    exact hform
  | @unit ds cs u h hcs ih =>
    obtain ⟨s, hs⟩ := ih ('u' :: acc)
    refine ⟨s, ?_⟩
    rw [← hs, List.cons_append, List.cons_append, List.append_assoc]
    apply stringBody_escaped (e := 'u' :: ds)
    simp [escapeFormAt, hexUnit_fourDigits h, h.1, bind, Except.bind, pure, Except.pure]

theorem skipString_isLiteral (h : IsLiteral cs) (rest : List Char) :
    skipString (cs ++ rest) = .ok rest := by
  obtain ⟨s, hs⟩ := stringBody_isLiteral h [] rest
  rw [skipString, hs]
  rfl

end SqlCompose.Json
