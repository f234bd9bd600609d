import SqlCompose.Json.Reading.Value

/-! What is written as JSON is read back. -/
namespace SqlCompose.Json

variable {escape : List Char → Except ReadError (Char × Nat)} {acc cs e rest : List Char} {c d : Char}

/-- The characters that belong to an escape already taken are passed over. -/
theorem stringBody_length (escape : List Char → Except ReadError (Char × Nat))
    (acc e cs : List Char) :
    stringBody escape acc e.length (e ++ cs) = stringBody escape acc 0 cs := by
  induction e with
  | nil => rfl
  | cons c e ih => exact ih

theorem stringBody_escaped (h : escape (e ++ cs) = .ok (d, e.length)) :
    stringBody escape acc 0 ('\\' :: (e ++ cs)) = stringBody escape (d :: acc) 0 cs := by
  have hread : stringBody escape acc 0 ('\\' :: (e ++ cs)) =
      escape (e ++ cs) >>= fun x => stringBody escape (x.1 :: acc) x.2 (e ++ cs) := rfl
  rw [hread, h]
  exact stringBody_length escape (d :: acc) e cs

theorem stringBody_plain (hquote : c ≠ '"') (hescape : c ≠ '\\') (hcontrol : ¬ c.toNat < 0x20) :
    stringBody escape acc 0 (c :: cs) = stringBody escape (c :: acc) 0 cs := by
  rw [stringBody, if_neg hquote, if_neg hescape, if_neg hcontrol]

theorem escapeAt_short (h : shortEscape? d = some c) (hd : d ≠ 'u') (cs : List Char) :
    escapeAt (d :: cs) = .ok (c, 1) := by
  rw [escapeAt, h]
  exact fun h => hd h

theorem utf8Size_digit {n : Nat} (h : n < 16) : (Hex.digit n).utf8Size = 1 := by
  have all : ∀ i : Fin 16, (Hex.digit i).utf8Size = 1 := by decide
  exact all ⟨n, h⟩

/-- Four digits stand for the number that they are. -/
theorem hexUnit_digits {m n : Nat} (hm : m < 16) (hn : n < 16) (cs : List Char) :
    hexUnit ('0' :: '0' :: Hex.digit m :: Hex.digit n :: cs) = .ok (m * 16 + n) := by
  have hlength : Text.byteLength (('0' :: '0' :: Hex.digit m :: Hex.digit n :: cs).take 4) = 4 := by
    simp [Text.byteLength, utf8Size_digit hm, utf8Size_digit hn]
    decide
  have hzero : Hex.value? '0' = some 0 := by decide
  rw [hexUnit, hlength]
  simp [hzero, Hex.value?_digit hm, Hex.value?_digit hn]

theorem escapeAt_unit {n : Nat} (hn : n < 0x20) (cs : List Char) :
    escapeAt ('u' :: '0' :: '0' :: Hex.digit (n / 16) :: Hex.digit (n % 16) :: cs) =
      .ok (Char.ofNat n, 5) := by
  have hunit := hexUnit_digits (m := n / 16) (n := n % 16) (by omega) (by omega) cs
  have hvalue : n / 16 * 16 + n % 16 = n := by omega
  have htrailing : isTrailing n = false := by
    simp [isTrailing]
    omega
  have hleading : isLeading n = false := by
    simp [isLeading]
    omega
  rw [hvalue] at hunit
  simp [escapeAt, hunit, htrailing, hleading, bind, Except.bind, pure, Except.pure]

/-- A character stands for itself, or for the code behind a backslash that is read as that character
whatever follows. -/
theorem escapeChar_cases (c : Char) :
    (escapeChar c = [c] ∧ c ≠ '"' ∧ c ≠ '\\' ∧ ¬ c.toNat < 0x20) ∨
      ∃ e, escapeChar c = '\\' :: e ∧ ∀ cs, escapeAt (e ++ cs) = .ok (c, e.length) := by
  by_cases hshort : c = '"' ∨ c = '\\' ∨ c = '\x08' ∨ c = '\t' ∨ c = '\n' ∨ c = '\x0c' ∨ c = '\r'
  · right
    rcases hshort with rfl | rfl | rfl | rfl | rfl | rfl | rfl <;>
      exact ⟨[_], rfl, escapeAt_short rfl (by decide)⟩
  · simp only [not_or] at hshort
    obtain ⟨hquote, hbackslash, hback, htab, hline, hfeed, hreturn⟩ := hshort
    rw [escapeChar, if_neg hquote, if_neg hbackslash, if_neg hback, if_neg htab, if_neg hline,
      if_neg hfeed, if_neg hreturn]
    by_cases hcontrol : c.toNat < 0x20
    · right
      rw [if_pos hcontrol]
      refine ⟨_, rfl, fun cs => ?_⟩
      have hread := escapeAt_unit hcontrol cs
      rw [Char.ofNat_toNat] at hread
      exact hread
    · left
      rw [if_neg hcontrol]
      exact ⟨rfl, hquote, hbackslash, hcontrol⟩

theorem stringBody_escapeChar (acc : List Char) (c : Char) (cs : List Char) :
    stringBody escapeAt acc 0 (escapeChar c ++ cs) = stringBody escapeAt (c :: acc) 0 cs := by
  obtain ⟨hself, hquote, hbackslash, hcontrol⟩ | ⟨e, hcode, hread⟩ := escapeChar_cases c
  · rw [hself]
    exact stringBody_plain hquote hbackslash hcontrol
  · rw [hcode]
    exact stringBody_escaped (hread cs)

/-- The first quote that is not part of a code is the closing one. -/
theorem stringBody_escapeText (acc s rest : List Char) :
    stringBody escapeAt acc 0 (escapeText s ++ '"' :: rest) = .ok (acc.reverse ++ s, rest) := by
  induction s generalizing acc with
  | nil =>
    rw [List.append_nil]
    rfl
  | cons c s ih =>
    rw [escapeText, List.flatMap_cons, List.append_assoc, stringBody_escapeChar, ← escapeText, ih,
      List.reverse_cons, List.append_assoc, List.singleton_append]

/-- What is written between quotes is read from behind the opening one, up to what follows the
closing one. -/
theorem string_escapeText (s : String) (rest : List Char) :
    string (escapeText s.toList ++ '"' :: rest) = .ok (s, rest) := by
  rw [string, stringBody_escapeText, List.reverse_nil, List.nil_append]
  simp [bind, Except.bind, pure, Except.pure]

theorem toList_quote (s : String) : (quote s).toList = '"' :: (escapeText s.toList ++ ['"']) :=
  String.toList_ofList

theorem readString_quote (s : String) (rest : List Char) :
    readString ((quote s).toList ++ rest) = .ok (s, rest) := by
  rw [toList_quote, List.cons_append, List.append_assoc]
  exact string_escapeText s rest

theorem readBool_boolText (b : Bool) (rest : List Char) :
    readBool ((boolText b).toList ++ rest) = .ok (b, rest) := by
  cases b <;> rfl

/-- The characters of a member of an object. -/
def memberText (m : String × String) : List Char := (quote m.1).toList ++ ':' :: m.2.toList

theorem memberText_append (m : String × String) (rest : List Char) :
    memberText m ++ rest =
      '"' :: (escapeText m.1.toList ++ '"' :: ':' :: (m.2.toList ++ rest)) := by
  simp [memberText, toList_quote]

theorem toList_intercalate_cons (s t : String) (ts : List String) :
    (s.intercalate (t :: ts)).toList = t.toList ++ ts.flatMap fun u => s.toList ++ u.toList := by
  induction ts generalizing t with
  | nil => simp
  | cons u ts ih =>
    rw [String.intercalate_cons_cons, String.toList_append, String.toList_append, ih,
      List.flatMap_cons, List.append_assoc, List.append_assoc]

/-- A comma stands in front of every member but the first. -/
theorem toList_objectText_cons (m : String × String) (ms : List (String × String)) :
    (objectText (m :: ms)).toList =
      '{' :: (memberText m ++ ms.flatMap (fun m => ',' :: memberText m) ++ ['}']) := by
  have hmember : ∀ m : String × String, (quote m.1 ++ ":" ++ m.2).toList = memberText m := by
    intro m
    simp [memberText]
  rw [objectText, String.toList_append, String.toList_append, List.map_cons,
    toList_intercalate_cons, List.flatMap_map, hmember]
  simp [hmember]

end SqlCompose.Json
