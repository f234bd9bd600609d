import SqlCompose.Json.Reading.Value

/-!
JSON text as its grammar has it, said without a reader: blanks wherever they may stand, every way to
write a string, numbers of any length and values of any depth.
-/
namespace SqlCompose.Json

/-- Blanks, where the grammar allows them. -/
def Blank (cs : List Char) : Prop := ∀ c ∈ cs, isSpace c = true

/-- Decimal digits, one at least. -/
def Digits (ds : List Char) : Prop := ds ≠ [] ∧ ∀ d ∈ ds, d.isDigit = true

/-- Four hexadecimal digits and the number that they stand for. -/
def FourDigits (ds : List Char) (u : Nat) : Prop := ds.length = 4 ∧ Hex.ofDigits? ds = some u

/-- Whether a character may stand between quotes for itself. -/
def IsPlain (c : Char) : Prop := c ≠ '"' ∧ c ≠ '\\' ∧ ¬ c.toNat < 0x20

instance : DecidablePred IsPlain := fun _ => inferInstanceAs (Decidable (_ ∧ _ ∧ _))

/-- The ways to write a character between quotes: as itself, by a short escape, or by the one or two
units of its encoding in UTF-16. -/
inductive Spells : Char → List Char → Prop where
  | plain {c : Char} (h : IsPlain c) : Spells c [c]
  | short {c d : Char} (h : shortEscape? d = some c) : Spells c ['\\', d]
  | unit {ds : List Char} {u : Nat} (h : FourDigits ds u) (hleading : isLeading u = false)
      (htrailing : isTrailing u = false) : Spells (Char.ofNat u) ('\\' :: 'u' :: ds)
  | pair {ds es : List Char} {u v : Nat} (hu : FourDigits ds u) (hv : FourDigits es v)
      (hleading : isLeading u = true) (htrailing : isTrailing v = true) :
      Spells (Char.ofNat (0x10000 + (u - 0xD800) * 0x400 + (v - 0xDC00)))
        ('\\' :: 'u' :: (ds ++ '\\' :: 'u' :: es))

/-- The ways to write a text, from behind the opening quote to the closing one. -/
inductive Literal : List Char → List Char → Prop where
  | close : Literal [] ['"']
  | char {c : Char} {e s cs : List Char} (h : Spells c e) (hs : Literal s cs) :
      Literal (c :: s) (e ++ cs)

/-- What has the form of a string, from behind the opening quote to the closing one. Any four digits
may stand in an escape here, also those of a unit that stands for no character by itself. -/
inductive IsLiteral : List Char → Prop where
  | close : IsLiteral ['"']
  | plain {c : Char} {cs : List Char} (h : IsPlain c) (hcs : IsLiteral cs) : IsLiteral (c :: cs)
  | short {c d : Char} {cs : List Char} (h : shortEscape? d = some c) (hcs : IsLiteral cs) :
      IsLiteral ('\\' :: d :: cs)
  | unit {ds cs : List Char} {u : Nat} (h : FourDigits ds u) (hcs : IsLiteral cs) :
      IsLiteral ('\\' :: 'u' :: (ds ++ cs))

inductive IsFraction : List Char → Prop where
  | absent : IsFraction []
  | digits {ds : List Char} (h : Digits ds) : IsFraction ('.' :: ds)

inductive IsExponent : List Char → Prop where
  | absent : IsExponent []
  | digits {e : Char} {sign ds : List Char} (he : e = 'e' ∨ e = 'E')
      (hsign : sign ∈ [[], ['+'], ['-']]) (h : Digits ds) : IsExponent (e :: (sign ++ ds))

/-- Numbers without a sign. No digit follows a leading zero. -/
inductive IsNumeral : List Char → Prop where
  | mk {whole fraction exponent : List Char} (hwhole : Digits whole)
      (hzero : whole.head? = some '0' → whole.length = 1) (hfraction : IsFraction fraction)
      (hexponent : IsExponent exponent) : IsNumeral (whole ++ (fraction ++ exponent))

/-- What may lead up to an element or a member: a comma, unless it is the first, and blanks. -/
inductive Lead : Bool → List Char → Prop where
  | first {b : List Char} (h : Blank b) : Lead true b
  | next {b b' : List Char} (h : Blank b) (h' : Blank b') : Lead false (b ++ ',' :: b')

mutual

/-- Values of any kind and depth. -/
inductive IsValue : List Char → Prop where
  | null : IsValue ['n', 'u', 'l', 'l']
  | bool (b : Bool) : IsValue (boolText b).toList
  | number {cs : List Char} (h : IsNumeral cs) : IsValue cs
  | negative {cs : List Char} (h : IsNumeral cs) : IsValue ('-' :: cs)
  | string {cs : List Char} (h : IsLiteral cs) : IsValue ('"' :: cs)
  | array {cs : List Char} (h : IsElements true cs) : IsValue ('[' :: cs)
  | object {cs : List Char} (h : IsMembers true cs) : IsValue ('{' :: cs)

/-- The elements of an array and its end; the flag tells whether the next element is the first. -/
inductive IsElements : Bool → List Char → Prop where
  | close {first : Bool} {b : List Char} (h : Blank b) : IsElements first (b ++ [']'])
  | element {first : Bool} {lead v cs : List Char} (hlead : Lead first lead) (hv : IsValue v)
      (hcs : IsElements false cs) : IsElements first (lead ++ (v ++ cs))

/-- The members of an object and its end. -/
inductive IsMembers : Bool → List Char → Prop where
  | close {first : Bool} {b : List Char} (h : Blank b) : IsMembers first (b ++ ['}'])
  | member {first : Bool} {lead name b b' v cs : List Char} (hlead : Lead first lead)
      (hname : IsLiteral name) (hb : Blank b) (hb' : Blank b') (hv : IsValue v)
      (hcs : IsMembers false cs) :
      IsMembers first (lead ++ '"' :: (name ++ (b ++ ':' :: (b' ++ (v ++ cs)))))

end

variable {first : Bool} {b lead cs v : List Char} {c : Char}

/-- No number can go on with what follows. -/
def Stops (cs : List Char) : Prop :=
  ∀ c ∈ cs.head?, c.isDigit = false ∧ c ≠ '.' ∧ c ≠ 'e' ∧ c ≠ 'E'

/-- No digit stands at the beginning. -/
def NoDigit (cs : List Char) : Prop := ∀ c ∈ cs.head?, c.isDigit = false

theorem Stops.noDigit (h : Stops cs) : NoDigit cs := fun c hc => (h c hc).1

theorem noDigit_nil : NoDigit [] := fun _ hc => nomatch hc

theorem noDigit_cons (hc : c.isDigit = false) (cs : List Char) : NoDigit (c :: cs) := by
  intro d hd
  obtain rfl : c = d := Option.some.inj hd
  exact hc

theorem isSpace_iff : isSpace c = true ↔ c = ' ' ∨ c = '\n' ∨ c = '\t' ∨ c = '\r' := by
  simp [isSpace, or_assoc]

theorem IsNumeral.head (h : IsNumeral cs) : ∃ d ds, cs = d :: ds ∧ d.isDigit = true := by
  obtain @⟨whole, fraction, exponent, hwhole, -, -, -⟩ := h
  obtain ⟨d, ds, rfl⟩ := List.exists_cons_of_ne_nil hwhole.1
  exact ⟨d, _, rfl, hwhole.2 d List.mem_cons_self⟩

/-- Characters that need no escape may all stand for themselves. -/
theorem literal_of_plain {s : List Char} (h : s.all (IsPlain ·) = true) :
    Literal s (s ++ ['"']) := by
  induction s with
  | nil => exact .close
  | cons c s ih =>
    rw [List.all_cons, Bool.and_eq_true, decide_eq_true_iff] at h
    exact .char (e := [c]) (.plain h.1) (ih h.2)

/-- A value begins with a character that is neither a blank nor the end of an array. -/
theorem IsValue.head (hv : IsValue v) :
    ∃ c cs, v = c :: cs ∧ isSpace c = false ∧ c ≠ ']' := by
  cases hv with
  | number h =>
    obtain ⟨d, ds, rfl, hd⟩ := h.head
    refine ⟨d, ds, rfl, ?_, by rintro rfl; exact absurd hd (by decide)⟩
    rw [Bool.eq_false_iff]
    intro hspace
    rcases isSpace_iff.mp hspace with rfl | rfl | rfl | rfl <;> exact absurd hd (by decide)
  | bool b => cases b <;> exact ⟨_, _, rfl, by decide, by decide⟩
  | _ => exact ⟨_, _, rfl, by decide, by decide⟩

theorem IsElements.ne_nil (h : IsElements first cs) : cs ≠ [] := by
  cases h with
  | close hb => simp
  | element hlead hv hcs =>
    obtain ⟨c, v, rfl, -⟩ := hv.head
    simp

theorem IsMembers.ne_nil (h : IsMembers first cs) : cs ≠ [] := by
  cases h <;> simp

theorem stops_blank_cons (hb : Blank b) (hc : ¬ c.isDigit ∧ c ≠ '.' ∧ c ≠ 'e' ∧ c ≠ 'E')
    (cs : List Char) : Stops (b ++ c :: cs) := by
  intro d hd
  cases b with
  | nil =>
    obtain rfl : c = d := Option.some.inj hd
    simpa using hc
  | cons a b =>
    obtain rfl : a = d := Option.some.inj hd
    rcases isSpace_iff.mp (hb a List.mem_cons_self) with rfl | rfl | rfl | rfl <;> decide

theorem Lead.stops (h : Lead false lead) (cs : List Char) : Stops (lead ++ cs) := by
  cases h with
  | next hb hb' =>
    rw [List.append_assoc]
    exact stops_blank_cons hb (by decide) _

theorem IsElements.stops (h : IsElements false cs) (rest : List Char) : Stops (cs ++ rest) := by
  cases h with
  | close hb =>
    rw [List.append_assoc]
    exact stops_blank_cons hb (by decide) _
  | element hlead hv hcs =>
    rw [List.append_assoc]
    exact hlead.stops _

theorem IsMembers.stops (h : IsMembers false cs) (rest : List Char) : Stops (cs ++ rest) := by
  cases h with
  | close hb =>
    rw [List.append_assoc]
    exact stops_blank_cons hb (by decide) _
  | member hlead hname hb hb' hv hcs =>
    rw [List.append_assoc]
    exact hlead.stops _

end SqlCompose.Json
