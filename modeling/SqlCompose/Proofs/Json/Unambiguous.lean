import SqlCompose.Proofs.Json.Writing
import SqlCompose.Proofs.Number.Digits

/-!
The compact text of a value without binary numbers is the text of no other value, also where more
text follows it.
-/
namespace SqlCompose.Json

variable {α : Type} {good : α → Prop} {write : α → List Char} {as bs : List α} {a b : Json}
  {close c : Char} {cs r r' : List Char}

/-- Values in which no binary number stands. -/
inductive Exact : Json → Prop where
  | null : Exact .null
  | bool (b : Bool) : Exact (.bool b)
  | int (n : Int) : Exact (.int n)
  | str (s : String) : Exact (.str s)
  | arr {es : List Json} (h : ∀ e ∈ es, Exact e) : Exact (.arr es)
  | obj {ms : List (String × Json)} (h : ∀ m ∈ ms, Exact m.2) : Exact (.obj ms)

/-- What is written of a value is not the beginning of what is written of another one, whatever else
follows than digits. -/
def Distinct (good : α → Prop) (write : α → List Char) (a : α) : Prop :=
  ∀ b r r', good b → NoDigit r → NoDigit r' → write a ++ r = write b ++ r' → a = b ∧ r = r'

/-- Values with commas between them. -/
def listed (write : α → List Char) : List α → List Char
  | [] => []
  | a :: as => write a ++ as.flatMap fun a => ',' :: write a

theorem noDigit_followers (hclose : close.isDigit = false) (as : List α) (r : List Char) :
    NoDigit (as.flatMap (fun a => ',' :: write a) ++ close :: r) := by
  cases as with
  | nil => exact noDigit_cons hclose r
  | cons a as => exact noDigit_cons rfl _

theorem followers_inj (hclose : close.isDigit = false) (hcomma : close ≠ ',')
    (has : ∀ a ∈ as, Distinct good write a) (hbs : ∀ b ∈ bs, good b)
    (h : as.flatMap (fun a => ',' :: write a) ++ close :: r =
      bs.flatMap (fun b => ',' :: write b) ++ close :: r') : as = bs ∧ r = r' := by
  induction as generalizing bs with
  | nil =>
    cases bs with
    | nil => exact ⟨rfl, (List.cons.inj h).2⟩
    | cons b bs => exact absurd (List.cons.inj h).1 hcomma
  | cons a as ih =>
    cases bs with
    | nil => exact absurd (List.cons.inj h).1.symm hcomma
    | cons b bs =>
      rw [List.forall_mem_cons] at has hbs
      rw [List.flatMap_cons, List.flatMap_cons, List.append_assoc, List.append_assoc] at h
      obtain ⟨rfl, hrest⟩ := has.1 b _ _ hbs.1 (noDigit_followers hclose as r)
        (noDigit_followers hclose bs r') (List.cons.inj h).2
      obtain ⟨rfl, hend⟩ := ih has.2 hbs.2 hrest
      exact ⟨rfl, hend⟩

/-- Neither the values of a sequence nor their number is left open by its text. -/
theorem listed_inj (hclose : close.isDigit = false) (hcomma : close ≠ ',')
    (hopen : ∀ a, good a → ∃ c cs, write a = c :: cs ∧ c ≠ close) (hgood : ∀ a ∈ as, good a)
    (has : ∀ a ∈ as, Distinct good write a) (hbs : ∀ b ∈ bs, good b)
    (h : listed write as ++ close :: r = listed write bs ++ close :: r') : as = bs ∧ r = r' := by
  cases as with
  | nil =>
    cases bs with
    | nil => exact ⟨rfl, (List.cons.inj h).2⟩
    | cons b bs =>
      obtain ⟨c, cs, hb, hne⟩ := hopen b (hbs b List.mem_cons_self)
      rw [listed, listed, hb] at h
      exact absurd (List.cons.inj h).1.symm hne
  | cons a as =>
    cases bs with
    | nil =>
      obtain ⟨c, cs, ha, hne⟩ := hopen a (hgood a List.mem_cons_self)
      rw [listed, listed, ha] at h
      exact absurd (List.cons.inj h).1 hne
    | cons b bs =>
      have hfollowers : (a :: as).flatMap (fun a => ',' :: write a) ++ close :: r =
          (b :: bs).flatMap (fun b => ',' :: write b) ++ close :: r' := by
        simp only [listed, List.append_assoc] at h
        rw [List.flatMap_cons, List.flatMap_cons, List.append_assoc, List.append_assoc]
        exact congrArg (',' :: ·) h
      exact followers_inj hclose hcomma has hbs hfollowers

theorem texts_eq_map (es : List Json) : texts es = es.map text := by
  induction es with
  | nil => rfl
  | cons e es ih => rw [texts, ih, List.map_cons]

theorem memberTexts_eq_map (ms : List (String × Json)) :
    memberTexts ms = ms.map fun m => (m.1, m.2.text) := by
  induction ms with
  | nil => rfl
  | cons m ms ih => rw [memberTexts, ih, List.map_cons]

theorem toList_text_arr (es : List Json) :
    (Json.arr es).text.toList = '[' :: (listed (fun e => e.text.toList) es ++ [']']) := by
  cases es with
  | nil => rfl
  | cons e es =>
    rw [text, texts_eq_map, arrayText, String.toList_append, String.toList_append, List.map_cons,
      toList_intercalate_cons, List.flatMap_map]
    simp [listed]

theorem toList_text_obj (ms : List (String × Json)) :
    (Json.obj ms).text.toList =
      '{' :: (listed (fun m => memberText (m.1, m.2.text)) ms ++ ['}']) := by
  cases ms with
  | nil => rfl
  | cons m ms =>
    rw [text, memberTexts_eq_map, List.map_cons, toList_objectText_cons, List.flatMap_map]
    rfl

/-- The kinds of values that are told apart by how they begin. -/
inductive Kind where
  | null
  | bool
  | number
  | string
  | array
  | object

/-- The kind of the value that begins with a character. -/
def kindAt? (c : Char) : Option Kind :=
  if c = 'n' then some .null
  else if c = 't' ∨ c = 'f' then some .bool
  else if c = '-' ∨ c.isDigit then some .number
  else if c = '"' then some .string
  else if c = '[' then some .array
  else if c = '{' then some .object
  else none

def kind : Json → Kind
  | .null => .null
  | .bool _ => .bool
  | .int _ => .number
  | .float _ => .number
  | .str _ => .string
  | .arr _ => .array
  | .obj _ => .object

theorem kindAt?_digit (h : c.isDigit = true) : kindAt? c = some .number := by
  have hne : ∀ d : Char, d.isDigit = false → c ≠ d := by
    rintro d hd rfl
    exact absurd (h.symm.trans hd) (by decide)
  simp [kindAt?, h, hne 'n' rfl, hne 't' rfl, hne 'f' rfl]

theorem text_head (ha : a.Exact) : ∃ c cs, a.text.toList = c :: cs ∧ kindAt? c = some a.kind := by
  cases ha with
  | null => exact ⟨_, _, rfl, rfl⟩
  | bool b => cases b <;> exact ⟨_, _, rfl, rfl⟩
  | int n =>
    obtain ⟨d, ds, hdigits⟩ := List.exists_cons_of_ne_nil (digits_toDigits n.natAbs).1
    have hd : d.isDigit = true :=
      (digits_toDigits n.natAbs).2 d (hdigits ▸ List.mem_cons_self)
    rw [text, toList_toString_int, minus, hdigits]
    by_cases hn : n < 0
    · rw [if_pos hn]
      exact ⟨_, _, rfl, rfl⟩
    · rw [if_neg hn]
      exact ⟨d, ds, rfl, kindAt?_digit hd⟩
  | str s => exact ⟨_, _, toList_quote s, rfl⟩
  | arr h => exact ⟨_, _, toList_text_arr _, rfl⟩
  | obj h => exact ⟨_, _, toList_text_obj _, rfl⟩

theorem kind_eq (ha : a.Exact) (hb : b.Exact) (h : a.text.toList ++ r = b.text.toList ++ r') :
    a.kind = b.kind := by
  obtain ⟨c, cs, hleft, hc⟩ := text_head ha
  obtain ⟨d, ds, hright, hd⟩ := text_head hb
  rw [hleft, hright] at h
  rw [(List.cons.inj h).1, hd] at hc
  exact (Option.some.inj hc).symm

/-- A character that no value begins with is not taken for the beginning of one. -/
theorem text_opens (hclose : kindAt? close = none) (ha : a.Exact) :
    ∃ c cs, a.text.toList = c :: cs ∧ c ≠ close := by
  obtain ⟨c, cs, htext, hc⟩ := text_head ha
  refine ⟨c, cs, htext, ?_⟩
  rintro rfl
  rw [hclose] at hc
  cases hc

theorem boolText_inj {x y : Bool} (h : (boolText x).toList ++ r = (boolText y).toList ++ r') :
    x = y ∧ r = r' := by
  have hread := readBool_boolText x r
  rw [h, readBool_boolText] at hread
  exact ⟨(Prod.mk.inj (Except.ok.inj hread)).1.symm, (Prod.mk.inj (Except.ok.inj hread)).2.symm⟩

theorem quote_inj {s t : String} (h : (quote s).toList ++ r = (quote t).toList ++ r') :
    s = t ∧ r = r' := by
  have hread := readString_quote s r
  rw [h, readString_quote] at hread
  exact ⟨(Prod.mk.inj (Except.ok.inj hread)).1.symm, (Prod.mk.inj (Except.ok.inj hread)).2.symm⟩

theorem distinct_member {m : String × Json} (h : Distinct Exact (fun a => a.text.toList) m.2) :
    Distinct (fun m : String × Json => m.2.Exact) (fun m => memberText (m.1, m.2.text)) m := by
  intro n r r' hn hr hr' heq
  simp only [memberText, List.append_assoc, List.cons_append] at heq
  obtain ⟨hname, hrest⟩ := quote_inj heq
  obtain ⟨hvalue, hend⟩ := h n.2 r r' hn hr hr' (List.cons.inj hrest).2
  exact ⟨Prod.ext hname hvalue, hend⟩

/-- Every value without binary numbers is told apart from all others of them at the beginning of a text.
-/
theorem text_distinct (ha : a.Exact) : Distinct Exact (fun a => a.text.toList) a := by
  induction ha with
  | null =>
    intro b r r' hb hr hr' h
    have hkind := kind_eq .null hb h
    cases hb <;> cases hkind
    exact ⟨rfl, List.append_cancel_left h⟩
  | bool x =>
    intro b r r' hb hr hr' h
    have hkind := kind_eq (.bool x) hb h
    cases hb <;> cases hkind
    obtain ⟨rfl, hend⟩ := boolText_inj h
    exact ⟨rfl, hend⟩
  | int n =>
    intro b r r' hb hr hr' h
    have hkind := kind_eq (.int n) hb h
    cases hb <;> cases hkind
    obtain ⟨rfl, hend⟩ := toString_int_inj hr hr' h
    exact ⟨rfl, hend⟩
  | str s =>
    intro b r r' hb hr hr' h
    have hkind := kind_eq (.str s) hb h
    cases hb <;> cases hkind
    obtain ⟨rfl, hend⟩ := quote_inj h
    exact ⟨rfl, hend⟩
  | arr has ih =>
    intro b r r' hb hr hr' h
    have hkind := kind_eq (.arr has) hb h
    cases hb <;> cases hkind
    rename_i hbs
    simp only [toList_text_arr, List.cons_append, List.append_assoc, List.nil_append] at h
    obtain ⟨rfl, hend⟩ := listed_inj rfl (by decide) (fun _ => text_opens rfl) has ih hbs
      (List.cons.inj h).2
    exact ⟨rfl, hend⟩
  | obj has ih =>
    intro b r r' hb hr hr' h
    have hkind := kind_eq (.obj has) hb h
    cases hb <;> cases hkind
    rename_i hbs
    have hopen : ∀ m : String × Json, m.2.Exact →
        ∃ c cs, memberText (m.1, m.2.text) = c :: cs ∧ c ≠ '}' :=
      fun m _ => ⟨'"', _, by rw [memberText, toList_quote, List.cons_append], by decide⟩
    simp only [toList_text_obj, List.cons_append, List.append_assoc, List.nil_append] at h
    obtain ⟨rfl, hend⟩ := listed_inj rfl (by decide) hopen has
      (fun m hm => distinct_member (ih m hm)) hbs (List.cons.inj h).2
    exact ⟨rfl, hend⟩

theorem text_inj (ha : a.Exact) (hb : b.Exact) (h : a.text = b.text) : a = b :=
  (text_distinct ha b [] [] hb noDigit_nil noDigit_nil (congrArg (·.toList ++ []) h)).1

theorem sameElements_self {es : List Json} (h : ∀ e ∈ es, e.same e = true) :
    sameElements es es = true := by
  induction es with
  | nil => rfl
  | cons e es ih =>
    rw [List.forall_mem_cons] at h
    rw [sameElements, h.1, ih h.2]
    rfl

theorem sameMembers_self {ms : List (String × Json)} (h : ∀ m ∈ ms, m.2.same m.2 = true) :
    sameMembers ms ms = true := by
  induction ms with
  | nil => rfl
  | cons m ms ih =>
    rw [List.forall_mem_cons] at h
    simp [sameMembers, h.1, ih h.2]

/-- Only binary numbers can differ from themselves. -/
theorem same_self (ha : a.Exact) : a.same a = true := by
  induction ha with
  | null => rfl
  | arr _ ih => exact sameElements_self ih
  | obj _ ih => exact sameMembers_self ih
  | _ => simp [same]

end SqlCompose.Json
