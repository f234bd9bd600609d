/-!
Patterns of the `like` operator, in which `%` stands for any text and `_` for any one character
unless a backslash is in front.
-/
namespace SqlCompose.Like

/-- Makes each `%` literal. A backslash or `_` in the value keeps its meaning in the pattern. -/
def escape (value : List Char) : List Char :=
  value.flatMap fun c => if c = '%' then ['\\', '%'] else [c]

/-- Where a value is sought in a text. -/
inductive Anchor where
  | atStart
  | atEnd
  | anywhere
deriving DecidableEq, Repr

/-- The pattern for the texts that hold the value at the given place. -/
def Anchor.pattern (a : Anchor) (value : List Char) : List Char :=
  match a with
  | .atStart => escape value ++ ['%']
  | .atEnd => '%' :: escape value
  | .anywhere => '%' :: (escape value ++ ['%'])

/-- The texts that a pattern stands for. A backslash at the end of a pattern is literal. -/
inductive Matches : List Char → List Char → Prop where
  | nil : Matches [] []
  | escaped {c : Char} {p s : List Char} : Matches p s → Matches ('\\' :: c :: p) (c :: s)
  | lone : Matches ['\\'] ['\\']
  | anyText {p s : List Char} (t : List Char) : Matches p s → Matches ('%' :: p) (t ++ s)
  | anyOne {c : Char} {p s : List Char} : Matches p s → Matches ('_' :: p) (c :: s)
  | literal {c : Char} {p s : List Char} :
      c ≠ '\\' → c ≠ '%' → c ≠ '_' → Matches p s → Matches (c :: p) (c :: s)

/-- Escaping works character by character. -/
@[simp] theorem escape_append (v w : List Char) : escape (v ++ w) = escape v ++ escape w := by
  simp [escape]

@[simp] theorem escape_nil : escape [] = [] := rfl

theorem escape_percent_cons (v : List Char) : escape ('%' :: v) = '\\' :: '%' :: escape v := rfl

theorem escape_cons {c : Char} (hc : c ≠ '%') (v : List Char) : escape (c :: v) = c :: escape v := by
  simp [escape, hc]

end SqlCompose.Like
