/-!
White space at the end of a text, the length of a text in bytes, and cutting it to a number of bytes
or in front of a marker.
-/
namespace SqlCompose.Text

/-- The closed ranges of the Unicode property `White_Space`, ascending and apart. -/
def blankRanges : List (Nat × Nat) :=
  [(0x09, 0x0D), (0x20, 0x20), (0x85, 0x85), (0xA0, 0xA0), (0x1680, 0x1680), (0x2000, 0x200A),
   (0x2028, 0x2029), (0x202F, 0x202F), (0x205F, 0x205F), (0x3000, 0x3000)]

def isBlank (c : Char) : Bool := blankRanges.any fun r => r.1 ≤ c.toNat && c.toNat ≤ r.2

/-- The text without the blanks at its end. -/
def trimEnd (cs : List Char) : List Char := (cs.reverse.dropWhile isBlank).reverse

/-- What stands in front of the first occurrence of a marker, or the whole text without one. -/
def cutBefore (marker : List Char) : List Char → List Char
  | [] => []
  | c :: cs => if marker.isPrefixOf (c :: cs) then [] else c :: cutBefore marker cs

/-- The length of the encoding in UTF-8. -/
def byteLength : List Char → Nat
  | [] => 0
  | c :: cs => c.utf8Size + byteLength cs

/-- The place behind a number of bytes of the encoding in UTF-8, if no character goes on there. -/
def boundaryAt? (s : String) (n : Nat) : Option s.Pos :=
  if h : (String.Pos.Raw.mk n).isValid s then
    some ⟨⟨n⟩, String.Pos.Raw.isValid_eq_true_iff.mp h⟩
  else none

/-- The last such place behind at most a number of bytes, sought byte by byte towards the start. A
search that went on in front of the start would have found none. -/
def boundaryFrom? (s : String) : Nat → Option s.Pos
  | 0 => boundaryAt? s 0
  | n + 1 => (boundaryAt? s (n + 1)).or (boundaryFrom? s n)

theorem boundaryAt?_zero (s : String) : boundaryAt? s 0 = some s.startPos := by
  have h : (String.Pos.Raw.mk 0).isValid s = true :=
    String.Pos.Raw.isValid_eq_true_iff.mpr String.Pos.Raw.isValid_zero
  rw [boundaryAt?, dif_pos h]
  rfl

/-- No character goes on at the start, so the search ends there at the latest. -/
theorem isSome_boundaryFrom? (s : String) (n : Nat) : (boundaryFrom? s n).isSome = true := by
  induction n with
  | zero => rw [boundaryFrom?, boundaryAt?_zero, Option.isSome_some]
  | succ n ih => rw [boundaryFrom?, Option.isSome_or, ih, Bool.or_true]

/-- As many whole characters from the start as fit a number of bytes in UTF-8. -/
def takeBytes (n : Nat) (s : String) : String :=
  let stop := (boundaryFrom? s (Nat.min n s.utf8ByteSize)).get (isSome_boundaryFrom? s _)
  (s.sliceTo stop).copy

end SqlCompose.Text
