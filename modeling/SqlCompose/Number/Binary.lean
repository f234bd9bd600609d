/-!
Binary floating-point numbers as bit patterns, and the shortest decimal that reads back to one.
-/
namespace SqlCompose

/-- The widths of a binary interchange format. -/
structure BinaryFormat where
  fractionBits : Nat
  exponentBits : Nat
deriving DecidableEq, Repr

namespace BinaryFormat

/-- The format of 32 bits. -/
def single : BinaryFormat := ⟨23, 8⟩

/-- The format of 64 bits. -/
def double : BinaryFormat := ⟨52, 11⟩

variable (f : BinaryFormat)

/-- The exponent field with all bits set, which marks NaN and the infinities. -/
def topExponent : Nat := Nat.pow 2 f.exponentBits - 1

def fraction (bits : Nat) : Nat := bits % Nat.pow 2 f.fractionBits

def exponent (bits : Nat) : Nat := bits / Nat.pow 2 f.fractionBits % Nat.pow 2 f.exponentBits

def isNegative (bits : Nat) : Bool :=
  bits / Nat.pow 2 (f.fractionBits + f.exponentBits) % 2 == 1

def isFinite (bits : Nat) : Bool := f.exponent bits != f.topExponent

def isNaN (bits : Nat) : Bool := f.exponent bits == f.topExponent && f.fraction bits != 0

def isZero (bits : Nat) : Bool := f.exponent bits == 0 && f.fraction bits == 0

/-- Whether two patterns stand for the same number. -/
def same (a b : Nat) : Bool :=
  !f.isNaN a && !f.isNaN b && (a == b || (f.isZero a && f.isZero b))

/-- The significand and the power of two of a finite pattern: its magnitude is `m * 2 ^ q`. -/
def magnitude (bits : Nat) : Nat × Int :=
  let bias := Nat.pow 2 (f.exponentBits - 1) - 1 + f.fractionBits
  if f.exponent bits = 0 then (f.fraction bits, 1 - bias)
  else (Nat.pow 2 f.fractionBits + f.fraction bits, f.exponent bits - bias)

/-- Whether the neighbour below is only half as far away as the neighbour above, as it is at a
power of two, the least normal number excepted. -/
def narrowBelow (bits : Nat) : Bool := f.fraction bits == 0 && 1 < f.exponent bits

end BinaryFormat

namespace Shortest

/-- A positive integer with the interval of numbers that may stand for it. The number to be written and
the ends of the reals that round to it are scaled by one power of ten that makes all three integers. -/
structure Target where
  low : Nat
  value : Nat
  high : Nat
  /-- Whether the ends belong to the interval. -/
  closed : Bool
deriving DecidableEq, Repr

def Target.contains (t : Target) (n : Nat) : Bool :=
  if t.closed then t.low ≤ n && n ≤ t.high else t.low < n && n < t.high

/-- The digits of the first multiple of a power of ten in the interval, from `10 ^ j` down, with
the power found. Of two multiples that fit the nearer one is taken, and the even one if both are as
near. At the power zero the value itself fits, so the search ends there. -/
def search (t : Target) : Nat → Nat × Nat
  | 0 => (t.value, 0)
  | j + 1 =>
    let unit := Nat.pow 10 (j + 1)
    let d := t.value / unit
    match t.contains (d * unit), t.contains ((d + 1) * unit) with
    | true, false => (d, j + 1)
    | false, true => (d + 1, j + 1)
    | true, true =>
      match compare (2 * t.value) ((2 * d + 1) * unit) with
      | .lt => (d, j + 1)
      | .gt => (d + 1, j + 1)
      | .eq => if d % 2 = 0 then (d, j + 1) else (d + 1, j + 1)
    | false, false => search t j

/-- Decimal digits without trailing zeros, and the power of ten of the first digit. -/
structure Digits where
  digits : List Char
  exponent : Int
deriving DecidableEq, Repr

/-- The number of decimal digits. -/
def width (n : Nat) : Nat := (Nat.toDigits 10 n).length

/-- The digits of `n * 10 ^ e`. -/
def Digits.ofScaled (n : Nat) (e : Int) : Digits where
  digits := ((Nat.toDigits 10 n).reverse.dropWhile (· == '0')).reverse
  exponent := e + width n - 1

/-- The power of ten that makes a quarter of `2 ^ q` an integer. -/
def scale (q : Int) : Nat := (2 - q).toNat

/-- The magnitude `m * 2 ^ q`, times ten to the power `scale q`, with its rounding interval: half
the gap to each neighbour, ends included for an even significand. -/
def target (m : Nat) (q : Int) (narrow : Bool) : Target :=
  let quarter := Nat.pow 5 (scale q) * Nat.pow 2 (q - 2 + scale q).toNat
  { low := (4 * m - if narrow then 1 else 2) * quarter
    value := 4 * m * quarter
    high := (4 * m + 2) * quarter
    closed := m % 2 == 0 }

/-- The shortest digits of a finite nonzero magnitude, nearest to it among the shortest. -/
def ofMagnitude (m : Nat) (q : Int) (narrow : Bool) : Digits :=
  let t := target m q narrow
  let (n, j) := search t (width t.value - 1)
  .ofScaled n (j - scale q)

end Shortest

end SqlCompose
