import SqlCompose.Number.Binary

/-!
How numbers are written: naturals in digits of a fixed width, binary numbers with their shortest
digits, and scaled integers with their places.
-/
namespace SqlCompose

/-- Decimal digits with zeros in front up to a width; a wider number keeps all its digits. -/
def padded (width n : Nat) : List Char :=
  let digits := Nat.toDigits 10 n
  List.replicate (width - digits.length) '0' ++ digits

namespace Hex

/-- A hexadecimal digit in lower case. -/
def digit (n : Nat) : Char := if n < 10 then Char.ofNat (48 + n) else Char.ofNat (87 + n)

/-- The value of a hexadecimal digit of either case. -/
def value? (c : Char) : Option Nat :=
  if '0' ≤ c ∧ c ≤ '9' then some (c.toNat - 48)
  else if 'a' ≤ c ∧ c ≤ 'f' then some (c.toNat - 87)
  else if 'A' ≤ c ∧ c ≤ 'F' then some (c.toNat - 55)
  else none

/-- The last digits of a number, as many as asked for. -/
def digits : Nat → Nat → List Char
  | 0, _ => []
  | k + 1, n => digits k (n / 16) ++ [digit (n % 16)]

/-- The number of some digits, the most significant first. -/
def ofDigits? (cs : List Char) : Option Nat :=
  cs.foldlM (fun n c => (value? c).map (16 * n + ·)) 0

theorem value?_digit {n : Nat} (h : n < 16) : value? (digit n) = some n := by
  have all : ∀ i : Fin 16, value? (digit i) = some i.val := by decide
  exact all ⟨n, h⟩

end Hex

/-- The powers of ten of a first digit, from `least` to `greatest`, that are written positionally.
-/
structure PlainRange where
  least : Int
  greatest : Int
deriving DecidableEq, Repr

/-- Numbers of 32 bits are positional from `10 ^ -6` to below `10 ^ 13`. -/
def PlainRange.single : PlainRange := ⟨-6, 12⟩

/-- Numbers of 64 bits are positional from `10 ^ -5` to below `10 ^ 16`. -/
def PlainRange.double : PlainRange := ⟨-5, 15⟩

namespace Shortest.Digits

/-- Positional notation with at least one digit on each side of the point. -/
def plain (d : Digits) : List Char :=
  match d.exponent with
  | .ofNat e =>
    let whole := d.digits.take (e + 1)
    let rest := d.digits.drop (e + 1)
    whole ++ List.replicate (e + 1 - whole.length) '0'
      ++ '.' :: (if rest.isEmpty then ['0'] else rest)
  | .negSucc e => '0' :: '.' :: (List.replicate e '0' ++ d.digits)

/-- One digit, the others behind a point if there are any, and the exponent with its sign. -/
def scientific (d : Digits) : List Char :=
  let sign := if d.exponent < 0 then '-' else '+'
  let others := d.digits.drop 1
  d.digits.take 1 ++ (if others.isEmpty then [] else '.' :: others)
    ++ 'e' :: sign :: Nat.toDigits 10 d.exponent.natAbs

def write (r : PlainRange) (d : Digits) : List Char :=
  if r.least ≤ d.exponent ∧ d.exponent ≤ r.greatest then d.plain else d.scientific

end Shortest.Digits

/-- The text of a bit pattern with the fewest digits that read back to it, if it stands for a finite
number. Both zeros keep their sign. -/
def BinaryFormat.write? (f : BinaryFormat) (r : PlainRange) (bits : Nat) : Option String :=
  if f.isFinite bits then
    let sign := if f.isNegative bits then ['-'] else []
    let (m, q) := f.magnitude bits
    let digits := if m = 0 then "0.0".toList
      else (Shortest.ofMagnitude m q (f.narrowBelow bits)).write r
    some (String.ofList (sign ++ digits))
  else none

/-- The integer `magnitude` over ten to the power `places`, with a sign that zero may have as well. -/
structure Decimal where
  negative : Bool
  magnitude : Nat
  places : Nat
deriving DecidableEq, Repr

namespace Decimal

/-- The decimal without a sign on zero. -/
def ofInt (n : Int) (places : Nat) : Decimal := ⟨decide (n < 0), n.natAbs, places⟩

/-- The integer that stands over the power of ten. -/
def mantissa (d : Decimal) : Int := if d.negative then -d.magnitude else d.magnitude

/-- Whether two decimals are the same number, whatever their places and whatever sign a zero has. -/
def same (a b : Decimal) : Bool :=
  a.mantissa * Nat.pow 10 b.places == b.mantissa * Nat.pow 10 a.places

/-- Exactly `places` digits behind the point, and no point if there are none. -/
def write (d : Decimal) : String :=
  let digits := padded (d.places + 1) d.magnitude
  let whole := digits.take (digits.length - d.places)
  let fraction := digits.drop (digits.length - d.places)
  String.ofList ((if d.negative then ['-'] else []) ++ whole
    ++ (if fraction.isEmpty then [] else '.' :: fraction))

end Decimal

end SqlCompose
