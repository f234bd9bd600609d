import SqlCompose.Json.Basic
import SqlCompose.Json.Reading.Literal

/-!
Reading JSON numbers, with one rounding for the digits and one for their scale if a number is no
integer of a word.
-/
namespace SqlCompose.Json

/-- The digits of an unsigned number, and its exponent. -/
structure Numeral where
  whole : List Char
  fraction : List Char := []
  exponent : Option Int := none
deriving DecidableEq, Repr

def digitsOf (cs : List Char) : List Char × List Char :=
  (cs.takeWhile Char.isDigit, cs.dropWhile Char.isDigit)

/-- Takes digits, of which there must be one; `early` is the problem if the text ends instead. -/
def someDigits (early : ReadError) (cs : List Char) : Except ReadError (List Char × List Char) :=
  match digitsOf cs with
  | ([], []) => .error early
  | ([], _ :: _) => .error .malformed
  | found => .ok found

/-- The number with one more digit behind it. -/
def appendDigit (n : Nat) (d : Char) : Nat := 10 * n + (d.toNat - 48)

def digitsValue (ds : List Char) : Nat := ds.foldl appendDigit 0

def exponentPart (early : ReadError) (whole fraction cs : List Char) :
    Except ReadError (Numeral × List Char) :=
  match cs with
  | [] => .ok (⟨whole, fraction, none⟩, [])
  | c :: rest =>
    if c = 'e' ∨ c = 'E' then do
      let (negative, rest) := match rest with
        | '-' :: r => (true, r)
        | '+' :: r => (false, r)
        | r => (false, r)
      let (ds, rest) ← someDigits early rest
      let n : Int := digitsValue ds
      return (⟨whole, fraction, some (if negative then -n else n)⟩, rest)
    else .ok (⟨whole, fraction, none⟩, c :: rest)

def fractionPart (early : ReadError) (whole cs : List Char) :
    Except ReadError (Numeral × List Char) :=
  match cs with
  | '.' :: rest => do
    let (ds, rest) ← someDigits early rest
    exponentPart early whole ds rest
  | _ => exponentPart early whole [] cs

/-- Reads a number behind its sign. No digit may follow a leading zero. -/
def numeral (early : ReadError) (cs : List Char) : Except ReadError (Numeral × List Char) := do
  let (whole, rest) ← someDigits early cs
  if whole.head? = some '0' ∧ 1 < whole.length then throw .malformed
  fractionPart early whole rest

/-- Divides by a power of ten in steps that each stay within the range of powers. -/
def divideByPower (f : Float) (n : Nat) : Float :=
  if f == 0 then f
  else if n ≤ 308 then f / .ofScientific 1 false n
  else divideByPower (f / .ofScientific 1 false 308) (n - 308)
termination_by n

/-- Scales by a power of ten, or `none` beyond the greatest number. -/
def scaleByPower (f : Float) (e : Int) : Option Float :=
  match e with
  | .ofNat n =>
    if f == 0 then some f
    else if 308 < n then none
    else
      let g := f * .ofScientific 1 false n
      if g.isInf then none else some g
  | .negSucc n => some (divideByPower f (n + 1))

/-- Whether a number fits a word of 64 bits. -/
def fitsWord (n : Nat) : Bool := n < Nat.pow 2 64

/-- The leading digits that fit a word, how many whole digits were dropped behind them, and how many
digits of the fraction were taken. -/
def Numeral.gather (n : Numeral) : Nat × Nat × Nat :=
  let (kept, dropped) := n.whole.foldl (fun (kept, dropped) d =>
    let longer := appendDigit kept d
    if dropped = 0 ∧ fitsWord longer then (longer, 0) else (kept, dropped + 1)) (0, 0)
  let (kept, taken, _) := n.fraction.foldl (fun (kept, taken, full) d =>
    let longer := appendDigit kept d
    if !full && fitsWord longer then (longer, taken + 1, false) else (kept, taken, true))
    (kept, 0, false)
  (kept, dropped, taken)

/-- The number of a numeral with its sign. It is an integer if it is written without fraction and
exponent, fits 64 bits and is not a negative zero; otherwise the digits that fit 64 bits are scaled
once by a power of ten. A number that is too large is no JSON. -/
def Numeral.value (n : Numeral) (negative : Bool) : Except ReadError Json :=
  let (kept, dropped, taken) := n.gather
  if n.fraction.isEmpty && n.exponent.isNone && dropped == 0
      && (!negative || (0 < kept && kept ≤ Nat.pow 2 63)) then
    .ok (.int (if negative then -kept else kept))
  else
    match scaleByPower (.ofNat kept) ((n.exponent.getD 0) + dropped - taken) with
    | some f => .ok (.float (if negative then -f else f).toBits)
    | none => .error .malformed

/-- Reads a number behind its sign. -/
def number (negative : Bool) (cs : List Char) : Except ReadError (Json × List Char) := do
  let (n, rest) ← numeral .truncated cs
  return (← n.value negative, rest)

end SqlCompose.Json
