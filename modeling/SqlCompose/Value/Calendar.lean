import SqlCompose.Number.Decimal

/-! Dates of the Gregorian calendar extended to all years, times of day, and both together. -/
namespace SqlCompose

def isLeapYear (y : Int) : Bool := y % 4 == 0 && (y % 100 != 0 || y % 400 == 0)

/-- The number of days in a month; there is none in a month outside the year. -/
def daysIn (y : Int) (month : Nat) : Nat :=
  if month = 2 then (if isLeapYear y then 29 else 28)
  else if month ∈ [4, 6, 9, 11] then 30
  else if month ∈ [1, 3, 5, 7, 8, 10, 12] then 31
  else 0

/-- A day of the calendar; the year before year 1 is year 0. -/
structure Date where
  year : Int
  month : Nat
  day : Nat
  one_le_day : 1 ≤ day
  day_le : day ≤ daysIn year month
deriving DecidableEq, Repr

namespace Date

def of? (year : Int) (month day : Nat) : Option Date :=
  if h : 1 ≤ day ∧ day ≤ daysIn year month then some ⟨year, month, day, h.1, h.2⟩ else none

/-- The year with at least four digits; one that needs more, or is before year 0, has a sign. -/
def yearText (y : Int) : List Char :=
  if 0 ≤ y ∧ y ≤ 9999 then padded 4 y.natAbs
  else (if y < 0 then '-' else '+') :: padded 4 y.natAbs

def chars (d : Date) : List Char :=
  yearText d.year ++ '-' :: (padded 2 d.month ++ '-' :: padded 2 d.day)

def text (d : Date) : String := .ofList d.chars

end Date

/-- A time of day. Nanoseconds that exceed a second make it a time within a leap second, which stands
behind the second. -/
structure Time where
  hour : Nat
  minute : Nat
  second : Nat
  nanosecond : Nat
  hour_lt : hour < 24
  minute_lt : minute < 60
  second_lt : second < 60
  nanosecond_lt : nanosecond < 2000000000
deriving DecidableEq, Repr

namespace Time

/-- The time with the given parts. They give a leap second only at the end of a minute. -/
def of? (hour minute second nanosecond : Nat) : Option Time :=
  if h : hour < 24 ∧ minute < 60 ∧ second < 60 ∧
      (nanosecond < 1000000000 ∨ (second = 59 ∧ nanosecond < 2000000000)) then
    some ⟨hour, minute, second, nanosecond, h.1, h.2.1, h.2.2.1, by omega⟩
  else none

/-- The time with other nanoseconds, which may give a leap second behind any second. -/
def withNanosecond? (t : Time) (nanosecond : Nat) : Option Time :=
  if h : nanosecond < 2000000000 then some { t with nanosecond, nanosecond_lt := h } else none

/-- The fraction of a second with three, six or nine digits, the fewest that are exact, and without
any if it is zero. -/
def fractionText (nanosecond : Nat) : List Char :=
  if nanosecond = 0 then []
  else if nanosecond % 1000000 = 0 then '.' :: padded 3 (nanosecond / 1000000)
  else if nanosecond % 1000 = 0 then '.' :: padded 6 (nanosecond / 1000)
  else '.' :: padded 9 nanosecond

/-- A leap second is written as the second that follows, which is second sixty at the end of a minute. -/
def chars (t : Time) : List Char :=
  padded 2 t.hour ++ ':' :: (padded 2 t.minute ++ ':' ::
    (padded 2 (t.second + t.nanosecond / 1000000000) ++ fractionText (t.nanosecond % 1000000000)))

def text (t : Time) : String := .ofList t.chars

end Time

/-- A time of day on a day, in no particular time zone. -/
structure DateTime where
  date : Date
  time : Time
deriving DecidableEq, Repr

namespace DateTime

def chars (d : DateTime) : List Char := d.date.chars ++ 'T' :: d.time.chars

def text (d : DateTime) : String := .ofList d.chars

/-- The text of the same point of universal time. -/
def utcText (d : DateTime) : String := .ofList (d.chars ++ ['Z'])

end DateTime

end SqlCompose
