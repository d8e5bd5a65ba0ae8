import ArrayKernel.Text.Octets

/-!
Dates and times of TOML documents, and the text of each.
-/

namespace ArrayKernel.Toml

open Text

structure Day where
  year : Nat
  month : Nat
  day : Nat
  deriving DecidableEq, Repr, Inhabited

structure Clock where
  hour : Nat
  minute : Nat
  second : Nat
  nanosecond : Nat
  deriving DecidableEq, Repr, Inhabited

inductive Zone where
  | universal
  | ahead (minutes : Int)
  deriving DecidableEq, Repr, Inhabited

structure DateTime where
  day : Option Day := none
  clock : Option Clock := none
  zone : Option Zone := none
  deriving DecidableEq, Repr, Inhabited

def padded (width n : Nat) : String :=
  let ds := Nat.toDigits 10 n
  String.ofList (List.replicate (width - ds.length) '0' ++ ds)

/-- The number of nanoseconds that the digits after the point of a second stand for. Those past the
ninth do not count. -/
def nanosecondsOf (digits : List Char) : Nat :=
  natOfDigits 10 ((digits ++ List.replicate 9 '0').take 9)

/-- The digits after the point of a second, with the point. There is none on a whole second. -/
def fractionText (nanosecond : Nat) : String :=
  if nanosecond = 0 then ""
  else "." ++ String.ofList ((padded 9 nanosecond).toList.reverse.dropWhile (· = '0')).reverse

def Day.text (d : Day) : String :=
  padded 4 d.year ++ "-" ++ padded 2 d.month ++ "-" ++ padded 2 d.day

def Clock.text (c : Clock) : String :=
  padded 2 c.hour ++ ":" ++ padded 2 c.minute ++ ":" ++ padded 2 c.second ++ fractionText c.nanosecond

def Zone.text : Zone → String
  | universal => "Z"
  | ahead m => (if m < 0 then "-" else "+") ++ padded 2 (m.natAbs / 60) ++ ":" ++ padded 2 (m.natAbs % 60)

/-- The text of a date: what it has of day, time of day and zone, with a `T` between the first two.
-/
def DateTime.text (d : DateTime) : String :=
  let mark := if d.day.isSome && d.clock.isSome then "T" else ""
  (d.day.map Day.text).getD "" ++ mark ++ (d.clock.map Clock.text).getD "" ++ (d.zone.map Zone.text).getD ""

def daysIn (year month : Nat) : Nat :=
  if month = 2 then if year % 4 = 0 && (year % 100 ≠ 0 || year % 400 = 0) then 29 else 28
  else if month = 4 || month = 6 || month = 9 || month = 11 then 30
  else 31

end ArrayKernel.Toml
