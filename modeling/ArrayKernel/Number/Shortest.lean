import ArrayKernel.Number.Binary64

/-!
The shortest decimal text of a number.

The reals that round to `m · 2 ^ q` form an interval around it, whose ends belong to it when `m` is
even. For one digit, two digits and so on, `shortest` tests the two neighbours of the value on that
decimal grid: the first grid with a hit wins, of two hits the nearer, and of two equally near ones
the upper. `Layout` then decides how the digits are written.
-/

namespace ArrayKernel.Number

attribute [local instance (high)] instPowNat

/-- Decimal digits `d₁ d₂ … dₙ`, as one number, read as `d₁.d₂…dₙ · 10 ^ exponent`. -/
structure Digits where
  digits : Nat
  exponent : Int
  deriving DecidableEq, Repr

/-- The exponent of the power of ten at or below `a / b`, for positive `a` and `b`: found by
stepping up from a lower bound, `gap` steps at most. -/
def ratioLog10 (a b : Nat) : Int :=
  let low : Int := (ratioLog2 a b * 30103).fdiv 100000 - 1
  climb low 4
where
  /-- The largest exponent that is reached from `e` in at most the given number of steps. -/
  climb (e : Int) : Nat → Int
    | 0 => e
    | steps + 1 =>
      let e' := e + 1
      if b * 10 ^ e'.toNat ≤ a * 10 ^ (-e').toNat then climb e' steps else e

/-- Drops trailing zeros, which costs nothing in `d₁.d₂… · 10 ^ e` notation. -/
def stripZeros (n : Nat) : Nat → Nat
  | 0 => n
  | steps + 1 => if n % 10 = 0 && n != 0 then stripZeros (n / 10) steps else n

/-- The interval of reals that round to one number, over a common denominator, and whether its ends
belong. -/
structure Rounds where
  low : Nat
  value : Nat
  high : Nat
  unit : Nat
  closed : Bool
  deriving Repr

/-- The interval that rounds to the magnitude `m · 2 ^ q`. Below a power of two the gap is half as
wide. -/
def Format.rounds (f : Format) (m : Nat) (q : Int) : Rounds :=
  let narrow := m = 2 ^ f.fractionBits && f.leastScale < q
  let (value, unit) := scaled (4 * m) 1 (q - 2)
  let quarter := 2 ^ (q - 2).toNat
  { low := value - (if narrow then quarter else 2 * quarter)
    value
    high := value + 2 * quarter
    unit
    closed := m % 2 = 0 }

namespace Rounds

def has (r : Rounds) (n : Nat) (e : Int) : Bool :=
  let x := n * 10 ^ e.toNat * r.unit
  let scale := 10 ^ (-e).toNat
  if r.closed then r.low * scale ≤ x && x ≤ r.high * scale
  else r.low * scale < x && x < r.high * scale

/-- The hit on the grid of multiples of `10 ^ e`, if there is one. -/
def onGrid (r : Rounds) (e : Int) : Option Nat :=
  let step := 10 ^ e.toNat * r.unit
  let scale := 10 ^ (-e).toNat
  let below := r.value * scale / step
  let rest := r.value * scale % step
  match r.has below e && below != 0, r.has (below + 1) e with
  | true, true => some (if 2 * rest < step then below else below + 1)
  | true, false => some below
  | false, true => some (below + 1)
  | false, false => none

/-- The first grid with a hit, from `count` digits on, trying at most the given number of grids. -/
def search (r : Rounds) (top : Int) (count : Nat) : Nat → Nat × Int
  | 0 => (r.value, 0)
  | grids + 1 =>
    let e := top - count
    match r.onGrid e with
    | some n => (n, e)
    | none => search r top (count + 1) grids

end Rounds

/-- The fewest digits that round to the positive magnitude `m · 2 ^ q`; 17 always suffice for the
formats here. -/
def Format.shortest (f : Format) (m : Nat) (q : Int) : Digits :=
  let r := f.rounds m q
  let (n, e) := r.search (ratioLog10 r.value r.unit) 0 20
  let n' := stripZeros n 20
  { digits := n', exponent := e + (toString n).length - 1 }

/-- How digits are laid out. Exponents from `leastPositional` to `mostPositional` are written
without an exponent mark; a whole number then ends in `wholeSuffix`. -/
structure Layout where
  leastPositional : Int
  mostPositional : Int
  wholeSuffix : String
  infinity : String
  nan : String

namespace Layout

def positional (l : Layout) (ds : String) (exponent : Int) : String :=
  let n := ds.length
  if exponent < 0 then
    "0." ++ String.ofList (List.replicate (-exponent - 1).toNat '0') ++ ds
  else
    let whole := exponent.toNat + 1
    if n ≤ whole then ds ++ String.ofList (List.replicate (whole - n) '0') ++ l.wholeSuffix
    else String.ofList (ds.toList.take whole) ++ "." ++ String.ofList (ds.toList.drop whole)

def scientific (ds : String) (exponent : Int) : String :=
  match ds.toList with
  | d :: rest@(_ :: _) => String.ofList (d :: '.' :: rest) ++ "e" ++ toString exponent
  | _ => ds ++ "e" ++ toString exponent

def write (l : Layout) (f : Format) : Datum → String
  | .nan => l.nan
  | .infinite negative => (if negative then "-" else "") ++ l.infinity
  | .finite negative m q =>
    let sign := if negative then "-" else ""
    if m = 0 then sign ++ "0" ++ l.wholeSuffix
    else
      let d := f.shortest m q
      let ds := toString d.digits
      sign ++ (if l.leastPositional ≤ d.exponent && d.exponent ≤ l.mostPositional then
        l.positional ds d.exponent else scientific ds d.exponent)

/-- The layout of every number that the project writes: positional from `0.0001` up to below `10 ^
16`, whole numbers with `.0`. -/
def standard : Layout :=
  { leastPositional := -4, mostPositional := 15, wholeSuffix := ".0", infinity := "inf", nan := "NaN" }

end Layout

def Binary32.text (x : Binary32) : String := Layout.standard.write .binary32 x.datum

def Binary64.text (x : Binary64) : String := Layout.standard.write .binary64 x.datum

end ArrayKernel.Number
