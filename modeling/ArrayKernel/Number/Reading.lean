import ArrayKernel.Number.Binary64
import ArrayKernel.Text.Octets

/-!
Numbers written in decimal: whole numbers with a sign, and floating-point numbers with a fraction
and an exponent.
-/

namespace ArrayKernel.Number

open Text

/-- The number that decimal digits stand for; there must be at least one. -/
def readDigits? (cs : List Char) : Option Nat :=
  if cs != [] && cs.all Char.isDigit then some (natOfDigits 10 cs) else none

def readNat? (cs : List Char) : Option Nat :=
  match cs with
  | '+' :: ds => readDigits? ds
  | ds => readDigits? ds

def readNatBelow? (limit : Nat) (cs : List Char) : Option Nat :=
  (readNat? cs).bind fun n => if n < limit then some n else none

def readInt? (lo hi : Int) (cs : List Char) : Option Int :=
  let value : Option Int :=
    match cs with
    | '-' :: ds => (readDigits? ds).map fun n => -(n : Int)
    | ds => (readNat? ds).map fun n => (n : Int)
  value.bind fun n => if lo ≤ n && n ≤ hi then some n else none

inductive Decimal where
  | nan (negative : Bool)
  | infinite (negative : Bool)
  | finite (negative : Bool) (digits : Nat) (exponent : Int)
  deriving DecidableEq, Repr

def readExponent? (cs : List Char) : Option Int :=
  match cs with
  | '-' :: ds => (readDigits? ds).map fun n => -(n : Int)
  | '+' :: ds => (readDigits? ds).map fun n => (n : Int)
  | ds => (readDigits? ds).map fun n => (n : Int)

/-- Reads an unsigned number: digits around a point, at least one of them, and perhaps an exponent.
-/
def readUnsigned? (negative : Bool) (cs : List Char) : Option Decimal :=
  let whole := cs.takeWhile Char.isDigit
  let afterWhole := cs.dropWhile Char.isDigit
  let (fraction, rest) : List Char × List Char :=
    match afterWhole with
    | '.' :: r => (r.takeWhile Char.isDigit, r.dropWhile Char.isDigit)
    | r => ([], r)
  if whole.isEmpty && fraction.isEmpty then none
  else
    let digits := natOfDigits 10 (whole ++ fraction)
    match rest with
    | [] => some (.finite negative digits (-fraction.length))
    | e :: r =>
      if e = 'e' || e = 'E' then
        (readExponent? r).map fun x => .finite negative digits (x - fraction.length)
      else none

/-- Reads a number: a sign if any, then digits, or the word for infinity or for no number in any
case. -/
def Decimal.read? (cs : List Char) : Option Decimal :=
  let (negative, body) : Bool × List Char :=
    match cs with
    | '-' :: r => (true, r)
    | '+' :: r => (false, r)
    | r => (false, r)
  let word := (String.ofList body).toLower
  if word = "inf" || word = "infinity" then some (.infinite negative)
  else if word = "nan" then some (.nan negative)
  else readUnsigned? negative body

def Decimal.toBinary32 : Decimal → Binary32
  | .nan negative => Binary32.ofBits (Format.binary32.signed negative 0x7FC00000)
  | .infinite negative => Binary32.infinity negative
  | .finite negative m e => Binary32.ofDecimal negative m e

def Decimal.toBinary64 : Decimal → Binary64
  | .nan negative => Binary64.nan negative
  | .infinite negative => Binary64.infinity negative
  | .finite negative m e => Binary64.ofDecimal negative m e

end ArrayKernel.Number
