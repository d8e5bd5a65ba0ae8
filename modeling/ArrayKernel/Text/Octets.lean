/-!
Text as octets. Positions in a source are byte positions of its UTF-8 encoding, so the scanner works
on the list of octets; each octet is held as the character of the same number, which keeps ASCII
patterns readable.
-/

namespace ArrayKernel.Text

/-- The UTF-8 encoding of a text, each byte as the character of that number. -/
def octets (s : String) : List Char :=
  s.toUTF8.toList.map fun b => Char.ofNat b.toNat

/-- ASCII whitespace: space, tab, line feed, form feed, carriage return. -/
def isAsciiSpace (c : Char) : Bool :=
  c = ' ' || c = '\t' || c = '\n' || c = '\x0c' || c = '\r'

def hexDigit? (c : Char) : Option Nat :=
  if '0' ≤ c && c ≤ '9' then some (c.toNat - 48)
  else if 'a' ≤ c && c ≤ 'f' then some (c.toNat - 87)
  else if 'A' ≤ c && c ≤ 'F' then some (c.toNat - 55)
  else none

def isHexDigit (c : Char) : Bool := (hexDigit? c).isSome

/-- Digits read in a base; a character that is no digit counts as zero. -/
def natOfDigits (base : Nat) (cs : List Char) : Nat :=
  cs.foldl (fun n c => n * base + (hexDigit? c).getD 0) 0

/-- Lower-case hexadecimal digits of `n`, at least `width` of them. -/
def hex (width n : Nat) : String :=
  let ds := Nat.toDigits 16 n
  String.ofList (List.replicate (width - ds.length) '0' ++ ds)

/-- Upper-case hexadecimal digits of `n`, at least `width` of them. -/
def upperHex (width n : Nat) : String := (hex width n).toUpper

end ArrayKernel.Text
