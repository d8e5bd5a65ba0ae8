import ArrayKernel.Surface.Fault

/-!
Splitting kernel text into tokens.

The text is a list of octets. `scan` removes blanks and comments and takes the longest word at each
place; what is no word is reported and skipped, so that one pass reports everything that is wrong at
this level.
-/

namespace ArrayKernel.Surface

open Text

attribute [local instance (high)] instPowNat

structure Token where
  lexeme : Lexeme
  span : Span
  deriving DecidableEq, Repr, Inhabited

def isIdentifierStart (c : Char) : Bool := c.isAlpha || c = '_' || c = '$'

def isIdentifierPart (c : Char) : Bool := c.isAlphanum || c = '_' || c = '$'

def maxInteger : Nat := 2 ^ (63 : Nat) - 1

/-- A number as it was read: a lexeme or what is wrong with it, and the number of octets taken. -/
structure NumberRead where
  result : Except Fault Lexeme
  width : Nat
  deriving Repr

/-- The end of a float literal after its digits: `e`, a sign if any, and at least one digit. Gives
the octets taken and the exponent. -/
def readExponent (cs : List Char) : Option (Nat × Int) :=
  match cs with
  | e :: rest =>
    if e = 'e' || e = 'E' then
      let (sign, digits) : Option Char × List Char :=
        match rest with
        | '+' :: r => (some '+', r)
        | '-' :: r => (some '-', r)
        | r => (none, r)
      match digits with
      | d :: _ =>
        if d.isDigit then
          let ds := digits.takeWhile fun c => c.isDigit || c = '_'
          let value := natOfDigits 10 (ds.filter (· != '_'))
          some (1 + sign.toList.length + ds.length, if sign = some '-' then -value else value)
        else none
      | [] => none
    else none
  | [] => none

/-- Reads a decimal number: digits, which may hold underscores, then a fraction and an exponent if
any. -/
def readDecimal (cs : List Char) : NumberRead :=
  let digit (c : Char) : Bool := c.isDigit || c = '_'
  let whole := cs.takeWhile digit
  let afterWhole := cs.dropWhile digit
  let (point, fraction) : Bool × List Char :=
    match afterWhole with
    | '.' :: r => (true, r.takeWhile digit)
    | _ => (false, [])
  let mantissa := whole.length + (if point then 1 + fraction.length else 0)
  let plain (ds : List Char) := ds.filter (· != '_')
  match readExponent (cs.drop mantissa), point with
  | some (width, e), _ =>
    { result := .ok (.float (.ofDecimal false (natOfDigits 10 (plain (whole ++ fraction)))
        (e - (plain fraction).length)))
      width := mantissa + width }
  | none, true =>
    { result := .ok (.float (.ofDecimal false (natOfDigits 10 (plain (whole ++ fraction)))
        (-(plain fraction).length)))
      width := mantissa }
  | none, false =>
    let n := natOfDigits 10 (plain whole)
    { result := if n ≤ maxInteger then .ok (.integer n) else .error .integerTooLarge, width := mantissa }

def readNumber (cs : List Char) : NumberRead :=
  match cs with
  | '0' :: x :: rest =>
    if x = 'x' || x = 'X' then
      let ds := rest.takeWhile isHexDigit
      let n := natOfDigits 16 ds
      { result := if ds != [] && n ≤ maxInteger then .ok (.integer n) else .error .malformedHex
        width := 2 + ds.length }
    else readDecimal cs
  | _ => readDecimal cs

/-- Whether a number starts here: a digit, or a point before a digit. -/
def startsNumber : List Char → Bool
  | '.' :: d :: _ => d.isDigit
  | c :: _ => c.isDigit
  | [] => false

/-- The length of a block comment after its opening mark; `none` if it is never closed. -/
def commentLength : List Char → Option Nat
  | '*' :: '/' :: _ => some 2
  | _ :: rest => (commentLength rest).map (· + 1)
  | [] => none

/-- One step at the head of a text that is not empty: the number of octets it takes, and a word or a
complaint about a stretch of octets, if there is either. -/
structure Lead where
  width : Nat
  word : Option Lexeme := none
  fault : Option (Fault × Nat) := none
  deriving Repr

def lead (c : Char) (rest : List Char) : Lead :=
  if isAsciiSpace c then { width := 1 + (rest.takeWhile isAsciiSpace).length }
  else if c = '/' && rest.head? = some '/' then
    { width := 1 + (rest.takeWhile (· != '\n')).length }
  else if c = '/' && rest.head? = some '*' then
    match commentLength (rest.drop 1) with
    | some n => { width := 2 + n }
    | none => { width := 1 + rest.length, fault := some (.openComment, 1 + rest.length) }
  else if isIdentifierStart c then
    let word := c :: rest.takeWhile isIdentifierPart
    { width := word.length, word := some (.ofWord (String.ofList word)) }
  else if startsNumber (c :: rest) then
    let n := readNumber (c :: rest)
    match n.result with
    | .ok l => { width := n.width, word := some l }
    | .error f => { width := n.width, fault := some (f, n.width), word := some (.integer 0) }
  else match Symbol.read? (c :: rest) with
    | some (s, n) => { width := n, word := some (.symbol s) }
    | none =>
      if c = '\x22' || c = '\x27' || c = '\x60' then
        { width := 1 + min rest.length ((rest.takeWhile (· != c)).length + 1)
          fault := some (.stringLiteral, 1) }
      else { width := 1, fault := some (.strayOctet c, 1) }

structure Scan where
  tokens : List Token := []
  complaints : List Complaint := []
  stop : Nat
  deriving Repr

/-- Scans the octets from position `pos` on. Every step takes at least one octet. -/
def scanFrom (file pos : Nat) (cs : List Char) : Scan :=
  match cs with
  | [] => { stop := pos }
  | c :: rest =>
    let l := lead c rest
    let width := max 1 l.width
    let tail := scanFrom file (pos + width) (rest.drop (width - 1))
    { tokens := (l.word.map fun w => ⟨w, ⟨file, pos, pos + width⟩⟩).toList ++ tail.tokens
      complaints := (l.fault.map fun (f, n) => ⟨f, ⟨file, pos, pos + n⟩⟩).toList ++ tail.complaints
      stop := tail.stop }
termination_by cs.length
decreasing_by simp only [List.length_drop, List.length_cons]; omega

def scan (file : Nat) (source : String) : Scan := scanFrom file 0 (octets source)

end ArrayKernel.Surface
