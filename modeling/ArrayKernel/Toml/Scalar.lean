import ArrayKernel.Number.Reading
import ArrayKernel.Text.Octets
import ArrayKernel.Toml.Value

/-!
Reading the strings, numbers and dates of TOML documents.
-/

namespace ArrayKernel.Toml

open Number Text

attribute [local instance (high)] instPowNat

abbrev Parse := StateT (List Char) Option

namespace Parse

def peek : Parse (Option Char) := return (← get).head?

def token (text : String) : Parse Unit := do
  let cs ← get
  if text.toList.isPrefixOf cs then set (cs.drop text.length) else failure

def optionalToken (text : String) : Parse Bool := do
  let cs ← get
  if text.toList.isPrefixOf cs then
    set (cs.drop text.length)
    return true
  else return false

def takeWhile (p : Char → Bool) : Parse (List Char) := do
  let cs ← get
  set (cs.dropWhile p)
  return cs.takeWhile p

def ofFunction {α : Type} (f : List Char → Option (α × List Char)) : Parse α := f

end Parse

open Parse

/-! ## Blanks and comments -/

def isSpace (c : Char) : Bool := c = ' ' || c = '\t'

def spaces : Parse Unit := discard <| takeWhile isSpace

def isNonAscii (c : Char) : Bool := 0x80 ≤ c.toNat

def isCommentChar (c : Char) : Bool := c = '\t' || (' ' ≤ c && c ≤ '~') || isNonAscii c

def newline : Parse Unit := do
  if !(← optionalToken "\n") then token "\r\n"

def comment : Parse Unit := do
  token "#"
  discard <| takeWhile isCommentChar

def lineEnd : Parse Unit := do
  match ← peek with
  | none => pure ()
  | some _ => newline

def lineTail : Parse Unit := do
  spaces
  if (← peek) = some '#' then comment
  lineEnd

/-! ## Strings -/

def simpleEscape? : Char → Option Char
  | 'b' => some '\x08'
  | 't' => some '\t'
  | 'n' => some '\n'
  | 'f' => some '\x0c'
  | 'r' => some '\r'
  | '\x22' => some '\x22'
  | '\\' => some '\\'
  | _ => none

def codePoint? (digits : List Char) : Option Char := do
  let ds ← digits.mapM hexDigit?
  let n := ds.foldl (fun n d => 16 * n + d) 0
  if n.isValidChar then some (Char.ofNat n) else none

def consRead (c : Char) (r : Option (List Char × List Char)) : Option (List Char × List Char) :=
  r.map fun (s, rest) => (c :: s, rest)

def basicBody : List Char → Option (List Char × List Char)
  | [] => none
  | '\x22' :: rest => some ([], rest)
  | '\\' :: 'u' :: a :: b :: c :: d :: rest =>
    (codePoint? [a, b, c, d]).bind fun x => consRead x (basicBody rest)
  | '\\' :: 'U' :: a :: b :: c :: d :: e :: f :: g :: h :: rest =>
    (codePoint? [a, b, c, d, e, f, g, h]).bind fun x => consRead x (basicBody rest)
  | '\\' :: c :: rest => (simpleEscape? c).bind fun x => consRead x (basicBody rest)
  | c :: rest => if c ≠ '\\' && isCommentChar c then consRead c (basicBody rest) else none

def endsLine (cs : List Char) : Bool :=
  match cs.dropWhile isSpace with
  | '\n' :: _ | '\r' :: '\n' :: _ => true
  | _ => false

/-- The rest of a string of several lines in double quotes. A backslash at the end of a line drops
all blanks up to the next character; `skip` says that this is going on. Two quotes may stand before
the closing three. -/
def longBasicBody (skip : Bool) : List Char → Option (List Char × List Char)
  | [] => none
  | '\x22' :: '\x22' :: '\x22' :: '\x22' :: '\x22' :: rest => some (['\x22', '\x22'], rest)
  | '\x22' :: '\x22' :: '\x22' :: '\x22' :: rest => some (['\x22'], rest)
  | '\x22' :: '\x22' :: '\x22' :: rest => some ([], rest)
  | '\\' :: 'u' :: a :: b :: c :: d :: rest =>
    (codePoint? [a, b, c, d]).bind fun x => consRead x (longBasicBody false rest)
  | '\\' :: 'U' :: a :: b :: c :: d :: e :: f :: g :: h :: rest =>
    (codePoint? [a, b, c, d, e, f, g, h]).bind fun x => consRead x (longBasicBody false rest)
  | '\\' :: c :: rest =>
    if endsLine (c :: rest) then longBasicBody true (c :: rest)
    else (simpleEscape? c).bind fun x => consRead x (longBasicBody false rest)
  | '\r' :: '\n' :: rest => if skip then longBasicBody true rest else consRead '\n' (longBasicBody false rest)
  | c :: rest =>
    if c = '\n' || isSpace c then
      if skip then longBasicBody true rest else consRead c (longBasicBody false rest)
    else if c ≠ '\\' && isCommentChar c then consRead c (longBasicBody false rest)
    else none

def literalBody : List Char → Option (List Char × List Char)
  | [] => none
  | '\x27' :: rest => some ([], rest)
  | c :: rest => if isCommentChar c then consRead c (literalBody rest) else none

def longLiteralBody : List Char → Option (List Char × List Char)
  | [] => none
  | '\x27' :: '\x27' :: '\x27' :: '\x27' :: '\x27' :: rest => some (['\x27', '\x27'], rest)
  | '\x27' :: '\x27' :: '\x27' :: '\x27' :: rest => some (['\x27'], rest)
  | '\x27' :: '\x27' :: '\x27' :: rest => some ([], rest)
  | '\r' :: '\n' :: rest => consRead '\n' (longLiteralBody rest)
  | c :: rest => if c = '\n' || isCommentChar c then consRead c (longLiteralBody rest) else none

def dropNewline : List Char → List Char
  | '\n' :: rest | '\r' :: '\n' :: rest => rest
  | cs => cs

def shortString : Parse String := ofFunction fun
  | '\x22' :: rest => (basicBody rest).map fun (s, r) => (String.ofList s, r)
  | '\x27' :: rest => (literalBody rest).map fun (s, r) => (String.ofList s, r)
  | _ => none

def stringValue : Parse String := ofFunction fun
  | '\x22' :: '\x22' :: '\x22' :: rest =>
    (longBasicBody false (dropNewline rest)).map fun (s, r) => (String.ofList s, r)
  | '\x27' :: '\x27' :: '\x27' :: rest =>
    (longLiteralBody (dropNewline rest)).map fun (s, r) => (String.ofList s, r)
  | cs => shortString cs

/-! ## Numbers -/

def moreDigits (ok : Char → Bool) : List Char → Option (List Char × List Char)
  | [] => some ([], [])
  | '_' :: c :: rest => if ok c then consRead c (moreDigits ok rest) else none
  | c :: rest =>
    if ok c then consRead c (moreDigits ok rest)
    else if c = '_' then none
    else some ([], c :: rest)

def digits (ok : Char → Bool) : Parse (List Char) := ofFunction fun
  | c :: rest => if ok c then consRead c (moreDigits ok rest) else none
  | [] => none

def plainDigits : Parse (List Char) := do
  if ← optionalToken "0" then return ['0'] else digits Char.isDigit

def sign : Parse (List Char) := do
  if ← optionalToken "+" then return ['+']
  else if ← optionalToken "-" then return ['-']
  else return []

def exponent : Parse (List Char) := do
  match ← peek with
  | some 'e' | some 'E' =>
    modify (·.drop 1)
    let s ← sign
    return 'e' :: s ++ (← digits Char.isDigit)
  | _ => return []

def fraction : Parse (List Char) := do
  if ← optionalToken "." then return '.' :: (← digits Char.isDigit) else return []

/-- A float of a given text. It must not be too large to be finite, unless it is negative. -/
def floatOf (text : List Char) : Parse Toml := do
  match (Decimal.read? text).map Decimal.toBinary64 with
  | some v => if v = .infinity false then failure else return .float v
  | none => failure

def integerOf (text : List Char) : Parse Toml := do
  match readInt? (-2 ^ (63 : Nat)) (2 ^ (63 : Nat) - 1) text with
  | some v => return .integer v
  | none => failure

def radixInteger (base : Nat) (ok : Char → Bool) : Parse Toml := do
  let ds ← digits ok
  let n := (ds.filterMap hexDigit?).foldl (fun n d => base * n + d) 0
  if n < 2 ^ (63 : Nat) then return .integer n else failure

def decimal : Parse Toml := do
  let s ← sign
  let negative := s = ['-']
  if ← optionalToken "inf" then return .float (.infinity negative)
  else if ← optionalToken "nan" then return .float (.nan negative)
  else
    let whole ← plainDigits
    let f ← fraction
    let e ← exponent
    if f.isEmpty && e.isEmpty then integerOf (s ++ whole) else floatOf (s ++ whole ++ f ++ e)

def number : Parse Toml := do
  if ← optionalToken "0x" then radixInteger 16 isHexDigit
  else if ← optionalToken "0o" then radixInteger 8 fun c => '0' ≤ c && c ≤ '7'
  else if ← optionalToken "0b" then radixInteger 2 fun c => c = '0' || c = '1'
  else decimal

/-! ## Dates and times -/

/-- The largest numbers that may stand in a time of day and in a zone. -/
structure ClockBounds where
  hour : Nat
  zoneHour : Nat
  zoneMinute : Nat
  deriving DecidableEq, Repr

def ClockBounds.document : ClockBounds := { hour := 23, zoneHour := 23, zoneMinute := 59 }

def ClockBounds.string : ClockBounds := { hour := 24, zoneHour := 99, zoneMinute := 99 }

def fixedNumber (width lo hi : Nat) : Parse Nat := do
  let cs ← get
  let ds := cs.take width
  if ds.length = width && ds.all Char.isDigit then
    set (cs.drop width)
    let n := natOfDigits 10 ds
    if lo ≤ n && n ≤ hi then return n else failure
  else failure

def day : Parse Day := do
  let year ← fixedNumber 4 0 9999
  token "-"
  let month ← fixedNumber 2 1 12
  token "-"
  let day ← fixedNumber 2 1 (daysIn year month)
  return { year, month, day }

def nanoseconds : Parse Nat := do
  if ← optionalToken "." then
    match ← takeWhile Char.isDigit with
    | [] => failure
    | ds => return nanosecondsOf ds
  else return 0

def clock (b : ClockBounds) : Parse Clock := do
  let hour ← fixedNumber 2 0 b.hour
  token ":"
  let minute ← fixedNumber 2 0 59
  token ":"
  let second ← fixedNumber 2 0 60
  return { hour, minute, second, nanosecond := ← nanoseconds }

def zoneMinutes (b : ClockBounds) : Parse Nat := do
  let hours ← fixedNumber 2 0 b.zoneHour
  token ":"
  let minutes ← fixedNumber 2 0 b.zoneMinute
  if 60 * hours + minutes ≤ 1440 then return 60 * hours + minutes else failure

def zone (b : ClockBounds) : Parse (Option Zone) := do
  match ← peek with
  | some 'Z' | some 'z' =>
    modify (·.drop 1)
    return some .universal
  | some '+' =>
    modify (·.drop 1)
    return some (.ahead (← zoneMinutes b))
  | some '-' =>
    modify (·.drop 1)
    return some (.ahead (-(← zoneMinutes b)))
  | _ => return none

def clockAfterDay (b : ClockBounds) : Parse Clock := do
  match ← peek with
  | some 'T' | some 't' | some ' ' =>
    modify (·.drop 1)
    clock b
  | _ => failure

/-- A day in a document, with time of day and zone if they follow. -/
def dayAndClock : Parse DateTime := do
  let day ← day
  (do
    let clock ← clockAfterDay .document
    return { day := some day, clock := some clock, zone := ← zone .document })
  <|> return { day := some day }

def dateTime : Parse Toml := do
  let d ← dayAndClock <|> (return { clock := some (← clock .document) })
  return .datetime d

/-- A date in a string. A zone may follow a day without a time of day. -/
def dateInString : Parse DateTime :=
  (do
    let day ← day
    let clock ← (some <$> clockAfterDay .string) <|> pure none
    return { day := some day, clock, zone := ← zone .string })
  <|> (return { clock := some (← clock .string) })

def dateOf? (s : String) : Option DateTime :=
  match dateInString.run s.toList with
  | some (d, []) => some d
  | _ => none

end ArrayKernel.Toml
