import ArrayKernel.Surface.Operator
import ArrayKernel.Surface.Token

/-!
A place in a token list, with what the reader has complained about so far.

The size of a cursor is the number of tokens left. Every reader ends at a cursor that is no larger;
this is what the recursion of the grammar rests on.
-/

namespace ArrayKernel.Surface

def maxNesting : Nat := 256

structure Cursor where
  rest : List Token
  previous : Option Span := none
  stop : Span
  /-- The number of open blocks and nested statements. -/
  depth : Nat := 0
  complaints : List Complaint := []
  deriving Repr

namespace Cursor

def size (c : Cursor) : Nat := c.rest.length

def peek? (c : Cursor) : Option Lexeme := c.rest.head?.map (·.lexeme)

def here (c : Cursor) : Span :=
  match c.rest with
  | t :: _ => t.span
  | [] => c.stop

def behind (c : Cursor) : Span := c.previous.getD c.here

def advance (c : Cursor) : Cursor :=
  match c.rest with
  | t :: r => { c with rest := r, previous := some t.span }
  | [] => c

def complain (c : Cursor) (f : Fault) : Cursor :=
  { c with complaints := ⟨f, c.here⟩ :: c.complaints }

def atEnd (c : Cursor) : Bool := c.rest.isEmpty

def at_ (c : Cursor) (l : Lexeme) : Bool := c.peek? == some l

def atSymbol (c : Cursor) (s : Symbol) : Bool := c.at_ (.symbol s)

theorem size_advance_le (c : Cursor) : c.advance.size ≤ c.size := by
  unfold advance size
  split
  · next t r h => simp [h]
  · exact Nat.le_refl _

theorem size_advance_lt (c : Cursor) (h : c.rest ≠ []) : c.advance.size < c.size := by
  unfold advance size
  split
  · next t r h => simp [h]
  · next hr => exact absurd hr h

theorem rest_ne_nil_of_at {c : Cursor} {l : Lexeme} (h : c.at_ l = true) : c.rest ≠ [] := by
  intro hr
  simp [at_, peek?, hr] at h

/-- A cursor that is no further from the start of what is left at `c`. -/
abbrev Onward (c : Cursor) : Type := { c' : Cursor // c'.size ≤ c.size }

abbrev Past (c : Cursor) : Type := { c' : Cursor // c'.size < c.size }

def next? (c : Cursor) : Option (Token × Past c) :=
  match h : c.rest with
  | t :: _ => some (t, ⟨c.advance, c.size_advance_lt (by simp [h])⟩)
  | [] => none

theorem size_pos {c : Cursor} (h : ¬c.atEnd = true) : 0 < c.size := by
  apply List.length_pos_iff.2
  intro hr
  exact h (by simp [atEnd, hr])

/-- The cursor `c'`, or the one after its next token if nothing was taken since `c`. -/
def progress (c c' : Cursor) (h : c'.size ≤ c.size) (pos : 0 < c.size) : Past c :=
  if hs : c'.size = c.size then
    ⟨c'.advance, by
      have : c'.rest ≠ [] := List.length_pos_iff.1 (by change 0 < c'.size; omega)
      have := c'.size_advance_lt this
      omega⟩
  else ⟨c', by omega⟩

def eat? (c : Cursor) (l : Lexeme) : Option (Past c) :=
  if h : c.at_ l = true then some ⟨c.advance, c.size_advance_lt (rest_ne_nil_of_at h)⟩ else none

def eatSymbol? (c : Cursor) (s : Symbol) : Option (Past c) := c.eat? (.symbol s)

def skip (c : Cursor) (s : Symbol) : Onward c :=
  if c.atSymbol s then ⟨c.advance, c.size_advance_le⟩ else ⟨c, Nat.le_refl _⟩

def complaining (c : Cursor) (f : Fault) : Onward c := ⟨c.complain f, Nat.le_refl _⟩

/-- The same place, with one more complaint if the condition holds. -/
def complainIf (c : Cursor) (bad : Bool) (f : Fault) : Onward c :=
  if bad then c.complaining f else ⟨c, Nat.le_refl _⟩

def expect (c : Cursor) (s : Symbol) : Onward c :=
  if c.atSymbol s then ⟨c.advance, c.size_advance_le⟩
  else c.complaining (.expectedLexeme (some (.symbol s)) c.peek?)

/-- The number of tokens that are left once an opening brace, if one comes next, is taken. -/
def bodySize (c : Cursor) : Nat := if c.atSymbol .leftBrace then c.size - 1 else c.size

theorem bodySize_le (c : Cursor) : c.bodySize ≤ c.size := by
  unfold bodySize
  split <;> omega

theorem bodySize_lt {c : Cursor} (h : c.atSymbol .leftBrace = true) : c.bodySize < c.size := by
  have : 0 < c.size := List.length_pos_iff.2 (rest_ne_nil_of_at h)
  simp only [bodySize, h, if_true]
  omega

theorem size_expect_brace (c : Cursor) : (c.expect .leftBrace).1.size ≤ c.bodySize := by
  unfold expect bodySize
  split
  · next h =>
    have := c.size_advance_lt (rest_ne_nil_of_at h)
    simp only
    omega
  · exact Nat.le_refl _

def openBrace (c : Cursor) : { c' : Cursor // c'.size ≤ c.bodySize } :=
  ⟨(c.expect .leftBrace).1, c.size_expect_brace⟩

def drain (c : Cursor) : Onward c :=
  ⟨{ c with rest := [], previous := (c.rest.getLast?.map (·.span)).or c.previous }, by simp [size]⟩

def skipUntil (c : Cursor) (s : Symbol) : Onward c :=
  ⟨{ c with
      rest := c.rest.dropWhile fun t => t.lexeme != .symbol s
      previous := ((c.rest.takeWhile fun t => t.lexeme != .symbol s).getLast?.map (·.span)).or c.previous },
    (List.dropWhile_sublist _).length_le⟩

/-- Takes the word that introduces a variable, if one comes next. -/
def skipDeclKind (c : Cursor) : Onward c :=
  match c.peek? with
  | some (.keyword .let_) | some (.keyword .const) | some (.keyword .var) => ⟨c.advance, c.size_advance_le⟩
  | _ => ⟨c, Nat.le_refl _⟩

/-- Takes the word between a loop's binding and what it runs over. If it is missing, the rest of the
header is passed over. -/
def expectOf (c : Cursor) : Onward c :=
  if c.at_ (.keyword .of) then ⟨c.advance, c.size_advance_le⟩
  else (c.complain (.expectedOf c.peek?)).skipUntil .rightParen

/-- Whether one more level may be opened, and the cursor that counts it. -/
structure Entered (c : Cursor) where
  allowed : Bool
  next : Cursor
  size_eq : next.size = c.size
  bodySize_eq : next.bodySize = c.bodySize

/-- Opens one more level. Past the limit it complains; the level stays counted. -/
def enter (c : Cursor) : Entered c :=
  if maxNesting ≤ c.depth then ⟨false, { c with depth := c.depth + 1 }.complain .nestingTooDeep, rfl, rfl⟩
  else ⟨true, { c with depth := c.depth + 1 }, rfl, rfl⟩

def leave (c : Cursor) : Onward c := ⟨{ c with depth := c.depth - 1 }, Nat.le_refl _⟩

end Cursor

structure Parsed (c : Cursor) (α : Type) where
  value : α
  next : Cursor
  le : next.size ≤ c.size

namespace Cursor

def missingName : String := "_error_"

/-- Takes an identifier, or complains, stays, and gives the stand-in. -/
def name (c : Cursor) : Parsed c Name :=
  match c.rest with
  | ⟨.identifier n, s⟩ :: _ => ⟨⟨n, s⟩, c.advance, c.size_advance_le⟩
  | _ => ⟨⟨missingName, c.here⟩, c.complain (.expectedIdentifier c.peek?), Nat.le_refl _⟩

def name? (c : Cursor) : Parsed c (Option Name) :=
  match c.rest with
  | ⟨.identifier n, s⟩ :: _ => ⟨some ⟨n, s⟩, c.advance, c.size_advance_le⟩
  | _ => ⟨none, c, Nat.le_refl _⟩

/-- Takes a member name, which may also be the word `const` or `of`. -/
def memberName (c : Cursor) : Parsed c Name :=
  match c.rest with
  | ⟨.keyword .const, s⟩ :: _ => ⟨⟨"const", s⟩, c.advance, c.size_advance_le⟩
  | ⟨.keyword .of, s⟩ :: _ => ⟨⟨"of", s⟩, c.advance, c.size_advance_le⟩
  | _ => c.name

def unary? (c : Cursor) : Option (UnOp × Past c) :=
  match h : c.rest with
  | ⟨.symbol s, _⟩ :: _ =>
    (UnOp.ofToken? s).map fun op => (op, ⟨c.advance, c.size_advance_lt (by simp [h])⟩)
  | _ => none

/-- Takes a binary operator that holds its left operand at least as tightly as `least`. -/
def binary? (c : Cursor) (least : Nat) : Option (BinOp × Past c) :=
  match h : c.rest with
  | ⟨.symbol s, _⟩ :: _ =>
    match BinOp.ofToken? s with
    | some op =>
      if op.power.1 < least then none
      else some (op, ⟨c.advance, c.size_advance_lt (by simp [h])⟩)
    | none => none
  | _ => none

def assignment? (c : Cursor) : Option (AssignOp × Past c) :=
  match h : c.rest with
  | ⟨.symbol s, _⟩ :: _ =>
    (AssignOp.ofToken? s).map fun op => (op, ⟨c.advance, c.size_advance_lt (by simp [h])⟩)
  | _ => none

/-- Whether the parenthesis that brings the depth back to zero is followed by an arrow. -/
def arrowAfterClose : Nat → List Token → Bool
  | _, [] => false
  | depth, t :: rest =>
    match t.lexeme with
    | .symbol .leftParen => arrowAfterClose (depth + 1) rest
    | .symbol .rightParen =>
      if depth ≤ 1 then rest.head?.map (·.lexeme) == some (.symbol .arrow)
      else arrowAfterClose (depth - 1) rest
    | _ => arrowAfterClose depth rest

/-- Whether the tokens ahead start an arrow function: a name and an arrow, or a parenthesised list
and an arrow. -/
def arrowAhead (c : Cursor) : Bool :=
  match c.rest with
  | ⟨.identifier _, _⟩ :: rest => rest.head?.map (·.lexeme) == some (.symbol .arrow)
  | ⟨.symbol .leftParen, _⟩ :: _ => arrowAfterClose 0 c.rest
  | _ => false

end Cursor

end ArrayKernel.Surface
