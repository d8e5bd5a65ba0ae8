/-!
Lines of a text. The characters that end a line are those of Unicode; a carriage return and a line
feed end one line together.
-/

namespace ArrayKernel.Text

def isLineEnd : Char → Bool
  | '\n' | '\x0b' | '\x0c' | '\r' | '\u0085' | '\u2028' | '\u2029' => true
  | _ => false

/-- Whether a new line starts after a character. What ends the text starts no line. -/
def startsLine (c : Char) : List Char → Bool
  | [] => false
  | next :: _ => isLineEnd c && !(c = '\r' && next = '\n')

/-- Line and column after so many further characters, from those before them. -/
def advance (line col : Nat) : Nat → List Char → Nat × Nat
  | n + 1, c :: rest => if startsLine c rest then advance (line + 1) 1 n rest else advance line (col + 1) n rest
  | _, _ => (line, col)

/-- Line and column of a position in a text, both counted from one, the column in characters. -/
def position (text : List Char) (offset : Nat) : Nat × Nat := advance 1 1 offset text

end ArrayKernel.Text
