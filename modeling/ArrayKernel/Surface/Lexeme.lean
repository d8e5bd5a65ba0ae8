import ArrayKernel.Number.Binary64

/-!
The words of the kernel language: keywords, symbols, numbers and identifiers.
-/

namespace ArrayKernel.Surface

inductive Keyword where
  | let_ | const | var | function | if_ | else_ | for_ | of | while_ | break_ | continue_ | return_
  | true_ | false_ | this
  deriving DecidableEq, Repr, Inhabited

namespace Keyword

def spelling : Keyword → String
  | let_ => "let"
  | const => "const"
  | var => "var"
  | function => "function"
  | if_ => "if"
  | else_ => "else"
  | for_ => "for"
  | of => "of"
  | while_ => "while"
  | break_ => "break"
  | continue_ => "continue"
  | return_ => "return"
  | true_ => "true"
  | false_ => "false"
  | this => "this"

def all : List Keyword :=
  [let_, const, var, function, if_, else_, for_, of, while_, break_, continue_, return_, true_, false_, this]

def ofSpelling? (s : String) : Option Keyword := all.find? (·.spelling == s)

end Keyword

inductive Symbol where
  | leftParen | rightParen | leftBrace | rightBrace | leftBracket | rightBracket
  | comma | colon | semicolon | dot | question | arrow
  | assign | plusAssign | minusAssign | starAssign | slashAssign | ampAssign | pipeAssign | caretAssign
  | equal | notEqual | less | lessEqual | greater | greaterEqual | shiftLeft | shiftRight
  | plus | minus | star | starStar | slash | percent
  | amp | ampAmp | pipe | pipePipe | caret | bang | tilde
  deriving DecidableEq, Repr

namespace Symbol

/-- The shortest spelling; equality and inequality may also be written with one more `=`. -/
def spelling : Symbol → String
  | leftParen => "("
  | rightParen => ")"
  | leftBrace => "\x7b"
  | rightBrace => "\x7d"
  | leftBracket => "["
  | rightBracket => "]"
  | comma => ","
  | colon => ":"
  | semicolon => ";"
  | dot => "."
  | question => "?"
  | arrow => "=>"
  | assign => "="
  | plusAssign => "+="
  | minusAssign => "-="
  | starAssign => "*="
  | slashAssign => "/="
  | ampAssign => "&="
  | pipeAssign => "|="
  | caretAssign => "^="
  | equal => "=="
  | notEqual => "!="
  | less => "<"
  | lessEqual => "<="
  | greater => ">"
  | greaterEqual => ">="
  | shiftLeft => "<<"
  | shiftRight => ">>"
  | plus => "+"
  | minus => "-"
  | star => "*"
  | starStar => "**"
  | slash => "/"
  | percent => "%"
  | amp => "&"
  | ampAmp => "&&"
  | pipe => "|"
  | pipePipe => "||"
  | caret => "^"
  | bang => "!"
  | tilde => "~"

def pairs : List Symbol :=
  [arrow, plusAssign, minusAssign, starAssign, slashAssign, ampAssign, pipeAssign, caretAssign, equal, notEqual,
   lessEqual, greaterEqual, shiftLeft, shiftRight, starStar, ampAmp, pipePipe]

def singles : List Symbol :=
  [leftParen, rightParen, leftBrace, rightBrace, leftBracket, rightBracket, comma, colon, semicolon, dot, question,
   assign, less, greater, plus, minus, star, slash, percent, amp, pipe, caret, bang, tilde]

def spellings : List (List Char × Symbol) :=
  [(['=', '=', '='], equal), (['!', '=', '='], notEqual)] ++
    (pairs ++ singles).map fun s => (s.spelling.toList, s)

/-- The symbol with the longest spelling that the text starts with, and the length of that spelling.
-/
def read? (cs : List Char) : Option (Symbol × Nat) :=
  (spellings.find? fun (s, _) => s.isPrefixOf cs).map fun (s, symbol) => (symbol, s.length)

def isAssignment : Symbol → Bool
  | assign | plusAssign | minusAssign | starAssign | slashAssign | ampAssign | pipeAssign | caretAssign => true
  | _ => false

end Symbol

inductive Lexeme where
  | keyword (k : Keyword)
  | symbol (s : Symbol)
  | integer (value : Nat)
  | float (value : Number.Binary64)
  | identifier (name : String)
  deriving DecidableEq, Repr, Inhabited

namespace Lexeme

def description : Lexeme → String
  | keyword k => "'" ++ k.spelling ++ "'"
  | symbol s => "'" ++ s.spelling ++ "'"
  | integer _ => "integer literal"
  | float _ => "float literal"
  | identifier _ => "identifier"

def isAssignment : Lexeme → Bool
  | symbol s => s.isAssignment
  | _ => false

def ofWord (s : String) : Lexeme :=
  match Keyword.ofSpelling? s with
  | some k => keyword k
  | none => identifier s

/-- How messages name what stands at a place: nothing is the end of the input. -/
def describe? : Option Lexeme → String
  | some l => l.description
  | none => "end of input"

end Lexeme

end ArrayKernel.Surface
