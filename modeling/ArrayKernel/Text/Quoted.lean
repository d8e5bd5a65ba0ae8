import ArrayKernel.Text.Octets
import ArrayKernel.Text.Unseen

/-!
Texts in double quotes. Quotes, backslashes and what cannot be seen are written as escapes.
-/

namespace ArrayKernel.Text

def escape (c : Char) : String :=
  match c with
  | '\x00' => "\\0"
  | '\t' => "\\t"
  | '\r' => "\\r"
  | '\n' => "\\n"
  | '\x22' => "\\\""
  | '\\' => "\\\\"
  | _ => if isUnseen c then "\\u\x7b" ++ hex 1 c.toNat ++ "\x7d" else String.singleton c

def quoted (s : String) : String := "\"" ++ String.join (s.toList.map escape) ++ "\""

end ArrayKernel.Text
