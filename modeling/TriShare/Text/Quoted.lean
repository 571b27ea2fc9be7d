import TriShare.Text.Hidden
import TriShare.Text.Hex
/-!
A character in single quotes, as messages name it: a few characters have a backslash form, hidden
ones are given by number, and all others stand for themselves.
-/

namespace TriShare.Text

/-- The number of a character in lower-case hexadecimal, without leading zeros. -/
def codePoint (c : Char) : String := String.ofList ((Nat.toDigits 16 c.toNat))

/-- How a character is written between single quotes. -/
def escape (c : Char) : String :=
  match c with
  | '\x00' => "\\0"
  | '\t' => "\\t"
  | '\r' => "\\r"
  | '\n' => "\\n"
  | '\\' => "\\\\"
  | '\'' => "\\'"
  | c => if isHidden c then "\\u\x7b" ++ codePoint c ++ "\x7d" else c.toString

/-- A character in single quotes. -/
def quoted (c : Char) : String := "'" ++ escape c ++ "'"

end TriShare.Text
