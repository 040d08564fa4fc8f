import Incremental.Text.Printable

/-!
# Quoted text

Text between double quotes, in which every character can be seen: quotes and backslashes are
escaped, and so is what cannot be printed.
-/

namespace Incremental.Text

/-- A character inside quotes. What has no short escape and cannot be printed is written as its
code point in hexadecimal digits. -/
def escape (c : Char) : List Char :=
  match c with
  | '"' => ['\\', '"']
  | '\\' => ['\\', '\\']
  | '\n' => ['\\', 'n']
  | '\r' => ['\\', 'r']
  | '\t' => ['\\', 't']
  | '\x00' => ['\\', '0']
  | c => if isPrintable c then [c] else ['\\', 'u', '\x7b'] ++ Nat.toDigits 16 c.toNat ++ ['\x7d']

/-- The text between quotes. -/
def quoted (text : String) : String := String.ofList ('"' :: text.toList.flatMap escape ++ ['"'])

end Incremental.Text
