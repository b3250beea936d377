import TermLogic.Text.Printable

/-!
# Quoted text

Text that appears inside a message is put in double quotes, with everything a reader could not see
written as an escape. The single quote stands as it is.

* `Quoted.escape c`: how one character is written.
* `quoted cs`: the whole text between its quotes.
-/

namespace TermLogic.Text

/-- The digits of a code point between the braces of an escape: hexadecimal, lower case, without
leading zeros. -/
def Quoted.hexDigits (c : Char) : List Char :=
  Nat.toDigits 16 c.toNat

/-- How a character is written between double quotes. -/
def Quoted.escape (c : Char) : List Char :=
  match c with
  | '"' => ['\\', '"']
  | '\\' => ['\\', '\\']
  | '\n' => ['\\', 'n']
  | '\r' => ['\\', 'r']
  | '\t' => ['\\', 't']
  | '\x00' => ['\\', '0']
  | c =>
    if Printable.isPrintable c then [c]
    else ['\\', 'u', '\x7b'] ++ Quoted.hexDigits c ++ ['\x7d']

/-- A text in double quotes, as messages show it. -/
def quoted (text : List Char) : String :=
  String.ofList ('"' :: text.flatMap Quoted.escape ++ ['"'])

end TermLogic.Text
