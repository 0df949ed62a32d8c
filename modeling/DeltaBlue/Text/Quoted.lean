import DeltaBlue.Text.Hidden

/-!
# Quoted text

A text is quoted by writing it between double quotes. A quote, a backslash, a tab, a line feed, a
carriage return and the null character are written with a backslash and a letter of their own; any
other hidden character is written by its code in hexadecimal.
-/

namespace DeltaBlue.Text

/-- The code of a character in hexadecimal, between braces. -/
def escapeCode (c : Char) : List Char :=
  ['\\', 'u', '\x7b'] ++ Nat.toDigits 16 c.toNat ++ ['\x7d']

/-- How a character is written in quoted text. -/
def quoteChar (c : Char) : List Char :=
  match c with
  | '"' => ['\\', '"']
  | '\\' => ['\\', '\\']
  | '\t' => ['\\', 't']
  | '\n' => ['\\', 'n']
  | '\r' => ['\\', 'r']
  | '\x00' => ['\\', '0']
  | _ => if isHidden c then escapeCode c else [c]

/-- The text between double quotes. -/
def quote (s : String) : String :=
  String.ofList ('"' :: s.toList.flatMap quoteChar ++ ['"'])

end DeltaBlue.Text
