import DecafStatics.Text.Extender
import DecafStatics.Text.Unprintable

/-!
# Quoted names

Messages show names between double quotes, with every character that would not show as itself
replaced by an escape. Two characters have to be escaped because of the quoting, four have a
short escape, and any other character that joins its neighbour or leaves no mark is written by
its code point. A single quote stands for itself.
-/

namespace DecafStatics.Text

/-- A character by its code point, in lower-case hexadecimal without leading zeros. -/
def codePointEscape (c : Char) : List Char :=
  '\\' :: 'u' :: '\x7b' :: Nat.toDigits 16 c.toNat ++ ['\x7d']

/-- One character as it stands between quotes. -/
def quoteChar (c : Char) : List Char :=
  match c with
  | '\x00' => ['\\', '0']
  | '\t' => ['\\', 't']
  | '\r' => ['\\', 'r']
  | '\n' => ['\\', 'n']
  | '"' => ['\\', '"']
  | '\\' => ['\\', '\\']
  | _ => if isExtender c || isUnprintable c then codePointEscape c else [c]

/-- A text between double quotes. -/
def quoted (text : String) : String :=
  String.ofList ('"' :: text.toList.flatMap quoteChar ++ ['"'])

end DecafStatics.Text
