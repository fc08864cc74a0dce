import OffloadFusion.Text.Printable

/-!
# Quoted text

`quote` puts a text between double quotes. A quote, a backslash and the usual control characters
are escaped by a backslash and one character, every other hidden character by its code point.
-/

namespace OffloadFusion.Text

/-- The lower-case hexadecimal digits of a code point. -/
def hexText (n : Nat) : String := String.ofList (Nat.toDigits 16 n)

/-- A character inside quotes. -/
def escape (c : Char) : String :=
  match c with
  | '"' => "\\\""
  | '\\' => "\\\\"
  | '\n' => "\\n"
  | '\r' => "\\r"
  | '\t' => "\\t"
  | '\x00' => "\\0"
  | c => if isPrintable c then c.toString else "\\u\x7b" ++ hexText c.toNat ++ "\x7d"

/-- The text in double quotes. -/
def quote (text : String) : String := "\"" ++ String.join (text.toList.map escape) ++ "\""

end OffloadFusion.Text
