import MixedSignal.Text.Extender
import MixedSignal.Text.Unprintable

/-!
# Quoted texts

A text in double quotes. Quotes and backslashes are escaped, and so is every character without a
visible form: the usual ones by a letter, the others by their code point in hexadecimal.
-/

namespace MixedSignal.Quoted

/-- Whether the character shows itself: it is printed, and it does not merge with the one before. -/
def isVisible (c : Char) : Bool := !Text.isUnprintable c && !Text.isExtender c

/-- A character inside quotes. -/
def escape (c : Char) : String :=
  match c with
  | '"' => "\\\""
  | '\\' => "\\\\"
  | '\n' => "\\n"
  | '\r' => "\\r"
  | '\t' => "\\t"
  | '\x00' => "\\0"
  | c =>
    if isVisible c then String.singleton c
    else "\\u\x7b" ++ String.ofList (Nat.toDigits 16 c.toNat) ++ "\x7d"

/-- A text in quotes. -/
def quote (s : String) : String := "\"" ++ String.join (s.toList.map escape) ++ "\""

end MixedSignal.Quoted
