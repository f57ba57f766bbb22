import MixedSignal.Decimal.Literal
import MixedSignal.Text.Alphanumeric

/-!
# Texts with rounded literals

`roundLiterals n` writes every real literal inside a text with `n` significant digits and leaves the
rest as it is, integers included. Two texts whose reals differ only by rounding noise come out equal.
-/

namespace MixedSignal.Decimal

/-- A point with the digits behind it, or nothing. -/
def fractionPart : List Char → List Char
  | '.' :: cs => match cs.takeWhile Char.isDigit with
    | [] => []
    | ds => '.' :: ds
  | _ => []

/-- An exponent mark with an optional minus and its digits, or nothing. -/
def exponentPart : List Char → List Char
  | 'e' :: '-' :: cs => match cs.takeWhile Char.isDigit with
    | [] => []
    | ds => 'e' :: '-' :: ds
  | 'e' :: cs => match cs.takeWhile Char.isDigit with
    | [] => []
    | ds => 'e' :: ds
  | _ => []

/-- The number at the start of a text: its digits, fraction and exponent. -/
def splitNumber (cs : List Char) : List Char × List Char × List Char :=
  let whole := cs.takeWhile Char.isDigit
  let rest := cs.drop whole.length
  let fraction := fractionPart rest
  (whole, fraction, exponentPart (rest.drop fraction.length))

/-- Whether a number can start behind a character; behind letters and numbers of any script it
cannot. -/
def separates (c : Char) : Bool :=
  !(Text.isAlphanumeric c || c == '_' || c == '.' || c == '\x27')

/-- The written form of a number behind the characters already written, latest first. A zero loses
the minus sign in front of it. -/
def writeNumber (n : Nat) (whole fraction exponent written : List Char) : List Char :=
  if fraction.isEmpty && exponent.isEmpty then whole.reverse ++ written
  else
    let value := (readMagnitude? (whole ++ fraction ++ exponent)).getD 0.0
    let written := if value == 0.0 && written.head? == some '-' then written.tail else written
    (scientific n value).toList.reverse ++ written

/-- Round the literals of a text. The characters already written come latest first. -/
def roundChars (n : Nat) (before : Option Char) (written : List Char) : List Char → List Char
  | [] => written.reverse
  | c :: cs =>
    if c.isDigit && before.all separates then
      let (whole, fraction, exponent) := splitNumber (c :: cs)
      let length := whole.length + fraction.length + exponent.length
      let last := (whole ++ fraction ++ exponent).getLast?
      roundChars n last (writeNumber n whole fraction exponent written) (cs.drop (length - 1))
    else roundChars n (some c) (c :: written) cs
termination_by cs => cs.length
decreasing_by all_goals (simp only [List.length_drop, List.length_cons]; omega)

/-- Write every real literal of a text with `n` significant digits. -/
def roundLiterals (n : Nat) (s : String) : String :=
  String.ofList (roundChars n none [] s.toList)

end MixedSignal.Decimal
