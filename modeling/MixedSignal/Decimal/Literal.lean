import MixedSignal.Decimal.Digits

/-!
# Real literals

The written forms of a real: `literal` for the fewest digits that read back, with a decimal point
kept so that the text is a real in the emitted hardware description too; `plain` for messages;
`scientific` for a fixed number of digits. `ofLiteral?` reads any of them.
-/

namespace MixedSignal.Decimal

/-- How digits become text: which places of the decimal point are written positionally, and whether
a whole number keeps `.0`. -/
structure Style where
  positional : Int → Bool
  keepPoint : Bool

/-- Magnitudes from `1e-4` up to `1e16` are written positionally, with at least one decimal. -/
def literalStyle : Style where
  positional k := -3 ≤ k && k ≤ 16
  keepPoint := true

/-- Always positional, and no decimals for a whole number. -/
def plainStyle : Style where
  positional _ := true
  keepPoint := false

/-- The digits of a number without trailing zeros, and the place of the decimal point. -/
def Digits.normalize (d : Digits) : List Char × Int :=
  let written := Nat.toDigits 10 d.significand
  let kept := (written.reverse.dropWhile (· == '0')).reverse
  (kept, d.exponent + written.length)

/-- Zeros in a row. -/
def zeros (n : Nat) : String := String.ofList (List.replicate n '0')

/-- Digits with the decimal point at place `k`, written out in full. -/
def positionalText (style : Style) (digits : List Char) (k : Int) : String :=
  if k ≤ 0 then "0." ++ zeros (-k).toNat ++ String.ofList digits
  else
    let n := k.toNat
    if digits.length ≤ n then
      String.ofList digits ++ zeros (n - digits.length) ++ (if style.keepPoint then ".0" else "")
    else String.ofList (digits.take n) ++ "." ++ String.ofList (digits.drop n)

/-- Digits as a mantissa with one leading digit and a power of ten. -/
def exponentText (digits : List Char) (k : Int) : String :=
  let mantissa := match digits with
    | [] => "0"
    | [d] => String.singleton d
    | d :: rest => String.singleton d ++ "." ++ String.ofList rest
  mantissa ++ "e" ++ toString (k - 1)

/-- A sign in front of the text of a negative number. -/
def signed (negative : Bool) (text : String) : String :=
  if negative then "-" ++ text else text

/-- The text of a real in a given style. -/
def Style.text (style : Style) (x : Float) : String :=
  match decode x with
  | .nan => "NaN"
  | .infinite negative => signed negative "inf"
  | .finite negative m q =>
    signed negative <|
      if m == 0 then (if style.keepPoint then "0.0" else "0")
      else
        let (digits, k) := (shortest m q).normalize
        if style.positional k then positionalText style digits k else exponentText digits k

/-- The literal of a real: `0.1`, `3.0`, `1e-9`. -/
def literal (x : Float) : String := literalStyle.text x

/-- The real as messages show it: `0.1`, `3`, `0.000000001`. -/
def plain (x : Float) : String := plainStyle.text x

/-- The real with `n` significant digits, rounded from its exact value, ties to even. -/
def scientific (n : Nat) (x : Float) : String :=
  match decode x with
  | .nan => "NaN"
  | .infinite negative => signed negative "inf"
  | .finite negative m q =>
    signed negative <|
      if m == 0 then exponentText (List.replicate n '0') 1
      else
        let d := significant m q n
        let written := Nat.toDigits 10 d.significand
        exponentText (written.take n) (d.exponent + written.length)

/-! ## Reading -/

/-- The number written by decimal digits. -/
def digitsValue (digits : List Char) : Nat :=
  digits.foldl (fun n c => 10 * n + (c.toNat - '0'.toNat)) 0

/-- Split off the leading decimal digits. -/
def spanDigits (cs : List Char) : List Char × List Char :=
  (cs.takeWhile Char.isDigit, cs.dropWhile Char.isDigit)

/-- The double nearest to `significand * 10 ^ exponent`. -/
def ofDigits (d : Digits) : Float :=
  nearest (d.significand * Nat.pow 10 d.exponent.toNat) (Nat.pow 10 (-d.exponent).toNat)

/-- An exponent mark with its digits, or nothing. -/
def readExponent? : List Char → Option Int
  | [] => some 0
  | mark :: rest =>
    if mark == 'e' || mark == 'E' then
      let (negative, digits) := match rest with
        | '-' :: ds => (true, ds)
        | '+' :: ds => (false, ds)
        | ds => (false, ds)
      if digits.isEmpty || !digits.all Char.isDigit then none
      else some (if negative then -digitsValue digits else digitsValue digits)
    else none

/-- An unsigned literal: digits, perhaps a fraction, perhaps an exponent. -/
def readMagnitude? (cs : List Char) : Option Float :=
  if cs == "inf".toList then some (1.0 / 0.0)
  else if cs == "NaN".toList then some (0.0 / 0.0)
  else
    let (whole, rest) := spanDigits cs
    let (fraction, rest) := match rest with
      | '.' :: after => spanDigits after
      | other => ([], other)
    if whole.isEmpty && fraction.isEmpty then none
    else
      (readExponent? rest).map fun e =>
        ofDigits ⟨digitsValue (whole ++ fraction), e - fraction.length⟩

/-- Read a literal as the nearest double. -/
def ofLiteral? (s : String) : Option Float :=
  match s.toList with
  | '-' :: cs => (readMagnitude? cs).map (-·)
  | '+' :: cs => readMagnitude? cs
  | cs => readMagnitude? cs

end MixedSignal.Decimal
