/-!
# Settings files

A reader for the part of TOML that settings can consist of: lines that give a key an integer, a text
or a list of texts, with comments and blank lines between them. Tables, dotted keys and values of
other types cannot be settings and are refused along with everything malformed.
-/

namespace MixedSignal.Toml

/-- The value of a key. -/
inductive Item where
  | int (v : Int)
  | text (s : String)
  | texts (ss : List String)
  deriving DecidableEq, Repr

/-- What is read, and the characters behind it. -/
abbrev Reader (α : Type) := List Char → Option (α × List Char)

/-! ## Characters -/

/-- Blanks inside a line. -/
def isBlank (c : Char) : Bool := c == ' ' || c == '\t'

/-- Characters that may stand in comments and texts. -/
def isPrintable (c : Char) : Bool := c == '\t' || (0x20 ≤ c.toNat && c.toNat != 0x7f)

/-- Characters of a key without quotes. -/
def isBare (c : Char) : Bool := c.isAlphanum || c == '_' || c == '-'

/-- Drop blanks. -/
def skipBlanks (cs : List Char) : List Char := cs.dropWhile isBlank

/-- Drop the end of a line. -/
def newline? : List Char → Option (List Char)
  | '\n' :: cs => some cs
  | '\r' :: '\n' :: cs => some cs
  | _ => none

/-- Drop blanks and a comment; the comment must be printable. -/
def skipComment? (cs : List Char) : Option (List Char) :=
  match skipBlanks cs with
  | '#' :: cs =>
    let atEnd (c : Char) : Bool := c == '\n' || c == '\r'
    if (cs.takeWhile (!atEnd ·)).all isPrintable then some (cs.dropWhile (!atEnd ·)) else none
  | cs => some cs

/-- Drop blanks and a comment up to the end of the line or of the file. -/
def endOfLine? (cs : List Char) : Option (List Char) := do
  let cs ← skipComment? cs
  if cs.isEmpty then some [] else newline? cs

/-! ## Texts -/

/-- The value of a hexadecimal digit. -/
def hexDigit? (c : Char) : Option Nat :=
  if c.isDigit then some (c.toNat - '0'.toNat)
  else if 'a' ≤ c && c ≤ 'f' then some (c.toNat - 'a'.toNat + 10)
  else if 'A' ≤ c && c ≤ 'F' then some (c.toNat - 'A'.toNat + 10)
  else none

/-- The character with a code point in hexadecimal. -/
def hexChar? (digits : List Char) : Option Char := do
  let values ← digits.mapM hexDigit?
  let n := values.foldl (16 * · + ·) 0
  if n.isValidChar then some (Char.ofNat n) else none

/-- The character of an escape by a letter. -/
def escapedChar? : Char → Option Char
  | 'b' => some '\x08'
  | 'e' => some '\x1b'
  | 't' => some '\t'
  | 'n' => some '\n'
  | 'f' => some '\x0c'
  | 'r' => some '\r'
  | '"' => some '"'
  | '\\' => some '\\'
  | _ => none

/-- Put a character in front of what is read. -/
def push (c : Char) (r : Option (List Char × List Char)) : Option (List Char × List Char) :=
  r.map fun (text, rest) => (c :: text, rest)

/-- A text up to its closing double quote. -/
def basic : List Char → Option (List Char × List Char)
  | [] => none
  | '"' :: cs => some ([], cs)
  | '\\' :: 'x' :: a :: b :: cs => (hexChar? [a, b]).bind (push · (basic cs))
  | '\\' :: 'u' :: a :: b :: c :: d :: cs => (hexChar? [a, b, c, d]).bind (push · (basic cs))
  | '\\' :: 'U' :: a :: b :: c :: d :: e :: f :: g :: h :: cs =>
    (hexChar? [a, b, c, d, e, f, g, h]).bind (push · (basic cs))
  | '\\' :: c :: cs => (escapedChar? c).bind (push · (basic cs))
  | c :: cs => if isPrintable c then push c (basic cs) else none

/-- A text up to its closing single quote, without escapes. -/
def literal : List Char → Option (List Char × List Char)
  | [] => none
  | '\x27' :: cs => some ([], cs)
  | c :: cs => if isPrintable c then push c (literal cs) else none

/-- Behind three closing quotes, up to two more belong to the text. -/
def closing (quote : Char) (cs : List Char) : List Char × List Char :=
  let extra := min (cs.takeWhile (· == quote)).length 2
  (List.replicate extra quote, cs.drop extra)

/-- Whether the rest of a line is blank. -/
def blankLine (cs : List Char) : Bool := (newline? (skipBlanks cs)).isSome

/-- A text over several lines up to three double quotes. A backslash at the end of a line drops the
blanks and line ends that follow, which `skipping` stands for. Line ends are kept as they are. -/
def basicLines (skipping : Bool) : List Char → Option (List Char × List Char)
  | [] => none
  | '"' :: '"' :: '"' :: cs => some (closing '"' cs)
  | '\\' :: 'x' :: a :: b :: cs => (hexChar? [a, b]).bind (push · (basicLines false cs))
  | '\\' :: 'u' :: a :: b :: c :: d :: cs =>
    (hexChar? [a, b, c, d]).bind (push · (basicLines false cs))
  | '\\' :: 'U' :: a :: b :: c :: d :: e :: f :: g :: h :: cs =>
    (hexChar? [a, b, c, d, e, f, g, h]).bind (push · (basicLines false cs))
  | '\\' :: c :: cs =>
    if blankLine (c :: cs) then basicLines true cs
    else (escapedChar? c).bind (push · (basicLines false cs))
  | '\r' :: '\n' :: cs =>
    if skipping then basicLines true cs else push '\r' (push '\n' (basicLines false cs))
  | c :: cs =>
    if skipping && (isBlank c || c == '\n') then basicLines true cs
    else if isPrintable c || c == '\n' then push c (basicLines false cs)
    else none

/-- A text over several lines up to three single quotes, without escapes. Line ends are kept as they
are. -/
def literalLines : List Char → Option (List Char × List Char)
  | [] => none
  | '\x27' :: '\x27' :: '\x27' :: cs => some (closing '\x27' cs)
  | '\r' :: '\n' :: cs => push '\r' (push '\n' (literalLines cs))
  | c :: cs => if isPrintable c || c == '\n' then push c (literalLines cs) else none

/-- Drop a line end, if there is one. -/
def dropNewline (cs : List Char) : List Char := (newline? cs).getD cs

/-- A text in any of the four kinds of quotes. -/
def text : Reader String := fun cs =>
  let read := match cs with
    | '"' :: '"' :: '"' :: cs => basicLines false (dropNewline cs)
    | '\x27' :: '\x27' :: '\x27' :: cs => literalLines (dropNewline cs)
    | '"' :: cs => basic cs
    | '\x27' :: cs => literal cs
    | _ => none
  read.map fun (s, rest) => (String.ofList s, rest)

/-! ## Integers -/

/-- Digits in groups divided by underscores, as a number in the given base. -/
def digits? (base : Nat) (cs : List Char) : Option Nat := do
  let groups := (String.ofList cs).splitOn "_"
  if groups.any (·.isEmpty) then none
  else
    let values ← (groups.flatMap String.toList).mapM hexDigit?
    if values.all (· < base) then some (values.foldl (base * · + ·) 0) else none

/-- A decimal number without leading zeros. -/
def decimal? (cs : List Char) : Option Nat :=
  match cs with
  | '0' :: _ :: _ => none
  | cs => digits? 10 cs

/-- An integer: decimal with an optional sign, or hexadecimal, octal or binary. -/
def integer? : List Char → Option Int
  | '0' :: 'x' :: cs => (digits? 16 cs).map Int.ofNat
  | '0' :: 'o' :: cs => (digits? 8 cs).map Int.ofNat
  | '0' :: 'b' :: cs => (digits? 2 cs).map Int.ofNat
  | '+' :: cs => (decimal? cs).map Int.ofNat
  | '-' :: cs => (decimal? cs).map fun n => -Int.ofNat n
  | cs => (decimal? cs).map Int.ofNat

/-! ## Values and lines -/

/-- Drop blanks, comments and line ends; the number of characters bounds the number of lines. -/
def skipLines? : Nat → List Char → Option (List Char)
  | 0, cs => some cs
  | fuel + 1, cs => do
    let cs ← skipComment? cs
    match newline? cs with
    | some cs => skipLines? fuel cs
    | none => some cs

/-- The texts of a list up to its closing bracket. A comma may stand behind the last one. -/
def textList : Nat → Reader (List String)
  | 0, _ => none
  | fuel + 1, cs => do
    match ← skipLines? cs.length cs with
    | ']' :: cs => return ([], cs)
    | cs =>
      let (s, cs) ← text cs
      match ← skipLines? cs.length cs with
      | ']' :: cs => return ([s], cs)
      | ',' :: cs => let (ss, cs) ← textList fuel cs; return (s :: ss, cs)
      | _ => none

/-- A value. -/
def item : Reader Item := fun cs =>
  match cs with
  | '[' :: cs => (textList cs.length cs).map fun (ss, rest) => (.texts ss, rest)
  | '"' :: _ | '\x27' :: _ => (text cs).map fun (s, rest) => (.text s, rest)
  | cs =>
    let inside (c : Char) : Bool := c.isAlphanum || c == '_' || c == '+' || c == '-' || c == '.'
    (integer? (cs.takeWhile inside)).map fun v => (.int v, cs.dropWhile inside)

/-- A key, bare or in single-line quotes. -/
def key : Reader String := fun cs =>
  match cs with
  | '"' :: cs => (basic cs).map fun (s, rest) => (String.ofList s, rest)
  | '\x27' :: cs => (literal cs).map fun (s, rest) => (String.ofList s, rest)
  | cs =>
    match cs.takeWhile isBare with
    | [] => none
    | bare => some (String.ofList bare, cs.dropWhile isBare)

/-- A key with its value. -/
def entry : Reader (String × Item) := fun cs => do
  let (k, cs) ← key cs
  match skipBlanks cs with
  | '=' :: cs => let (v, cs) ← item (skipBlanks cs); return ((k, v), cs)
  | _ => none

/-- The lines of a document; each one uses up a character. -/
def lines : Nat → List Char → Option (List (String × Item))
  | 0, _ => none
  | fuel + 1, cs =>
    match endOfLine? cs with
    | some [] => some []
    | some rest => lines fuel rest
    | none => do
      let (e, cs) ← entry (skipBlanks cs)
      let rest ← endOfLine? cs
      if rest.isEmpty then return [e] else return e :: (← lines fuel rest)

/-- The keys and values of a document, unless it is malformed or gives a key twice. -/
def parse? (s : String) : Option (List (String × Item)) := do
  let cs := match s.toList with
    | '\uFEFF' :: cs => cs
    | cs => cs
  let entries ← lines (cs.length + 1) cs
  if (entries.map (·.1)).eraseDups.length = entries.length then some entries else none

end MixedSignal.Toml
