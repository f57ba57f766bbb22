/-!
# Diagnostics

Advice that does not stop a compilation: a title with notes below it, rendered plain or with terminal
colors.
-/

namespace MixedSignal

/-- The weight of a message. -/
inductive Level where
  | error
  | warning
  | info
  | note
  | help
  deriving DecidableEq, Repr

namespace Level

/-- The level as it is written. -/
def text : Level → String
  | error => "error"
  | warning => "warning"
  | info => "info"
  | note => "note"
  | help => "help"

/-- The terminal color of a level. -/
def color : Level → Nat
  | error => 91
  | warning => 33
  | info => 94
  | note => 92
  | help => 96

end Level

/-- A warning with notes below it. -/
structure Diagnostic where
  title : String
  footers : List (Level × String) := []
  deriving Repr

namespace Diagnostic

/-- Text in bold and in a terminal color. -/
def styled (color : Nat) (s : String) : String :=
  "\x1b[1m\x1b[" ++ toString color ++ "m" ++ s ++ "\x1b[0m"

/-- The color of the mark in front of a note. -/
def markColor : Nat := 94

/-- The color of the title. -/
def titleColor : Nat := 93

/-- The mark and level of a note. -/
def plainLabel (level : Level) : String := "= " ++ level.text

/-- The mark and level of a note in color; of one color, they are one piece. -/
def styledLabel (level : Level) : String :=
  if level.color = markColor then styled markColor (plainLabel level)
  else styled markColor "= " ++ styled level.color level.text

/-- A line without the carriage return at its end. -/
def dropReturn (s : String) : String :=
  if s.endsWith "\r" then String.ofList s.toList.dropLast else s

/-- The lines of a text. Nothing behind the last line end is no line. -/
def textLines (s : String) : List String :=
  let pieces := s.splitOn "\n"
  pieces.dropLast.map dropReturn ++ pieces.getLast?.toList.filter (· ≠ "")

/-- What follows a label; behind nothing there is no colon. -/
def labelled (label s : String) : String := if s = "" then label else label ++ ": " ++ s

/-- The blanks in front of the second and later lines of a note, which stand below the first. -/
def indentation (level : Level) : String :=
  String.ofList (List.replicate (" = ".length + level.text.length + ": ".length) ' ')

/-- A note behind its label, unless it has no lines. -/
def footer (label : String) (level : Level) (s : String) : String :=
  match textLines s with
  | [] => ""
  | line :: rest =>
    "\n " ++ labelled label line ++ String.join (rest.map ("\n" ++ indentation level ++ ·))

/-- The message with terminal colors. -/
def renderStyled (d : Diagnostic) : String :=
  labelled (styled Level.warning.color Level.warning.text)
      (if d.title = "" then "" else styled titleColor d.title) ++
    String.join (d.footers.map fun (level, s) => footer (styledLabel level) level s)

/-- The message without colors. -/
def renderPlain (d : Diagnostic) : String :=
  labelled Level.warning.text d.title ++
    String.join (d.footers.map fun (level, s) => footer (plainLabel level) level s)

end Diagnostic

end MixedSignal
