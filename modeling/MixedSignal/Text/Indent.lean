/-!
# Indented lines

Emitted text is indented by four blanks per level of nesting.
-/

namespace MixedSignal

/-- A depth of nesting. -/
structure Indent where
  depth : Nat := 0
  deriving DecidableEq, Repr

namespace Indent

/-- The blanks of one level. -/
def unit : String := "    "

/-- One level deeper. -/
def nest (i : Indent) : Indent := ⟨i.depth + 1⟩

/-- The blanks of the depth. -/
def text (i : Indent) : String := String.join (List.replicate i.depth unit)

/-- A text on a line of its own. -/
def line (i : Indent) (s : String) : String := i.text ++ s ++ "\n"

end Indent

end MixedSignal
