import MixedSignal.Expr.Node

/-!
# Construction errors

Why a signal, an expression, an assignment or a table cannot be made. Formats and scalars appear in
an error as the text that its message shows.
-/

namespace MixedSignal

/-- Why a construction fails. -/
inductive ConstructionError where
  | domainMismatch (expected actual : Domain)
  | notUnsigned (format : String)
  | emptyOperands (op : String)
  | caseCount (cases selectors : Nat)
  | arraySize (elements addressWidth : Nat)
  | selectorNotBit (format : String)
  | invalidSlice (msb lsb width : Nat)
  | widthRequired (conversion : Conversion)
  | conversionWidth (conversion : Conversion) (width required : Nat)
  | duplicateName (name : String)
  | invalidName (name : String)
  | unknownName (name : String)
  | invalidRange (range : String)
  | invalidTime (time : String)
  | alreadyAssigned (name : String)
  | notAssignable (name : String)
  | tableWidth (width required : Nat)
  | tableTooWide (width limit : Nat)
  | zeroWidth (name : String)
  /-- An integer format without values was asked for: reversed bounds, or a signed word without bits.
  Callers promise not to. -/
  | emptyFormat
  deriving DecidableEq, Repr

namespace ConstructionError

/-- How many things a number of address bits selects between, as messages show it: widths are taken
modulo `2 ^ 32`, and more than 127 bits show as zero. -/
def addressSpace (width : Nat) : Nat :=
  if width % Nat.pow 2 32 < 128 then Nat.pow 2 (width % Nat.pow 2 32) else 0

/-- The text of an error. -/
def message : ConstructionError → String
  | domainMismatch expected actual =>
    s!"expected an operand in the {expected.text} domain, got {actual.text}"
  | notUnsigned format => s!"operand must be an unsigned integer, got {format}"
  | emptyOperands op => s!"{op} needs at least one operand"
  | caseCount cases selectors =>
    s!"case table has {cases} cases, but {selectors} selector bits require exactly {addressSpace selectors}"
  | arraySize elements addressWidth =>
    s!"array has {elements} elements, but an address of {addressWidth} bits selects between {addressSpace addressWidth}"
  | selectorNotBit format => s!"selector must be a single bit, got {format}"
  | invalidSlice msb lsb width =>
    s!"bit slice [{msb}:{lsb}] is invalid for an operand of width {width}"
  | widthRequired conversion => s!"conversion {conversion.text} needs an explicit width"
  | conversionWidth conversion width required =>
    s!"conversion {conversion.text} needs a width of at least {required}, got {width}"
  | duplicateName name => s!"signal name `{name}` is already in use"
  | invalidName name => s!"`{name}` is not a valid signal name"
  | unknownName name => s!"no signal named `{name}`"
  | invalidRange range => s!"range must be a finite non-negative number, got {range}"
  | invalidTime time => s!"time must be a finite non-negative number, got {time}"
  | zeroWidth name => s!"signal `{name}` must be at least one bit wide"
  | tableWidth width required => s!"table needs a width of at least {required}, got {width}"
  | tableTooWide width limit => s!"table width {width} exceeds the maximum of {limit}"
  | alreadyAssigned name => s!"signal `{name}` is already assigned"
  | notAssignable name => s!"signal `{name}` is an input or parameter and cannot be assigned"
  | emptyFormat => "integer format has no values"

end ConstructionError

end MixedSignal
