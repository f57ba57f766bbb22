/-!
# System errors

Why an equation system, a state-space system or a transfer function is refused.
-/

namespace MixedSignal

/-- The blocks of a state-space system. -/
inductive Block where
  | a
  | b
  | c
  | d
  deriving DecidableEq, Repr

/-- The block as messages name it. -/
def Block.text : Block → String
  | a => "A"
  | b => "B"
  | c => "C"
  | d => "D"

/-- Why a system is refused. -/
inductive SystemError where
  | underConstrained (equations unknowns : Nat)
  | overConstrained (equations unknowns : Nat)
  | unclassifiable (signal : String)
  | nonLinear (equation : String)
  | nonZeroConstant (equation : String)
  | singular
  | missingTimestep
  | zeroDenominator
  | improperTransferFunction (numDegree denDegree : Nat)
  | blockShape (mode : Nat) (block : Block) (expected actual : Nat × Nat)
  /-- A block was to be cut out of a solution that is too small for it. Callers promise distinct
  signals and at least one unknown. -/
  | outOfBounds
  deriving DecidableEq, Repr

/-- The text of an error. -/
def SystemError.message : SystemError → String
  | underConstrained equations unknowns =>
    s!"equation system is under-constrained: {equations} equations for {unknowns} unknowns"
  | overConstrained equations unknowns =>
    s!"equation system is over-constrained: {equations} equations for {unknowns} unknowns"
  | unclassifiable signal =>
    s!"signal `{signal}` is neither an input, a state, an output nor an internal node"
  | nonLinear equation => s!"equation `{equation}` is not linear"
  | nonZeroConstant equation => s!"equation `{equation}` has a constant term"
  | singular => "equation system is singular"
  | missingTimestep => "equation systems need a model with a timestep"
  | zeroDenominator => "transfer function denominator is zero"
  | improperTransferFunction numDegree denDegree =>
    s!"transfer function numerator has degree {numDegree}, more than the denominator degree {denDegree}"
  | blockShape mode block expected actual =>
    s!"block {block.text} of mode {mode} is {actual.1}x{actual.2}, expected {expected.1}x{expected.2}"
  | outOfBounds => "block lies outside the solution"

end MixedSignal
