import MixedSignal.Format

/-!
# Signals

A signal has a name, a format and a role; a register starts from its initial value.
-/

namespace MixedSignal

/-- What a signal is to the module. -/
inductive Role (R : Type) where
  | input
  | output
  | internal
  /-- A module parameter with its default value. -/
  | param (default : Value R)
  /-- A variable of an equation system, eliminated when the system is solved. -/
  | auxiliary
  deriving Repr

namespace Role

variable {R : Type}

/-- Whether the role is to be driven from outside. -/
def isInput : Role R → Bool
  | input => true
  | _ => false

/-- Whether the role is to be driven by the module. -/
def isAssignable : Role R → Bool
  | output => true
  | internal => true
  | _ => false

/-- Whether the signal exists only inside equation systems. -/
def isAuxiliary : Role R → Bool
  | auxiliary => true
  | _ => false

end Role

/-- A signal of a model. -/
structure Signal (R : Type) where
  name : String
  format : Format R
  role : Role R
  /-- The value after reset, if the signal is a register. -/
  init : Option (Value R) := none
  deriving Repr

/-- Signals are numbered in the order in which they were added. -/
abbrev SignalId := Nat

end MixedSignal
