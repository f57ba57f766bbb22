import MixedSignal.Collection.OrderedMap
import MixedSignal.Signal

/-!
# Expression nodes

Expressions form a directed acyclic graph: a node refers to its operands by their numbers in the
store that holds them all. Two uses of one number are the same node, which the simplifications and
the emitted text observe.
-/

namespace MixedSignal

/-- Nodes are numbered in the order in which they were made. -/
abbrev NodeId := Nat

/-- The comparisons. -/
inductive CompareOp where
  | lt
  | le
  | gt
  | ge
  | eq
  | ne
  deriving DecidableEq, Repr

/-- The comparison as it is written. -/
def CompareOp.text : CompareOp → String
  | lt => "<"
  | le => "<="
  | gt => ">"
  | ge => ">="
  | eq => "=="
  | ne => "!="

/-- The operators on bits. -/
inductive BitOp where
  | and
  | or
  | xor
  deriving DecidableEq, Repr

/-- The operator as it is written. -/
def BitOp.text : BitOp → String
  | and => "&"
  | or => "|"
  | xor => "^"

/-- The direction of a shift. -/
inductive ShiftDirection where
  | left
  | right
  deriving DecidableEq, Repr

/-- The conversions between domains and widths. -/
inductive Conversion where
  | uintToSint
  | sintToUint
  | sintToReal
  | realToSint
  /-- A change of width in the same domain, which extends the sign of signed values. -/
  | resize
  deriving DecidableEq, Repr

/-- The conversion as messages name it. -/
def Conversion.text : Conversion → String
  | uintToSint => "uint_to_sint"
  | sintToUint => "sint_to_uint"
  | sintToReal => "sint_to_real"
  | realToSint => "real_to_sint"
  | resize => "resize"

/-- What a node computes from its operands. -/
inductive NodeKind (R : Type) where
  | signal (s : SignalId)
  | const (v : Value R)
  | arith (op : ArithOp) (operands : List NodeId)
  | compare (op : CompareOp) (a b : NodeId)
  | bitwise (op : BitOp) (operands : List NodeId)
  | bitNot (a : NodeId)
  | shift (direction : ShiftDirection) (a : NodeId) (amount : Nat)
  | slice (a : NodeId) (msb lsb : Nat)
  /-- The first operand holds the most significant bits. -/
  | concat (operands : List NodeId)
  | convert (conversion : Conversion) (a : NodeId)
  /-- The element at the address; there are as many elements as addresses. -/
  | select (elements : List NodeId) (address : NodeId)
  /-- The case at the address formed by one-bit signals, the first one most significant. It has a
  meaning only inside equations and is resolved before they are solved. -/
  | cases (cases : List NodeId) (selectors : List SignalId)
  /-- The time derivative of a state. It has a meaning only inside equations. -/
  | deriv (s : SignalId)
  deriving Repr

/-- A node with the format of its value. -/
structure Node (R : Type) where
  kind : NodeKind R
  format : Format R
  deriving Repr

instance {R : Type} : Inhabited (Node R) := ⟨⟨.const (.int 0), .int (.full .unsigned 1)⟩⟩

/-- All signals and expression nodes of a model. Both lists only ever grow, and every operand is
made before the node that uses it. -/
structure Store (R : Type) where
  signals : Array (Signal R) := #[]
  /-- The number of each signal by its name. -/
  byName : OrderedMap String SignalId := {}
  /-- The node that reads each signal, shared by all its uses. -/
  leaves : Array NodeId := #[]
  nodes : Array (Node R) := #[]
  deriving Inhabited

instance {R : Type} : Inhabited (Signal R) :=
  ⟨⟨"", .int (.full .unsigned 1), .internal, none⟩⟩

namespace Store

variable {R : Type}

/-- A signal by its number. -/
def signal (s : Store R) (i : SignalId) : Signal R := s.signals.getD i default

/-- The signal of a given name. -/
def signalNamed? (s : Store R) (name : String) : Option SignalId :=
  s.byName.get? name

/-- The node that reads a signal. -/
def leaf (s : Store R) (i : SignalId) : NodeId := s.leaves.getD i 0

/-- A node by its number. -/
def node (s : Store R) (i : NodeId) : Node R := s.nodes.getD i default

/-- What a node computes. -/
def kind (s : Store R) (i : NodeId) : NodeKind R := (s.node i).kind

/-- The format of a node's value. -/
def format (s : Store R) (i : NodeId) : Format R := (s.node i).format

/-- The value of a constant node. -/
def const? (s : Store R) (i : NodeId) : Option (Value R) :=
  match s.kind i with
  | .const v => some v
  | _ => none

/-- The operands of a node, in order; a case table also reads its selectors. -/
def operands (s : Store R) (kind : NodeKind R) : List NodeId :=
  match kind with
  | .signal _ | .const _ | .deriv _ => []
  | .arith _ xs | .bitwise _ xs | .concat xs => xs
  | .compare _ a b => [a, b]
  | .bitNot a | .shift _ a _ | .slice a _ _ | .convert _ a => [a]
  | .select elements address => elements ++ [address]
  | .cases cases selectors => cases ++ selectors.map s.leaf

/-- The operands of a node by its number. -/
def children (s : Store R) (i : NodeId) : List NodeId := s.operands (s.kind i)

/-- Add a node. -/
def push (s : Store R) (kind : NodeKind R) (format : Format R) : NodeId × Store R :=
  (s.nodes.size, { s with nodes := s.nodes.push ⟨kind, format⟩ })

end Store

end MixedSignal
