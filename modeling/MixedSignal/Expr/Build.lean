import MixedSignal.Expr.Error
import MixedSignal.Identifier

/-!
# Building expressions

Every constructor turns its operands into nodes, promotes them to a common domain, simplifies, and
infers the format of the result from the formats of the promoted operands. A failing constructor
leaves the nodes it has made in the store, where nothing refers to them.

Widths are natural numbers. A shift, a concatenation and the conversion to a signed integer add
widths up, and in words of 64 bits these sums are exact only while they stay below `2 ^ 64`.
-/

namespace MixedSignal

/-- Computations that grow a store and may fail; what was added before a failure stays. -/
abbrev Build (R : Type) := ExceptT ConstructionError (StateM (Store R))

/-- Anything that can be an operand. -/
inductive Operand (R : Type) where
  | node (i : NodeId)
  | signal (i : SignalId)
  | value (v : Value R)
  deriving Repr

namespace Build

variable {R : Type} [Scalar R]

/-! ## Nodes and signals -/

/-- Add a node. -/
def push (kind : NodeKind R) (format : Format R) : Build R NodeId :=
  modifyGet fun s => s.push kind format

/-- Add a signal and the node that reads it. The name must be a fresh identifier. -/
def addSignal (name : String) (format : Format R) (role : Role R) (init : Option (Value R)) :
    Build R SignalId := do
  unless Identifier.isValid name do throw (.invalidName name)
  if ((← get).signalNamed? name).isSome then throw (.duplicateName name)
  let id := (← get).signals.size
  let leaf ← push (.signal id) format
  modify fun s => { s with
    signals := s.signals.push ⟨name, format, role, init⟩
    byName := s.byName.replace name id
    leaves := s.leaves.push leaf }
  return id

/-- The signal of a given name. -/
def signalNamed (name : String) : Build R SignalId := do
  match (← get).signalNamed? name with
  | some i => return i
  | none => throw (.unknownName name)

/-- A constant in the tightest format of its value. -/
def constant (v : Value R) : Build R NodeId := push (.const v) v.format

/-- The value and format of a constant in a domain. -/
def constantIn (v : Value R) : Domain → Value R × Format R
  | .real => (.real v.toScalar, .ofMagnitude v.toScalar)
  | domain =>
    let i := match v with
      | .int i => i
      | .real x => Scalar.round x
    let signedness := if domain = .sint ∨ i < 0 then .signed else .unsigned
    (.int i, .int (.tightOrFull signedness (.single i)))

/-- A constant in a given domain. -/
def pushConstantIn (v : Value R) (domain : Domain) : Build R NodeId :=
  push (.const (constantIn v domain).1) (constantIn v domain).2

/-- The node of an operand. -/
def operand : Operand R → Build R NodeId
  | .node i => return i
  | .signal i => return (← get).leaf i
  | .value v => constant v

/-! ## Widths -/

/-- The integer format of a node. -/
def requireInt (i : NodeId) : Build R IntFormat := do
  match (← get).format i with
  | .int f => return f
  | .real _ => throw (.domainMismatch .sint .real)

/-- The width of an unsigned node. -/
def requireUnsigned (i : NodeId) : Build R Nat := do
  match (← get).format i with
  | .int ⟨.unsigned, width, _⟩ => return width
  | f => throw (.notUnsigned f.text)

/-- The requested width, if it is at least the required one, which is the default. -/
def checkWidth (conversion : Conversion) (width : Option Nat) (required : Nat) : Build R Nat :=
  match width with
  | none => return required
  | some w => if w ≥ required then return w else throw (.conversionWidth conversion w required)

/-! ## Promotion -/

/-- An unsigned integer as a signed one, which takes one bit more. -/
def uintToSint (i : NodeId) (width : Option Nat) : Build R NodeId := do
  let f ← requireInt i
  let width ← checkWidth .uintToSint width (f.width + 1)
  push (.convert .uintToSint i) (.int ⟨.signed, width, f.range⟩)

/-- A signed integer as a real. -/
def sintToReal (i : NodeId) : Build R NodeId := do
  let magnitude := match (← get).format i with
    | .int f => max f.range.lo.natAbs f.range.hi.natAbs
    | .real _ => 0
  push (.convert .sintToReal i) (.ofMagnitude (Scalar.ofInt magnitude))

/-- A node in a domain that is at least its own. A constant is made anew instead of converted. -/
def promote (i : NodeId) (target : Domain) : Build R NodeId := do
  let domain := ((← get).format i).domain
  if domain = target then return i
  if target.rank < domain.rank then throw (.domainMismatch target domain)
  match (← get).const? i with
  | some v => pushConstantIn v target
  | none =>
    let i ← if domain = .uint then uintToSint i none else pure i
    if target = .real then sintToReal i else return i

/-- The largest domain of some nodes. -/
def commonDomain (s : Store R) (nodes : List NodeId) : Domain :=
  nodes.foldl (fun d i => d.join (s.format i).domain) .uint

/-- Nodes promoted to their largest domain. -/
def promoteAll (nodes : List NodeId) : Build R (List NodeId) := do
  let domain := commonDomain (← get) nodes
  nodes.mapM (promote · domain)

/-- Combine the formats of nodes from the left. -/
def foldFormats (f : Format R → Format R → Option (Format R)) : List NodeId → Build R (Format R)
  | [] => throw (.emptyOperands "fold")
  | i :: rest => do
    let s ← get
    rest.foldlM (fun format j =>
      match f format (s.format j) with
      | some format => return format
      | none => throw (.domainMismatch format.domain (s.format j).domain)) (s.format i)

/-! ## Arithmetic -/

/-- An operator on two values; integers stay integers. -/
def foldValues (op : ArithOp) : Value R → Value R → Value R
  | .int a, .int b => .int <|
    match op with
    | .sum => a + b
    | .product => a * b
    | .min => min a b
    | .max => max a b
  | a, b => .real <|
    match op with
    | .sum => a.toScalar + b.toScalar
    | .product => a.toScalar * b.toScalar
    | .min => Scalar.min a.toScalar b.toScalar
    | .max => Scalar.max a.toScalar b.toScalar

/-- The operands of a node of the same operator, or the node itself. -/
def flatten (s : Store R) (op : ArithOp) (i : NodeId) : List NodeId :=
  match s.kind i with
  | .arith inner xs => if inner = op then xs else [i]
  | _ => [i]

/-- Operands with those of nested nodes of the operator in their places. -/
def flattened (s : Store R) (op : ArithOp) (nodes : List NodeId) : List NodeId :=
  nodes.flatMap (flatten s op)

/-- The flattened operands that are not constant. -/
def terms (s : Store R) (op : ArithOp) (nodes : List NodeId) : List NodeId :=
  (flattened s op nodes).filter fun i => (s.const? i).isNone

/-- The constant ones of flattened operands folded into one, from the left. -/
def known (s : Store R) (op : ArithOp) (nodes : List NodeId) : Option (Value R) :=
  match (flattened s op nodes).filterMap s.const? with
  | [] => none
  | v :: vs => some (vs.foldl (foldValues op) v)

/-- Whether a node selects between zeros only. -/
def isZeroArray (s : Store R) (i : NodeId) : Bool :=
  match s.kind i with
  | .select elements _ => elements.all fun e => (s.const? e).any Value.isZero
  | _ => false

/-- Whether the operator ignores the value. -/
def isIdentity : ArithOp → Value R → Bool
  | .sum, v => v.isZero
  | .product, v => v.isOne
  | _, _ => false

/-- The operands that are left: the terms, and last the folded constant unless the operator ignores
it. -/
def remaining (op : ArithOp) (domain : Domain) (terms : List NodeId) :
    Option (Value R) → Build R (List NodeId)
  | some v => do
    if terms.isEmpty || !isIdentity op v then return terms ++ [← pushConstantIn v domain]
    else return terms
  | none => return terms

/-- An operator on the operands that are left; one operand needs no operator. -/
def assemble (op : ArithOp) (domain : Domain) : List NodeId → Build R NodeId
  | [] =>
    match op with
    | .sum => pushConstantIn (.int 0) domain
    | .product => pushConstantIn (.int 1) domain
    | _ => throw (.emptyOperands op.text)
  | [i] => return i
  | nodes => do push (.arith op nodes) (← foldFormats (Format.arithmetic? op) nodes)

/-- An operator on nodes of one domain: nested nodes of the operator are flattened, constants are
folded into one that stands last, a neutral one is dropped, and a product with zero is zero. -/
def combine (op : ArithOp) (domain : Domain) (nodes : List NodeId) : Build R NodeId := do
  let s ← get
  let known := known s op nodes
  let terms := terms s op nodes
  if op = .product ∧ (known.any Value.isZero ∨ terms.any (isZeroArray s)) then
    pushConstantIn (.int 0) domain
  else assemble op domain (← remaining op domain terms known)

/-- An operator on any number of operands. -/
def arithmetic (op : ArithOp) (operands : List (Operand R)) : Build R NodeId := do
  let nodes ← operands.mapM operand
  let domain := commonDomain (← get) nodes
  combine op domain (← nodes.mapM (promote · domain))

/-- The sum of operands. -/
def sum (operands : List (Operand R)) : Build R NodeId := arithmetic .sum operands

/-- The product of operands. -/
def product (operands : List (Operand R)) : Build R NodeId := arithmetic .product operands

/-- The smallest of operands. -/
def minimum (operands : List (Operand R)) : Build R NodeId := arithmetic .min operands

/-- The largest of operands. -/
def maximum (operands : List (Operand R)) : Build R NodeId := arithmetic .max operands

/-- The sum of two operands. -/
def add (a b : Operand R) : Build R NodeId := sum [a, b]

/-- The product of two operands. -/
def mul (a b : Operand R) : Build R NodeId := product [a, b]

/-- The negated operand. -/
def neg (a : Operand R) : Build R NodeId := product [.value (.int (-1)), a]

/-- The difference of two operands. -/
def sub (a b : Operand R) : Build R NodeId := do
  let b ← neg b
  add a (.node b)

/-- The operand brought between two limits. -/
def clamp (a lo hi : Operand R) : Build R NodeId := do
  let upper ← minimum [a, hi]
  maximum [.node upper, lo]

/-! ## Comparisons and bits -/

/-- A comparison of two operands. -/
def compare (op : CompareOp) (a b : Operand R) : Build R NodeId := do
  let a ← operand a
  let b ← operand b
  let domain := commonDomain (← get) [a, b]
  let a ← promote a domain
  let b ← promote b domain
  push (.compare op a b) .bit

/-- A bit operator on unsigned operands; the result is as wide as the widest. -/
def bitwise (op : BitOp) (operands : List (Operand R)) : Build R NodeId := do
  let nodes ← operands.mapM operand
  let widths ← nodes.mapM requireUnsigned
  match nodes with
  | [] => throw (.emptyOperands op.text)
  | [i] => return i
  | _ => push (.bitwise op nodes) (.uint (widths.foldl max 0))

/-- All bits of an unsigned operand inverted. -/
def bitwiseNot (a : Operand R) : Build R NodeId := do
  let a ← operand a
  let width ← requireUnsigned a
  push (.bitNot a) (.uint width)

/-- A shift by a fixed amount. To the left the word grows, to the right it shrinks to the range. -/
def shift (direction : ShiftDirection) (a : Operand R) (amount : Nat) : Build R NodeId := do
  let a ← operand a
  let f ← requireInt a
  if amount = 0 then return a
  let result : IntFormat := match direction with
    | .left => ⟨f.signedness, f.width + amount, f.range.shiftLeft amount⟩
    | .right => .tightOrFull f.signedness (f.range.shiftRight amount)
  push (.shift direction a amount) (.int result)

/-- The bits of an integer between two places. -/
def bitSlice (a : Operand R) (msb lsb : Nat) : Build R NodeId := do
  let a ← operand a
  let f ← requireInt a
  if msb < lsb ∨ f.width ≤ msb then throw (.invalidSlice msb lsb f.width)
  push (.slice a msb lsb) (.uint (msb - lsb + 1))

/-- The bits of unsigned operands in a row, the first most significant. -/
def concatenate (operands : List (Operand R)) : Build R NodeId := do
  let nodes ← operands.mapM operand
  let widths ← nodes.mapM requireUnsigned
  match nodes with
  | [] => throw (.emptyOperands "concatenate")
  | [i] => return i
  | _ => push (.concat nodes) (.uint (widths.foldl (· + ·) 0))

/-! ## Conversions -/

/-- An integer in another width of the same signedness. -/
def resize (i : NodeId) (f : IntFormat) (width : Option Nat) : Build R NodeId :=
  match width with
  | none => return i
  | some w => do
    if w = f.width then return i
    let w ← checkWidth .resize (some w) (IntFormat.tightOrFull f.signedness f.range).width
    push (.convert .resize i) (.int { f with width := w })

/-- All signed integers of a width, which needs a bit for the sign. -/
def fullSigned (width : Nat) : Build R IntFormat :=
  if width = 0 then throw .emptyFormat else return .full .signed width

/-- The format of a real rounded to a signed integer: of the requested width, or else as wide as the
bound asks. -/
def roundedFormat (width : Option Nat) (f : RealFormat R) : Build R IntFormat :=
  match width, f.bound.const? with
  | some width, _ => fullSigned width
  | none, some b =>
    match ClosedRange.ofBounds? (-Scalar.ceil b) (Scalar.ceil b) with
    | some r => return .tightOrFull .signed r
    | none => throw .emptyFormat
  | none, none => throw (.widthRequired .realToSint)

/-- A node as a signed integer; a real is rounded to the nearest one. -/
def nodeToSint (i : NodeId) (width : Option Nat) : Build R NodeId := do
  match (← get).format i with
  | .int f =>
    match f.signedness with
    | .unsigned => uintToSint i width
    | .signed => resize i f width
  | .real f => push (.convert .realToSint i) (.int (← roundedFormat width f))

/-- An integer node as an unsigned integer. One that can be negative is read as its two's complement
word and needs a width. -/
def intToUint (i : NodeId) (f : IntFormat) (width : Option Nat) : Build R NodeId :=
  match f.signedness with
  | .unsigned => resize i f width
  | .signed => do
    let result ← if f.range.lo < 0 then do
        let some w := width | throw (.widthRequired .sintToUint)
        let required := if 0 < f.range.hi then bitLength f.range.hi.toNat else 1
        let w ← checkWidth .sintToUint (some w) required
        pure (IntFormat.full .unsigned w)
      else do
        let tight := IntFormat.tightOrFull .unsigned f.range
        let w ← checkWidth .sintToUint width tight.width
        pure { tight with width := w }
    push (.convert .sintToUint i) (.int result)

/-- An operand as a signed integer. -/
def toSint (a : Operand R) (width : Option Nat) : Build R NodeId := do
  nodeToSint (← operand a) width

/-- An operand as an unsigned integer; a real is first rounded to a signed integer of one bit more. -/
def toUint (a : Operand R) (width : Option Nat) : Build R NodeId := do
  let i ← operand a
  match (← get).format i with
  | .int f => intToUint i f width
  | .real _ =>
    let j ← nodeToSint i (width.map (· + 1))
    intToUint j (← requireInt j) width

/-- An operand as a real. -/
def toReal (a : Operand R) : Build R NodeId := do
  promote (← operand a) .real

/-! ## Selection -/

/-- Whether all elements are one node, or constants of one value. -/
def allSame (s : Store R) (first : NodeId) (elements : List NodeId) : Bool :=
  elements.all fun e =>
    e == first ||
      match s.const? first, s.const? e with
      | some v, some w => w == v
      | _, _ => false

/-- The element at an address. There is an element for each address, and a selection between
identical elements is none. -/
def array (elements : List (Operand R)) (address : Operand R) : Build R NodeId := do
  let elements ← elements.mapM operand
  let address ← operand address
  let width ← requireUnsigned address
  if 64 ≤ width ∨ elements.length ≠ Nat.pow 2 width then throw (.arraySize elements.length width)
  let elements ← promoteAll elements
  let s ← get
  match elements with
  | [] => throw (.emptyOperands "fold")
  | first :: _ =>
    if allSame s first elements then return first
    push (.select elements address) (← foldFormats Format.union? elements)

/-- The first operand if the condition holds, and else the second. -/
def ifElse (condition a b : Operand R) : Build R NodeId := do
  let condition ← operand condition
  let f := (← get).format condition
  unless f.isBit do throw (.selectorNotBit f.text)
  array [b, a] (.node condition)

/-- The case at the address formed by selectors, the first most significant. -/
def eqnCase (cases : List (Operand R)) (selectors : List SignalId) : Build R NodeId := do
  let cases ← cases.mapM operand
  let s ← get
  for i in selectors do
    let f := (s.signal i).format
    unless f.isBit do throw (.selectorNotBit f.text)
  if 64 ≤ selectors.length ∨ cases.length ≠ Nat.pow 2 selectors.length then
    throw (.caseCount cases.length selectors.length)
  let cases ← promoteAll cases
  push (.cases cases selectors) (← foldFormats Format.union? cases)

/-- The time derivative of a real signal. -/
def deriv (i : SignalId) : Build R NodeId := do
  let f := ((← get).signal i).format
  unless f.domain = .real do throw (.domainMismatch .real f.domain)
  push (.deriv i) f

end Build

/-- Two expressions that are required to be equal. -/
structure Equation where
  lhs : NodeId
  rhs : NodeId
  deriving DecidableEq, Repr

end MixedSignal
