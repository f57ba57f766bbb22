import Std.Data.HashMap
import MixedSignal.Expr.Eval
import MixedSignal.Verilog.Names
import MixedSignal.Verilog.Statement

/-!
# Statements that compute an expression

`Emission.node` returns a name that holds the value of an expression, after the statements that compute
it. Statements are only ever appended, and a node that has a name already gets no second one.
-/

namespace MixedSignal.Verilog

/-- What has been emitted: the names in use, the name of each computed node, and the statements. -/
structure Emitted (R : Type) where
  names : Names
  named : Std.HashMap NodeId String := {}
  statements : Array (Statement R) := #[]

/-- Computations that emit statements and may fail. -/
abbrev Emission (R : Type) := ExceptT EmitError (StateM (Emitted R))

namespace Emission

variable {R : Type} [Scalar R]

/-- Append a statement. -/
def emit (s : Statement R) : Emission R Unit :=
  modify fun l => { l with statements := l.statements.push s }

/-- Take a name that is not in use. -/
def freshName (base : String) : Emission R String :=
  modifyGet fun l =>
    let (name, names) := l.names.fresh base
    (name, { l with names })

/-- The name of a temporary. -/
def temporary : Emission R String := freshName "tmp"

/-! ## Declarations -/

/-- The fixed-point layout of a real: its own, or else the tightest of the default width for a known
bound, or else that which the library chooses. -/
def layout (realWidth : Nat) (f : RealFormat R) : Option (WidthBound × ExponentBound) :=
  match f.width, f.exponent with
  | some width, some exponent => some (width, exponent)
  | width, _ => f.bound.const?.map fun v =>
    let width := match width with
      | some (.const w) => if 2 ≤ w then w else realWidth
      | _ => realWidth
    (.const width, .const (FixedPoint.exponent v width))

/-- The declaration of a real. -/
def declarationOfReal (realWidth : Nat) (name : String) (f : RealFormat R) : Statement R :=
  .declareReal name f.bound (layout realWidth f)

/-- The declaration of a signal. -/
def declarationOf (realWidth : Nat) (name : String) : Format R → Statement R
  | .real f => declarationOfReal realWidth name f
  | .int f => .declareInt name f.repr

/-- An integer temporary with its value. -/
def assignInt (r : IntRepr) (source : Source) : Emission R String := do
  let out ← temporary
  emit (.declareInt out r)
  emit (.assign out source)
  return out

/-- An integer temporary with its value, for a node that has an integer format. -/
def assignTo (f : Format R) (source : Source) : Emission R String :=
  match f with
  | .int f => assignInt f.repr source
  | .real _ => throw (.unsupportedNode "real bit operation")

/-! ## Arithmetic -/

/-- Combine neighbours in pairs; an odd last one is kept. -/
def pairs (op : ArithOp) : List String → Emission R (List String)
  | a :: b :: rest => do
    let out ← temporary
    emit (.arithReal op a b out)
    return out :: (← pairs op rest)
  | rest => return rest

/-- Combine neighbours in pairs until one is left. Each round leaves fewer names, so that as many
rounds as there are names suffice. -/
def rounds (op : ArithOp) : Nat → List String → Emission R (List String)
  | 0, names => return names
  | n + 1, names => if names.length ≤ 1 then return names else do rounds op n (← pairs op names)

/-- The result of an operator on no reals. -/
def emptyResult : ArithOp → R
  | .product => 1
  | _ => 0

/-- A balanced tree of an operator on reals. -/
def tree (op : ArithOp) (names : List String) : Emission R String := do
  match ← rounds op names.length names with
  | name :: _ => return name
  | [] =>
    let out ← temporary
    emit (.constReal (emptyResult op) out)
    return out

/-- The constant factor of a product, which stands last, and the other factors. -/
def constantFactor? (s : Store R) (op : ArithOp) (operands : List NodeId) :
    Option (R × List NodeId) :=
  match op, operands.dropLast, operands.getLast? with
  | .product, rest@(_ :: _), some last => (s.const? last).map fun v => (v.toScalar, rest)
  | _, _, _ => none

/-- An operator on reals; a product with a constant is scaled last. -/
def realArith (s : Store R) (operand : NodeId → Emission R String) (op : ArithOp)
    (operands : List NodeId) : Emission R String := do
  match constantFactor? s op operands with
  | some (factor, rest) =>
    let product ← tree .product (← rest.mapM operand)
    let out ← temporary
    emit (.scaleReal factor product out)
    return out
  | none => tree op (← operands.mapM operand)

/-- The chain of comparisons that finds the smallest or largest name. Partial results have room
for every operand. -/
def chain (op : CompareOp) (partialRepr repr : IntRepr) :
    String → List String → Emission R String
  | found, [] => return found
  | found, [a] => assignInt repr (.choose op found a)
  | found, a :: rest => do
    chain op partialRepr repr (← assignInt partialRepr (.choose op found a)) rest

/-- The smallest or largest name. -/
def extremum (op : CompareOp) (partialRepr repr : IntRepr) : List String → Emission R String
  | [] => assignInt repr .zero
  | a :: rest => chain op partialRepr repr a rest

/-- The width that holds every operand. -/
def widest (s : Store R) (operands : List NodeId) (f : IntFormat) : Nat :=
  ((operands.filterMap fun i => (s.format i).int?).map (·.width)).max?.getD f.width

/-- The word of the partial results of a chain. -/
def partialRepr (s : Store R) (operands : List NodeId) (f : IntFormat) : IntRepr :=
  ⟨f.signedness, widest s operands f⟩

/-- An operator on integers. -/
def intArith (s : Store R) (operand : NodeId → Emission R String) (op : ArithOp)
    (operands : List NodeId) (f : IntFormat) : Emission R String := do
  let names ← operands.mapM operand
  let chained (order : CompareOp) : Emission R String :=
    if (partialRepr s operands f).hasValues then
      extremum order (partialRepr s operands f) f.repr names
    else throw .emptyWord
  match op with
  | .sum => assignInt f.repr (.sum names)
  | .product => assignInt f.repr (.product names)
  | .min => chained .lt
  | .max => chained .gt

/-! ## Selections -/

/-- An entry of a selection between reals: the element, in the format of the result, since the binary
points of elements may differ. -/
def realEntry (out value : String) (k : Nat) : Emission R String := do
  let entry ← freshName (Names.numbered out k)
  emit (.declareLike out entry)
  emit (.assignReal value entry)
  return entry

/-- An entry of a selection between integers: the element, written in place if it is constant. -/
def intEntry (s : Store R) (operand : NodeId → Emission R String) (i : NodeId) : Emission R String :=
  match s.const? i, s.format i with
  | some v, .int f => return Literal.text ⟨v.toInt, f.repr⟩
  | _, _ => operand i

/-- A selection between elements. -/
def select (s : Store R) (realWidth : Nat) (operand : NodeId → Emission R String) (f : Format R)
    (elements : List NodeId) (address : NodeId) : Emission R String := do
  let address ← operand address
  let out ← temporary
  let entries ← match f with
    | .real f => do
      let values ← elements.mapM operand
      emit (declarationOfReal realWidth out f)
      values.zipIdx.mapM fun (value, k) => realEntry out value k
    | .int f => do
      let entries ← elements.mapM (intEntry s operand)
      emit (.declareInt out f.repr)
      pure entries
  emit (.select address entries out)
  return out

/-! ## Nodes -/

/-- A constant. -/
def constant (v : Value R) (f : Format R) : Emission R String := do
  match f with
  | .real _ =>
    let out ← temporary
    emit (.constReal v.toScalar out)
    return out
  | .int f => assignInt f.repr (.literal ⟨v.toInt, f.repr⟩)

/-- A comparison. -/
def compare (s : Store R) (operand : NodeId → Emission R String) (op : CompareOp) (a b : NodeId) :
    Emission R String := do
  let x ← operand a
  let y ← operand b
  let out ← temporary
  match s.format a with
  | .real _ => emit (.compareReal op x y out)
  | .int _ =>
    emit (.declareBit out)
    emit (.assign out (.compare op x y))
  return out

/-- A conversion. A change of width is left to the assignment, which extends and cuts. -/
def convert (s : Store R) (operand : NodeId → Emission R String) (conversion : Conversion) (a : NodeId)
    (f : Format R) : Emission R String := do
  let x ← operand a
  match conversion with
  | .uintToSint => assignTo f (.signed x)
  | .sintToUint | .resize => assignTo f (.name x)
  | .sintToReal =>
    let out ← temporary
    emit (.intToReal x (s.width a) out)
    return out
  | .realToSint =>
    let out ← temporary
    emit (.realToInt x (f.int?.elim 1 (·.width)) out)
    return out

/-- The name of a node, from those of its operands. -/
def ofKind (s : Store R) (realWidth : Nat) (operand : NodeId → Emission R String) (n : Node R) :
    Emission R String := do
  match n.kind with
  | .signal i => return (s.signal i).name
  | .const v => constant v n.format
  | .arith op operands =>
    match n.format with
    | .real _ => realArith s operand op operands
    | .int f => intArith s operand op operands f
  | .compare op a b => compare s operand op a b
  | .bitwise op operands => assignTo n.format (.bitwise op (← operands.mapM operand))
  | .bitNot a => assignTo n.format (.bitNot (← operand a))
  | .shift .left a amount => assignTo n.format (.shiftLeft (← operand a) amount)
  | .shift .right a amount =>
    assignTo n.format (.shiftRight ((s.format a).int?.map (·.signedness)) (← operand a) amount)
  | .slice a msb lsb => assignTo n.format (.slice (← operand a) msb lsb)
  | .concat operands => assignTo n.format (.concat (← operands.mapM operand))
  | .convert conversion a => convert s operand conversion a n.format
  | .select elements address => select s realWidth operand n.format elements address
  | .cases _ _ => throw (.unsupportedNode "EqnCase")
  | .deriv _ => throw (.unsupportedNode "Deriv")

/-- A name that holds the value of a node. -/
def node (s : Store R) (realWidth : Nat) (i : NodeId) : Emission R String := do
  match (← get).named[i]? with
  | some name => return name
  | none =>
    let name ← ofKind s realWidth
      (fun j => if _h : j < i then node s realWidth j else throw (.unsupportedNode "")) (s.node i)
    modify fun l => { l with named := l.named.insert i name }
    return name
termination_by i

end Emission

end MixedSignal.Verilog
