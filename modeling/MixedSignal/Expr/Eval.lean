import Std.Data.HashMap
import MixedSignal.Error

/-!
# The value of an expression

`Store.eval` computes an expression from the values of the signals. Real arithmetic is that of the
scalars, integer arithmetic is exact, and every node brings its result into its format, wrapping
integers as words of fixed width do. `Store.eval` is the meaning that simplifications and emitted text
are measured against. The simulator computes it with `Store.evalShared`, which remembers the values of
nodes and so computes a shared one once.
-/

namespace MixedSignal

namespace Value

variable {R : Type} [Scalar R]

/-- The value as an integer; a real is rounded. -/
def toInt : Value R → Int
  | .int v => v
  | .real v => Scalar.round v

/-- The value brought into a format; integers wrap around. -/
def coerce (v : Value R) : Format R → Value R
  | .real _ => .real v.toScalar
  | .int f => .int (f.repr.wrap v.toInt)

/-- The value of a bit. -/
def ofBool (b : Bool) : Value R := .int b.toNat

end Value

namespace CompareOp

/-- The comparison of integers. -/
def evalInt (op : CompareOp) (a b : Int) : Bool :=
  match op with
  | lt => a < b
  | le => a ≤ b
  | gt => b < a
  | ge => b ≤ a
  | eq => a == b
  | ne => a != b

/-- The comparison of scalars; it fails if one of them is undefined. -/
def evalScalar {R : Type} [Scalar R] (op : CompareOp) (a b : R) : Bool :=
  match op with
  | lt => Scalar.lt a b
  | le => Scalar.le a b
  | gt => Scalar.lt b a
  | ge => Scalar.le b a
  | eq => a == b
  | ne => Scalar.lt a b || Scalar.lt b a

/-- The comparison of values; integers are compared exactly. -/
def eval {R : Type} [Scalar R] (op : CompareOp) : Value R → Value R → Bool
  | .int a, .int b => op.evalInt a b
  | a, b => op.evalScalar a.toScalar b.toScalar

end CompareOp

namespace ArithOp

/-- The operator on integers. -/
def evalInt (op : ArithOp) (xs : List Int) : Int :=
  match op with
  | sum => xs.foldl (· + ·) 0
  | product => xs.foldl (· * ·) 1
  | min => xs.min?.getD 0
  | max => xs.max?.getD 0

/-- The operator on scalars. -/
def evalScalar {R : Type} [Scalar R] (op : ArithOp) (xs : List R) : R :=
  match op with
  | sum => Scalar.sum xs
  | product => Scalar.product xs
  | min => Scalar.minimum xs
  | max => Scalar.maximum xs

end ArithOp

/-- The operator on words. -/
def BitOp.eval (op : BitOp) (a b : Nat) : Nat :=
  match op with
  | and => a &&& b
  | or => a ||| b
  | xor => a ^^^ b

namespace Store

variable {R : Type} [Scalar R]

/-- The width of an integer node. -/
def width (s : Store R) (i : NodeId) : Nat := (s.format i).int?.elim 1 (·.width)

/-- The result of a node before it is brought into its format, from the values of its operands. Only
the selected element of a selection is computed. -/
def evalKind {m : Type → Type} [Monad m] [MonadExcept EmitError m] (s : Store R)
    (values : SignalId → Value R) (operand : NodeId → m (Value R)) (n : Node R) : m (Value R) :=
  match n.kind with
  | .signal i =>
    if (s.signal i).role.isAuxiliary then throw (.unassigned (s.signal i).name)
    else return values i
  | .const v => return v
  | .arith op xs => do
    let vs ← xs.mapM operand
    match n.format with
    | .real _ => return .real (op.evalScalar (vs.map Value.toScalar))
    | .int _ => return .int (op.evalInt (vs.map Value.toInt))
  | .compare op a b => do
    let a ← operand a
    let b ← operand b
    return .ofBool (op.eval a b)
  | .bitwise op xs => do
    let vs ← xs.mapM operand
    match vs.map (·.toInt.toNat) with
    | [] => return .int 0
    | v :: vs => return .int (vs.foldl op.eval v : Nat)
  | .bitNot a => do
    let width := n.format.int?.elim 1 (·.width)
    return .int (Int.pow 2 width - 1 - (← operand a).toInt)
  | .shift .left a amount => do return .int (shiftedLeft (← operand a).toInt amount)
  | .shift .right a amount => do return .int ((← operand a).toInt >>> amount)
  | .slice a msb lsb => do
    let word := IntRepr.wrap ⟨.unsigned, s.width a⟩ (← operand a).toInt
    return .int (IntRepr.wrap ⟨.unsigned, msb - lsb + 1⟩ (word >>> lsb))
  | .concat xs => do
    let v ← xs.foldlM (fun (v : Nat) x => return (v <<< s.width x) ||| (← operand x).toInt.toNat) 0
    return .int v
  | .convert conversion a => do
    let v ← operand a
    match conversion with
    | .sintToReal => return .real v.toScalar
    | .realToSint => return .int (Scalar.round v.toScalar)
    | _ => return .int v.toInt
  | .select elements address => do
    let k := (← operand address).toInt
    match if k < 0 then none else elements[k.toNat]? with
    | some element => operand element
    | none => return .zeroFor n.format
  | .cases _ _ => throw (.unsupportedNode "EqnCase")
  | .deriv _ => throw (.unsupportedNode "Deriv")

/-- The value of an expression, given those of the signals. -/
def eval (s : Store R) (values : SignalId → Value R) (i : NodeId) : Except EmitError (Value R) := do
  let v ← s.evalKind values
    (fun j => if _h : j < i then eval s values j else throw (.unsupportedNode "")) (s.node i)
  return v.coerce (s.format i)
termination_by i

/-- The values of the nodes computed so far. -/
abbrev Memo (R : Type) := Std.HashMap NodeId (Value R)

/-- Evaluations that remember values. -/
abbrev Evaluation (R : Type) := StateT (Memo R) (Except EmitError)

/-- The value of an expression; every node is computed at its first use. -/
def evalShared (s : Store R) (values : SignalId → Value R) (i : NodeId) :
    Evaluation R (Value R) := do
  match (← get)[i]? with
  | some v => return v
  | none =>
    let v ← s.evalKind values
      (fun j => if _h : j < i then evalShared s values j else throw (.unsupportedNode "")) (s.node i)
    modify (·.insert i (v.coerce (s.format i)))
    return v.coerce (s.format i)
termination_by i

end Store

end MixedSignal
