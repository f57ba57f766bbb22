import MixedSignal.Expr.Error
import MixedSignal.FixedPoint

/-!
# Coefficient tables

Tables of reals or integers that a model looks up. The file of a table has one binary word per line;
reals are fixed-point words that share an exponent, which the name of the file tells.
-/

namespace MixedSignal

/-- Reals as fixed-point words with a shared exponent. -/
structure RealTable (R : Type) where
  values : List R
  width : Nat
  exponent : Int
  deriving Repr

/-- Integers of one width. -/
structure IntTable where
  values : List Int
  signedness : Signedness
  width : Nat
  deriving DecidableEq, Repr

/-- A coefficient table. -/
inductive Table (R : Type) where
  | real (table : RealTable R)
  | int (table : IntTable)
  deriving Repr

variable {R : Type} [Scalar R]

/-- A table of reals. Without an exponent, the smallest one for the largest magnitude is used. -/
def RealTable.ofValues (values : List R) (width : Nat) (exponent : Option Int) :
    Except ConstructionError (RealTable R) :=
  match values.find? fun v => !Scalar.isFinite v with
  | some v => .error (.invalidRange (Scalar.plain v))
  | none =>
    if width < 2 then .error (.tableWidth width 2)
    else if FixedPoint.maxWidth < width then .error (.tableTooWide width FixedPoint.maxWidth)
    else
      let largest := values.foldl (fun m v => Scalar.max m (Scalar.abs v)) 0
      .ok ⟨values, width, exponent.getD (FixedPoint.exponent largest width)⟩

/-- The range of some integers, that of zero for none. -/
def IntTable.rangeOf : List Int → ClosedRange
  | [] => .single 0
  | v :: vs => vs.foldl (fun r v => r.hull (.single v)) (.single v)

/-- A table of integers. Without a width, the narrowest one for all values is used. -/
def IntTable.ofValues (values : List Int) (signedness : Signedness) (width : Option Nat) :
    Except ConstructionError IntTable :=
  let range := rangeOf values
  match IntRepr.widthFor? signedness range with
  | none => .error (.notUnsigned ("table with values in " ++ range.text))
  | some required =>
    let width := width.getD required
    if width < required then .error (.tableWidth width required)
    else .ok ⟨values, signedness, width⟩

namespace Table

/-- The number of entries. -/
def length : Table R → Nat
  | .real t => t.values.length
  | .int t => t.values.length

/-- The name of the file of a table. -/
def fileName (t : Table R) (name : String) : String :=
  match t with
  | .real t => name ++ "_exp_" ++ toString t.exponent ++ ".mem"
  | .int _ => name ++ ".mem"

/-- The words of a table as they are written. -/
def words : Table R → List String
  | .real t =>
    t.values.map fun v => IntRepr.bits ⟨.signed, t.width⟩ (FixedPoint.encode v t.exponent)
  | .int t => t.values.map (IntRepr.bits ⟨t.signedness, t.width⟩)

/-- The contents of the file: one word per line. -/
def contents (t : Table R) : String := String.join (t.words.map (· ++ "\n"))

/-- The entries as values. -/
def values : Table R → List (Value R)
  | .real t => t.values.map .real
  | .int t => t.values.map .int

/-- Zero in the domain of a table. -/
def zero : Table R → Value R
  | .real _ => .real 0
  | .int _ => .int 0

/-- The entries as values, with zeros up to a given number. -/
def paddedValues (t : Table R) (length : Nat) : List (Value R) :=
  t.values ++ List.replicate (length - t.length) t.zero

end Table

end MixedSignal
