import MixedSignal.Expr.Node

/-!
# The text of an expression

The text that messages show, such as `(a + (b*2.0))`.
-/

namespace MixedSignal.Store

variable {R : Type} [Scalar R]

/-- The text of a node from the texts of its operands. -/
def kindText (s : Store R) (operand : NodeId → String) : NodeKind R → String
  | .signal i => (s.signal i).name
  | .const v => v.text
  | .arith .sum xs => "(" ++ " + ".intercalate (xs.map operand) ++ ")"
  | .arith .product xs => "(" ++ "*".intercalate (xs.map operand) ++ ")"
  | .arith op xs => op.text ++ "(" ++ ", ".intercalate (xs.map operand) ++ ")"
  | .compare op a b => "(" ++ operand a ++ " " ++ op.text ++ " " ++ operand b ++ ")"
  | .bitwise op xs => "(" ++ (" " ++ op.text ++ " ").intercalate (xs.map operand) ++ ")"
  | .bitNot a => "~" ++ operand a
  | .shift .left a amount => "(" ++ operand a ++ " << " ++ toString amount ++ ")"
  | .shift .right a amount => "(" ++ operand a ++ " >> " ++ toString amount ++ ")"
  | .slice a msb lsb => operand a ++ "[" ++ toString msb ++ ":" ++ toString lsb ++ "]"
  | .concat xs => "\x7b" ++ ", ".intercalate (xs.map operand) ++ "\x7d"
  | .convert conversion a => conversion.text ++ "(" ++ operand a ++ ")"
  | .select elements address =>
    "[" ++ ", ".intercalate (elements.map operand) ++ "][" ++ operand address ++ "]"
  | .cases cases selectors =>
    "case(" ++ ", ".intercalate (selectors.map fun i => (s.signal i).name) ++ ")["
      ++ ", ".intercalate (cases.map operand) ++ "]"
  | .deriv i => "d/dt(" ++ (s.signal i).name ++ ")"

/-- The text of an expression. -/
def text (s : Store R) (i : NodeId) : String :=
  s.kindText (fun j => if _h : j < i then text s j else "") (s.kind i)
termination_by i

end MixedSignal.Store
