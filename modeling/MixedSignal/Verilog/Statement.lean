import MixedSignal.Expr.Node
import MixedSignal.Text.Indent

/-!
# Statements of an emitted module

The body of a module is a list of statements, written out as text last. Reals go through the macros of
a real-number library, so that one text serves fixed-point and floating-point hardware. Integers use
the operators of SystemVerilog.
-/

namespace MixedSignal.Verilog

/-- An integer literal: a value with the width and signedness in which it is written. -/
structure Literal where
  value : Int
  repr : IntRepr
  deriving Repr

/-- The literal as it is written: the magnitude in its width, behind the sign. -/
def Literal.text (l : Literal) : String :=
  let sign := if l.value < 0 then "-" else ""
  let base := match l.repr.signedness with
    | .signed => "sd"
    | .unsigned => "d"
  sign ++ toString l.repr.width ++ "'" ++ base ++ toString l.value.natAbs

/-- The number of the top bit of a word. That of an empty word wraps around in 64 bits. -/
def topBit (r : IntRepr) : Nat := if r.width = 0 then UInt64.size - 1 else r.width - 1

/-- The type of an integer: a packed vector. -/
def typeText (r : IntRepr) : String :=
  let sign := match r.signedness with
    | .signed => " signed"
    | .unsigned => ""
  "logic" ++ sign ++ " [" ++ toString (topBit r) ++ ":0]"

/-- The right-hand side of an integer assignment. Operands are names. -/
inductive Source where
  | name (a : String)
  | literal (l : Literal)
  | zero
  | sum (operands : List String)
  | product (operands : List String)
  /-- The first operand if the comparison holds, and else the second. -/
  | choose (op : CompareOp) (a b : String)
  | compare (op : CompareOp) (a b : String)
  | bitwise (op : BitOp) (operands : List String)
  | bitNot (a : String)
  | shiftLeft (a : String) (amount : Nat)
  | shiftRight (signedness : Option Signedness) (a : String) (amount : Nat)
  | slice (a : String) (msb lsb : Nat)
  | concat (operands : List String)
  /-- An unsigned operand with a zero in front, read as signed. -/
  | signed (a : String)
  deriving Repr

/-- The right-hand side as it is written. -/
def Source.text : Source → String
  | name a => a
  | literal l => l.text
  | zero => "0"
  | sum operands => " + ".intercalate operands
  | product operands => " * ".intercalate operands
  | choose op a b => "(" ++ a ++ " " ++ op.text ++ " " ++ b ++ ") ? " ++ a ++ " : " ++ b
  | compare op a b => "(" ++ a ++ " " ++ op.text ++ " " ++ b ++ ")"
  | bitwise op operands => (" " ++ op.text ++ " ").intercalate operands
  | bitNot a => "~" ++ a
  | shiftLeft a amount => a ++ " << " ++ toString amount
  | shiftRight (some .signed) a amount => a ++ " >>> " ++ toString amount
  | shiftRight _ a amount => a ++ " >> " ++ toString amount
  | slice a msb lsb => a ++ "[" ++ toString msb ++ ":" ++ toString lsb ++ "]"
  | concat operands => "\x7b" ++ ", ".intercalate operands ++ "\x7d"
  | signed a => "$signed(\x7b1'b0, " ++ a ++ "\x7d)"

/-- The clock, reset and enable of a register by name. -/
structure Controls where
  clock : String
  reset : String
  enable : String
  deriving Repr

/-- A statement of the body of a module. -/
inductive Statement (R : Type) where
  | declareInt (name : String) (repr : IntRepr)
  | declareBit (name : String)
  /-- A real with its bound, and its fixed-point width and exponent unless the library is to choose
  them. -/
  | declareReal (name : String) (bound : Bound R) (layout : Option (WidthBound × ExponentBound))
  /-- A real of the format of another one. -/
  | declareLike (template name : String)
  /-- The signal of a real parameter, from the parameter's value. -/
  | declareParam (value name : String) (bound : Bound R)
  | constReal (value : R) (out : String)
  | assign (target : String) (source : Source)
  | assignReal (source target : String)
  | arithReal (op : ArithOp) (a b out : String)
  /-- A real times a constant, which needs no general multiplier. -/
  | scaleReal (factor : R) (a out : String)
  | compareReal (op : CompareOp) (a b out : String)
  | intToReal (a : String) (width : Nat) (out : String)
  | realToInt (a : String) (width : Nat) (out : String)
  /-- The entry at an address, and zero at all other addresses. -/
  | select (address : String) (entries : List String) (out : String)
  | registerReal (source target : String) (controls : Controls) (init : R)
  | registerInt (source target : String) (controls : Controls) (init : Literal)
  | probeReal (name : String)
  | probeInt (name : String) (width : Nat)
  deriving Repr

/-- The macro of an operator on two reals. -/
def arithCall : ArithOp → String
  | .sum => "ADD_REAL"
  | .product => "MUL_REAL"
  | .min => "MIN_REAL"
  | .max => "MAX_REAL"

/-- The macro of a comparison of two reals. -/
def compareCall : CompareOp → String
  | .lt => "LT_REAL"
  | .le => "LE_REAL"
  | .gt => "GT_REAL"
  | .ge => "GE_REAL"
  | .eq => "EQ_REAL"
  | .ne => "NE_REAL"

/-- A macro with its arguments. -/
def call (name : String) (args : List String) : String :=
  "`" ++ name ++ "(" ++ ", ".intercalate args ++ ")"

namespace Statement

variable {R : Type} [Scalar R]

/-- The lines of a statement, with how much deeper than the body each one stands. -/
def lines : Statement R → List (Nat × String)
  | declareInt name repr => [(0, typeText repr ++ " " ++ name ++ ";")]
  | declareBit name => [(0, "logic " ++ name ++ ";")]
  | declareReal name bound (some (width, exponent)) =>
    [(0, call "MAKE_FORMAT_REAL" [name, bound.text, width.text, exponent.text] ++ ";")]
  | declareReal name bound none => [(0, call "MAKE_REAL" [name, bound.text] ++ ";")]
  | declareLike template name => [(0, call "COPY_FORMAT_REAL" [template, name] ++ ";")]
  | declareParam value name bound =>
    [(0, call "MAKE_GENERIC_CONST_REAL" [value, name, bound.text] ++ ";")]
  | constReal value out => [(0, call "MAKE_CONST_REAL" [Scalar.literal value, out] ++ ";")]
  | assign target source => [(0, "assign " ++ target ++ " = " ++ source.text ++ ";")]
  | assignReal source target => [(0, call "ASSIGN_REAL" [source, target] ++ ";")]
  | arithReal op a b out => [(0, call (arithCall op) [a, b, out] ++ ";")]
  | scaleReal factor a out =>
    [(0, call "MUL_CONST_REAL" [Scalar.literal factor, a, out] ++ ";")]
  | compareReal op a b out => [(0, call (compareCall op) [a, b, out] ++ ";")]
  | intToReal a width out => [(0, call "INT_TO_REAL" [a, toString width, out] ++ ";")]
  | realToInt a width out => [(0, call "REAL_TO_INT" [a, toString width, out] ++ ";")]
  | select address entries out =>
    [(0, "always @(*) begin"), (1, "case (" ++ address ++ ")")] ++
      entries.zipIdx.map (fun (entry, k) => (2, toString k ++ ": " ++ out ++ " = " ++ entry ++ ";")) ++
      [(2, "default: " ++ out ++ " = 0;"), (1, "endcase"), (0, "end")]
  | registerReal source target controls init =>
    [(0, call "DFF_INTO_REAL" [source, target, controls.reset, controls.clock, controls.enable,
      Scalar.literal init] ++ ";")]
  | registerInt source target controls init =>
    [(0, "always @(posedge " ++ controls.clock ++ ") begin"),
      (1, "if (" ++ controls.reset ++ ") begin"),
      (2, target ++ " <= " ++ init.text ++ ";"),
      (1, "end else if (" ++ controls.enable ++ ") begin"),
      (2, target ++ " <= " ++ source ++ ";"),
      (1, "end"),
      (0, "end")]
  | probeReal name => [(0, call "PROBE_ANALOG" [name] ++ ";")]
  | probeInt name width => [(0, call "PROBE_DIGITAL" [name, toString width] ++ ";")]

/-- The text of a statement in the body of a module. -/
def text (s : Statement R) : String :=
  String.join (s.lines.map fun (depth, line) => Indent.line ⟨depth + 1⟩ line)

end Statement

end MixedSignal.Verilog
