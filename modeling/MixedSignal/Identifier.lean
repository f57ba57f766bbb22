/-!
# Identifiers of the emitted hardware description

A name can be used unescaped if it starts with a letter or an underscore, goes on with letters,
digits and underscores (all ASCII), and is no reserved word.
-/

namespace MixedSignal.Identifier

/-- Reserved words of SystemVerilog that could collide with signal names. -/
def reserved : List String := [
  "always", "always_comb", "always_ff", "always_latch", "and", "assign", "automatic", "begin", "bit",
  "buf", "byte", "case", "casex", "casez", "chandle", "class", "const", "default", "defparam", "do",
  "edge", "else", "end", "endcase", "endfunction", "endgenerate", "endmodule", "endtask", "enum",
  "event", "final", "for", "force", "forever", "fork", "function", "generate", "genvar", "if",
  "initial", "inout", "input", "int", "integer", "interface", "join", "localparam", "logic", "longint",
  "module", "nand", "negedge", "nor", "not", "or", "output", "packed", "parameter", "posedge",
  "real", "realtime", "reg", "repeat", "return", "shortint", "shortreal", "signed", "string",
  "struct", "supply0", "supply1", "task", "time", "tri", "type", "typedef", "union", "unsigned",
  "var", "void", "wait", "while", "wire", "wor", "xnor", "xor"]

/-- A character that can start an identifier. -/
def isStart (c : Char) : Bool := c.isAlpha || c == '_'

/-- A character that can continue an identifier. -/
def isPart (c : Char) : Bool := c.isAlphanum || c == '_'

/-- Whether the name can be used unescaped. -/
def isValid (name : String) : Bool :=
  match name.toList with
  | [] => false
  | c :: cs => isStart c && cs.all isPart && !reserved.contains name

end MixedSignal.Identifier
