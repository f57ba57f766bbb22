import Std.Data.HashSet

/-!
# Fresh names

All names of an emitted module share one scope. `Names.fresh` returns a name that was not used before:
the wanted one, or else the wanted one with the least free number behind it.
-/

namespace MixedSignal.Verilog

/-- The names in use. -/
structure Names where
  used : Std.HashSet String := {}

namespace Names

/-- The names of a list. -/
def ofList (names : List String) : Names := ⟨Std.HashSet.ofList names⟩

/-- A base name with a number. -/
def numbered (base : String) (i : Nat) : String := base ++ "_" ++ toString i

/-- The least number from `i` on, of at most as many as the fuel, that makes the base name free. -/
def firstFree (n : Names) (base : String) : Nat → Nat → Nat
  | 0, i => i
  | fuel + 1, i => if n.used.contains (numbered base i) then n.firstFree base fuel (i + 1) else i

/-- A name that is not in use. One of more numbers than there are names in use is free. -/
def choose (n : Names) (base : String) : String :=
  if n.used.contains base then numbered base (n.firstFree base (n.used.size + 1) 0) else base

/-- Take a name that is not in use. -/
def fresh (n : Names) (base : String) : String × Names :=
  (n.choose base, ⟨n.used.insert (n.choose base)⟩)

end Names

end MixedSignal.Verilog
