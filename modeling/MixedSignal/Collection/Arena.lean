import MixedSignal.Text.Quoted

/-!
# Arenas

Append-only storage: a value is reached by the key it was stored under, and is never removed. A key
belongs to the arena that made it and opens no other.
-/

namespace MixedSignal

/-- Values in the order of their storage. The tag tells arenas apart. -/
structure Arena (α : Type) where
  tag : Nat
  values : Array α := #[]
  deriving Repr

namespace Arena

variable {α : Type}

/-- A place in the arena with the given tag. -/
structure Key where
  tag : Nat
  index : Nat
  deriving DecidableEq, Repr

/-- The key as it is shown. -/
def Key.text (k : Key) : String := "<Key " ++ toString k.index ++ ">"

/-- Store a value. -/
def push (a : Arena α) (v : α) : Key × Arena α :=
  (⟨a.tag, a.values.size⟩, { a with values := a.values.push v })

/-- Whether the key belongs to the arena. -/
def contains (a : Arena α) (k : Key) : Bool := k.tag == a.tag && k.index < a.values.size

/-- The value under a key of the arena. -/
def get? (a : Arena α) (k : Key) : Option α :=
  if k.tag = a.tag then a.values[k.index]? else none

/-- Replace the value under a key of the arena. -/
def set? (a : Arena α) (k : Key) (v : α) : Option (Arena α) :=
  if a.contains k then some { a with values := a.values.setIfInBounds k.index v } else none

/-- All keys, in the order of storage. -/
def keys (a : Arena α) : List Key := (List.range a.values.size).map (⟨a.tag, ·⟩)

/-- The arena of texts as it is shown: every key with its quoted text. -/
def text (a : Arena String) : String :=
  "\x7b" ++ ", ".intercalate ((a.keys.zip a.values.toList).map fun (k, v) =>
    k.text ++ ": " ++ Quoted.quote v) ++ "\x7d"

end Arena

end MixedSignal
