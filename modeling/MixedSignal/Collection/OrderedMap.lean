/-!
# Maps in insertion order

A map that lists its entries in the order of their insertion. A key keeps its first value.
-/

namespace MixedSignal

/-- Entries in insertion order, each key once. -/
structure OrderedMap (κ β : Type) where
  entries : List (κ × β) := []
  deriving Repr

namespace OrderedMap

variable {κ β : Type} [BEq κ]

/-- The value of a key. -/
def get? (m : OrderedMap κ β) (k : κ) : Option β := m.entries.lookup k

/-- Whether the key has a value. -/
def contains (m : OrderedMap κ β) (k : κ) : Bool := (m.get? k).isSome

/-- The keys. -/
def keys (m : OrderedMap κ β) : List κ := m.entries.map (·.1)

/-- The values. -/
def values (m : OrderedMap κ β) : List β := m.entries.map (·.2)

/-- The map with one more entry, unless the key has a value already. -/
def insertFirst? (m : OrderedMap κ β) (k : κ) (v : β) : Option (OrderedMap κ β) :=
  if m.contains k then none else some ⟨m.entries ++ [(k, v)]⟩

/-- The map with the value put in place of that of the key, or behind all entries. -/
def replace (m : OrderedMap κ β) (k : κ) (v : β) : OrderedMap κ β :=
  if m.contains k then ⟨m.entries.map fun e => if e.1 == k then (e.1, v) else e⟩
  else ⟨m.entries ++ [(k, v)]⟩

end OrderedMap

end MixedSignal
