import Std.Data.TreeMap
import MixedSignal.Expr.Build

/-!
# Transformed expressions

`resolveCases` replaces case tables by the case that a setting of the selectors picks.
`distributeProducts` multiplies constants into sums, so that `c * (a + b)` becomes `c * a + c * b`.
Both make new nodes and transform every node once, so that what was shared stays shared.
-/

namespace MixedSignal

/-- Computations that remember the transformed form of nodes. -/
abbrev Transform (R : Type) := StateT (Std.TreeMap NodeId NodeId) (Build R)

namespace Transform

variable {R : Type} [Scalar R]

/-- The store as it is now. -/
def store : Transform R (Store R) := StateT.lift get

/-- The transformed form of a node, computed at the first request. -/
def remember (i : NodeId) (transform : Transform R NodeId) : Transform R NodeId := do
  match (← get)[i]? with
  | some j => return j
  | none =>
    let j ← transform
    modify (·.insert i j)
    return j

/-! ## Case tables -/

/-- The number whose bits these are, the first most significant. -/
def address (bits : List Bool) : Nat := bits.foldl (fun n b => 2 * n + b.toNat) 0

/-- Replace every case table whose selectors all have a value by the case they pick. Tables with other
selectors are kept, with their cases transformed. -/
def resolve (setting : SignalId → Option Bool) (i : NodeId) : Transform R NodeId :=
  remember i do
    let below (j : NodeId) : Transform R NodeId :=
      if _h : j < i then resolve setting j else pure j
    match (← store).kind i with
    | .cases cases selectors =>
      match selectors.mapM setting with
      | some bits => below (cases.getD (address bits) i)
      | none =>
        let cases ← cases.mapM below
        StateT.lift (Build.eqnCase (cases.map .node) selectors)
    | .arith op xs =>
      let xs ← xs.mapM below
      StateT.lift (Build.arithmetic op (xs.map .node))
    | .select elements address =>
      let elements ← elements.mapM below
      StateT.lift (Build.array (elements.map .node) (.node address))
    | _ => return i
termination_by i

/-! ## Products -/

/-- The terms and the factor of a product of a sum and a constant. Folding puts the constant last. -/
def scaledSum? (s : Store R) (i : NodeId) : Option (List NodeId × Value R) :=
  match s.kind i with
  | .arith .product [a, b] =>
    match s.kind a, s.const? b with
    | .arith .sum terms, some v => some (terms, v)
    | _, _ => none
  | _ => none

/-- Multiply constants into the sums of a node. Its operands go first, and so do the scaled terms of a
sum, both by `next`. -/
def distributeStep (next : NodeId → Transform R NodeId) (i : NodeId) : Transform R NodeId :=
  remember i do
    match (← store).kind i with
    | .arith .sum xs =>
      let xs ← xs.mapM next
      StateT.lift (Build.sum (xs.map .node))
    | .arith .product xs =>
      let xs ← xs.mapM next
      let product ← StateT.lift (Build.product (xs.map .node))
      match scaledSum? (← store) product with
      | some (terms, v) =>
        let scaled ← terms.mapM fun term => do
          let term ← StateT.lift (Build.mul (.node term) (.value v))
          next term
        StateT.lift (Build.sum (scaled.map .node))
      | none => return product
    | _ => return i

/-- Multiply constants into sums, going down so many levels. A scaled term of a sum is no deeper than
the sum, so the depth of an expression bounds the recursion, and the number of a node bounds its
depth. -/
def distribute : Nat → NodeId → Transform R NodeId
  | 0, i => return i
  | fuel + 1, i => distributeStep (distribute fuel) i

end Transform

namespace Build

variable {R : Type} [Scalar R]

/-- An expression with its case tables resolved by a setting of selectors. -/
def resolveCases (setting : SignalId → Option Bool) (i : NodeId) : Build R NodeId :=
  (Transform.resolve setting i).run' {}

/-- An expression with constants multiplied into sums. -/
def distributeProducts (i : NodeId) : Build R NodeId := (Transform.distribute (i + 2) i).run' {}

end Build

end MixedSignal
