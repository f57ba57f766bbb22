/-!
# Dependencies

`components` lists the strongly connected components of the nodes that can be reached from a list,
each one after every other component it can reach. `dependencyOrder` lists the nodes so that each
comes after those it depends on, or names the members of a cycle.

The traversal goes depth first and keeps two stacks: the open nodes in the order of their discovery,
and among them those that may still start a component. Meeting an open node again removes from the
second stack all nodes discovered after it, since they lie on a cycle with it. The number of nodes
that can be reached bounds the depth of the traversal.
-/

namespace MixedSignal.Dependency

variable {α : Type} [BEq α]

/-- The state of the traversal. -/
structure Traversal (α : Type) where
  /-- Discovered nodes, the latest first. -/
  discovered : List α := []
  /-- Nodes whose component is complete. -/
  closed : List α := []
  /-- Open nodes that may start a component, the latest first. -/
  starts : List α := []
  /-- Open nodes, the latest first. -/
  opened : List α := []
  /-- Complete components, the latest first. -/
  components : List (List α) := []

namespace Traversal

/-- How many nodes had been discovered when the node was. -/
def number (t : Traversal α) (v : α) : Nat := t.discovered.length - t.discovered.idxOf v

/-- Discover a node. -/
def discover (t : Traversal α) (v : α) : Traversal α :=
  { t with discovered := v :: t.discovered, starts := v :: t.starts, opened := v :: t.opened }

/-- Meet an open node again: no node discovered after it starts a component. -/
def meet (t : Traversal α) (w : α) : Traversal α :=
  { t with starts := t.starts.dropWhile fun v => t.number w < t.number v }

/-- Split a list behind the first occurrence of a node. -/
def splitThrough (v : α) : List α → List α × List α
  | [] => ([], [])
  | w :: rest =>
    if w == v then ([w], rest)
    else let (before, after) := splitThrough v rest; (w :: before, after)

/-- Complete the component that starts with a node, if the node still starts one. -/
def finish (t : Traversal α) (v : α) : Traversal α :=
  match t.starts with
  | top :: starts =>
    if top == v then
      let (component, opened) := splitThrough v t.opened
      { t with
        starts, opened
        closed := component ++ t.closed
        components := component :: t.components }
    else t
  | [] => t

/-- Visit a node and what can be reached from it, unless it has been discovered. -/
def visit (children : α → List α) : Nat → α → Traversal α → Traversal α
  | 0, _, t => t
  | fuel + 1, v, t =>
    if t.discovered.contains v then t
    else
      let t := (children v).foldl (fun t w =>
        if t.discovered.contains w then (if t.closed.contains w then t else t.meet w)
        else visit children fuel w t) (t.discover v)
      t.finish v

end Traversal

/-- The strongly connected components of the nodes that can be reached, of which there are at most
`limit`. -/
def components (limit : Nat) (children : α → List α) (nodes : List α) : List (List α) :=
  (nodes.foldl (fun t v => t.visit children limit v) ({} : Traversal α)).components.reverse

/-- Whether a component has a cycle: two nodes, or one that depends on itself. -/
def isCyclic (children : α → List α) : List α → Bool
  | [v] => (children v).contains v
  | _ => true

/-- The nodes that can be reached, each after those it depends on, or a cycle. -/
def dependencyOrder (limit : Nat) (children : α → List α) (nodes : List α) :
    Except (List α) (List α) :=
  let all := components limit children nodes
  match all.find? (isCyclic children) with
  | some cycle => .error cycle.reverse
  | none => .ok all.flatten

end MixedSignal.Dependency
