import Formula.Expr
import Formula.Position
import Std.Data.HashSet

/-! Trees whose nodes have an identity. A node may occur at several places of a tree, and of several
trees; occurrences with one identity are one node. -/
namespace Formula

/-- Which node a node is, and where it stands. -/
structure Tag where
  identity : Nat
  position : Position
deriving DecidableEq, Repr, Inhabited

abbrev Node := Expr Tag

namespace Node

def identity (n : Node) : Nat := n.tag.identity

def position (n : Node) : Position := n.tag.position

mutual

/-- Makes every node of a tree a node of its own. Identities are taken from `next` on, and the next
one is given back. -/
def label (next : Nat) : Expr Position → Node × Nat
  | .literal p v => (.literal ⟨next, p⟩ v, next + 1)
  | .vector p es =>
    let (es, after) := labelAll (next + 1) es
    (.vector ⟨next, p⟩ es, after)
  | .var p x => (.var ⟨next, p⟩ x, next + 1)
  | .apply p f x =>
    let (f, middle) := label (next + 1) f
    let (x, after) := label middle x
    (.apply ⟨next, p⟩ f x, after)
  | .letIn p x b e =>
    let (b, middle) := label (next + 1) b
    let (e, after) := label middle e
    (.letIn ⟨next, p⟩ x b e, after)

def labelAll (next : Nat) : List (Expr Position) → List Node × Nat
  | [] => ([], next)
  | e :: es =>
    let (n, middle) := label next e
    let (ns, after) := labelAll middle es
    (n :: ns, after)

end

/-- The distinct nodes met so far, the latest first, and their identities. -/
structure Visited where
  nodes : List Node
  identities : Std.HashSet Nat

namespace Visited

def empty : Visited := ⟨[], ∅⟩

/-- Meets a node after its children; a node met before is passed over. -/
def leave (n : Node) (seen : Visited) : Visited :=
  if seen.identities.contains n.identity then seen
  else ⟨n :: seen.nodes, seen.identities.insert n.identity⟩

mutual

/-- Meets the nodes of a tree, children first and each node once. What lies below a node that was
met before has been met too. -/
def visit (seen : Visited) : Node → Visited
  | .literal t v => seen.leave (.literal t v)
  | .var t x => seen.leave (.var t x)
  | .vector t es =>
    if seen.identities.contains t.identity then seen
    else (visitAll seen es).leave (.vector t es)
  | .apply t f x =>
    if seen.identities.contains t.identity then seen
    else (visit (visit seen f) x).leave (.apply t f x)
  | .letIn t x b e =>
    if seen.identities.contains t.identity then seen
    else (visit (visit seen b) e).leave (.letIn t x b e)

def visitAll (seen : Visited) : List Node → Visited
  | [] => seen
  | n :: ns => visitAll (visit seen n) ns

end

end Visited

/-- The distinct nodes of a tree, children before parents. -/
def distinct (n : Node) : List Node := (Visited.empty.visit n).nodes.reverse

end Node

end Formula
