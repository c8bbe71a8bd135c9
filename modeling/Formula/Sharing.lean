import Formula.Node

/-! One pass that shares equal subtrees and inlines every `let`. Rebuilt nodes are looked up among the
nodes seen so far; since their children have been looked up before, two nodes are equal exactly
when they have the same form and the very same children. -/
namespace Formula

/-- The nodes seen in a pass, in the order in which they came, and the next unused identity. -/
structure Register where
  seen : Array Node
  next : Nat

/-- The expressions that names stand for, the innermost name first. -/
abbrev Scope := List (String × Node)

namespace Node

/-- Whether two occurrences are of the very same node. -/
def isSame (x y : Node) : Bool := x.identity == y.identity

/-- Whether two lists hold the very same nodes. -/
def areSame : List Node → List Node → Bool
  | [], [] => true
  | x :: xs, y :: ys => isSame x y && areSame xs ys
  | _, _ => false

/-- Equality of nodes whose children are the very same exactly when they are equal. A `let` is equal
to nothing. -/
def sameShape : Node → Node → Bool
  | .literal _ v, .literal _ w => v.same w
  | .vector _ xs, .vector _ ys => areSame xs ys
  | .var _ x, .var _ y => x == y
  | .apply _ f x, .apply _ g y => isSame f g && isSame x y
  | _, _ => false

end Node

namespace Register

def empty (next : Nat) : Register := ⟨#[], next⟩

def size (r : Register) : Nat := r.seen.size

/-- The first node seen that is equal to `n`, or `n` itself, which is then seen. -/
def seek (r : Register) (n : Node) : Node × Register :=
  match r.seen.find? (·.sameShape n) with
  | some found => (found, r)
  | none => (n, { r with seen := r.seen.push n })

/-- Looks a new node up that stands at `p`. -/
def build (r : Register) (p : Position) (node : Tag → Node) : Node × Register :=
  { r with next := r.next + 1 }.seek (node ⟨r.next, p⟩)

end Register

mutual

/-- The shared form of a node in which names stand for expressions. A literal and a free variable are
kept as nodes; vectors and applications are built anew. -/
def Node.optimise (scope : Scope) : Node → Register → Node × Register
  | .literal t v, r => r.seek (.literal t v)
  | .vector t es, r =>
    let (es, r) := Node.optimiseAll scope es r
    r.build t.position fun t => .vector t es
  | .var t x, r =>
    match scope.lookup x with
    | some bound => (bound, r)
    | none => r.seek (.var t x)
  | .apply t f x, r =>
    let (f, r) := Node.optimise scope f r
    let (x, r) := Node.optimise scope x r
    r.build t.position fun t => .apply t f x
  | .letIn _ x b e, r =>
    let (b, r) := Node.optimise scope b r
    Node.optimise ((x, b) :: scope) e r

def Node.optimiseAll (scope : Scope) : List Node → Register → List Node × Register
  | [], r => ([], r)
  | n :: ns, r =>
    let (n, r) := Node.optimise scope n r
    let (ns, r) := Node.optimiseAll scope ns r
    (n :: ns, r)

end

end Formula
