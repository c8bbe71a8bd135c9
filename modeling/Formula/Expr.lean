import Formula.Value

/-! Expression trees. Every node carries a tag, which says where it stands, which node it is, or
both; tags take no part in the comparison of trees. -/
namespace Formula

inductive Expr (α : Type) where
  | literal (tag : α) (value : Value)
  | vector (tag : α) (elems : List (Expr α))
  | var (tag : α) (name : String)
  | apply (tag : α) (func arg : Expr α)
  | letIn (tag : α) (name : String) (bound body : Expr α)

namespace Expr

variable {α β : Type}

def tag : Expr α → α
  | .literal a _ | .vector a _ | .var a _ | .apply a _ _ | .letIn a _ _ _ => a

/-- The nodes directly below a node, in order. -/
def children : Expr α → List (Expr α)
  | .literal _ _ | .var _ _ => []
  | .vector _ elems => elems
  | .apply _ func arg => [func, arg]
  | .letIn _ _ bound body => [bound, body]

mutual

/-- The tree with every tag replaced. -/
def map (f : α → β) : Expr α → Expr β
  | .literal a v => .literal (f a) v
  | .vector a es => .vector (f a) (mapAll f es)
  | .var a x => .var (f a) x
  | .apply a g x => .apply (f a) (map f g) (map f x)
  | .letIn a x b e => .letIn (f a) x (map f b) (map f e)

def mapAll (f : α → β) : List (Expr α) → List (Expr β)
  | [] => []
  | e :: es => map f e :: mapAll f es

end

mutual

/-- Structural equality, whatever the tags. -/
def same : Expr α → Expr β → Bool
  | .literal _ v, .literal _ w => v.same w
  | .vector _ es, .vector _ fs => sameAll es fs
  | .var _ x, .var _ y => x == y
  | .apply _ f x, .apply _ g y => same f g && same x y
  | .letIn _ x b e, .letIn _ y c f => x == y && same b c && same e f
  | _, _ => false

def sameAll : List (Expr α) → List (Expr β) → Bool
  | [], [] => true
  | e :: es, f :: fs => same e f && sameAll es fs
  | _, _ => false

end

mutual

/-- The nodes of the tree from the root down, each before its children. -/
def preorder : Expr α → List (Expr α)
  | e@(.literal _ _) | e@(.var _ _) => [e]
  | e@(.vector _ es) => e :: preorderAll es
  | e@(.apply _ f x) => e :: (preorder f ++ preorder x)
  | e@(.letIn _ _ b c) => e :: (preorder b ++ preorder c)

def preorderAll : List (Expr α) → List (Expr α)
  | [] => []
  | e :: es => preorder e ++ preorderAll es

end

end Expr

end Formula
