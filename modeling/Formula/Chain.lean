import Formula.Expr
import Formula.Operator

/-! Chains of operands and operators. Every prefix sign applies to its own operand alone; then the
operators of each level are joined from the left, the tightest level first. -/
namespace Formula

variable {α : Type}

/-- An operand with the signs before it, the nearest sign first. -/
structure Term (α : Type) where
  signs : List (Sign × α)
  operand : Expr α

/-- A sign is the application of its variable, both placed at the sign. -/
def Sign.apply (s : Sign) (tag : α) (e : Expr α) : Expr α := .apply tag (.var tag s.name) e

def Term.toExpr (t : Term α) : Expr α :=
  t.signs.foldl (fun e (s, tag) => s.apply tag e) t.operand

/-- An operator with its operands applies its variable to the left one and then to the right one,
all three nodes placed at the operator. -/
def Operator.join (op : Operator) (tag : α) (left right : Expr α) : Expr α :=
  .apply tag (.apply tag (.var tag op.symbol) left) right

/-- An operator and the operand to its right. -/
structure Link (β α : Type) where
  op : Operator
  tag : α
  operand : β

/-- Joins the operators of one level to the operands beside them, from the left. -/
def joinLevel (level : Nat) (first : Expr α) :
    List (Link (Expr α) α) → Expr α × List (Link (Expr α) α)
  | [] => (first, [])
  | link :: links =>
    if link.op.level = level then
      joinLevel level (link.op.join link.tag first link.operand) links
    else
      let (second, later) := joinLevel level link.operand links
      (first, ⟨link.op, link.tag, second⟩ :: later)

/-- Joins the operators of the given levels in turn. -/
def joinLevels (levels : List Nat) (first : Expr α) (links : List (Link (Expr α) α)) :
    Expr α × List (Link (Expr α) α) :=
  levels.foldl (fun (first, links) level => joinLevel level first links) (first, links)

/-- Terms joined by operators, as they are written. -/
structure Chain (α : Type) where
  first : Term α
  links : List (Link (Term α) α)

/-- The tree that a chain stands for. -/
def Chain.toExpr (c : Chain α) : Expr α :=
  (joinLevels Operator.levels c.first.toExpr
    (c.links.map fun link => ⟨link.op, link.tag, link.operand.toExpr⟩)).1

end Formula
