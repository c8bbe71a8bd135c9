import Formula.Evaluator
import Formula.Sharing

/-! A session: trees are built, shared and evaluated in turn, and the values that nodes keep live as
long as the session. -/
namespace Formula

/-- The next unused identity, and the machine on which nodes are evaluated. -/
structure Session (σ : Type) where
  next : Nat
  machine : Machine σ

namespace Session

variable {σ : Type}

def initial (world : σ) : Session σ := ⟨0, .initial world⟩

/-- Makes nodes of their own for a tree. -/
def build (s : Session σ) (tree : Expr Position) : Node × Session σ :=
  let (n, next) := Node.label s.next tree
  (n, { s with next := next })

/-- A new tag at a position, for a node above nodes of the session. -/
def tag (s : Session σ) (p : Position) : Tag × Session σ :=
  (⟨s.next, p⟩, { s with next := s.next + 1 })

/-- Shares and inlines a node in a register of its own, and tells how many nodes were seen. -/
def optimise (s : Session σ) (n : Node) : Node × Nat × Session σ :=
  let (n, r) := n.optimise [] (.empty s.next)
  (n, r.size, { s with next := r.next })

def eval (call : Caller σ) (limit : Nat) (s : Session σ) (n : Node) (env : Env) :
    Outcome × Session σ :=
  let (outcome, machine) := n.eval call limit env s.machine
  (outcome, { s with machine := machine })

/-- The value that a node keeps. -/
def kept? (s : Session σ) (n : Node) : Option Value := s.machine.memo[n.identity]?

end Session

end Formula
