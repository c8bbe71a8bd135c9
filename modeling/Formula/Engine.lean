import Formula.Parse
import Formula.Session

/-! Compiling formulas once and running them against a set of names. -/
namespace Formula

/-- Either family of failures. -/
inductive Error where
  | parse (error : ParseError)
  | runtime (error : RuntimeError)
deriving DecidableEq, Repr

namespace Error

def message : Error → String
  | .parse e => e.message
  | .runtime e => e.message

def text : Error → String
  | .parse e => e.text
  | .runtime e => e.text

/-- Where a text stops making sense, or where an evaluation failed first. -/
def position? : Error → Option Position
  | .parse e => some e.position
  | .runtime e => e.trace.head?

end Error

/-- The names that formulas may use, whether they are optimised, and how deep they may nest when
they run. -/
structure Engine where
  env : Env
  optimises : Bool
  limit : Nat

namespace Engine

/-- An engine whose names are the prelude and the given ones, of which the last binding counts. -/
def new (optimises : Bool) (limit : Nat) (globals : Bindings) : Engine :=
  ⟨globals.foldl (fun env (name, value) => env.register name value) .prelude, optimises, limit⟩

variable {σ : Type}

/-- The tree that runs for a tree that was read. -/
def prepare (e : Engine) (s : Session σ) (tree : Expr Position) : Node × Session σ :=
  let (n, s) := s.build tree
  if e.optimises then
    let (n, _, s) := s.optimise n
    (n, s)
  else (n, s)

def compile (e : Engine) (s : Session σ) (source text : String) :
    Except Error (Node × Session σ) :=
  match parse source text with
  | .ok tree => .ok (e.prepare s tree)
  | .error error => .error (.parse error)

/-- Runs a compiled formula; nodes keep their values between runs. -/
def run (e : Engine) (call : Caller σ) (s : Session σ) (n : Node) :
    Except Error Value × Session σ :=
  match s.eval call e.limit n e.env with
  | (.ok v, s) => (.ok v, s)
  | (.error error, s) => (.error (.runtime error), s)

end Engine

end Formula
