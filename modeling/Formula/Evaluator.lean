import Formula.Builtin.Call
import Formula.Env
import Formula.Node
import Std.Data.HashMap

/-! Evaluation of nodes in nested frames. Every node keeps the first value it evaluates to, whatever
frames it is evaluated in later; failures are not kept. How deep nodes nest is counted, and a node
that lies too deep fails, unless its value is known. Functions are called through the caller, which
may act on a world of its own. -/
namespace Formula

/-- How functions are called. -/
abbrev Caller (σ : Type) := Callee → List Value → Value → σ → Except Fault Value × σ

/-- Calls predefined operations, and leaves the host's functions to the host. -/
def Caller.ofHost {σ : Type} (host : Nat → List Value → Value → σ → Except Fault Value × σ) :
    Caller σ
  | .builtin operation, captured, arg, world => (operation.call captured arg, world)
  | .host identity, captured, arg, world => host identity captured arg world

/-- The values that nodes have, by the identity of the node. -/
abbrev Memo := Std.HashMap Nat Value

/-- What an evaluation changes: how deep it is, the values that nodes keep, and the caller's world. -/
structure Machine (σ : Type) where
  depth : Nat
  memo : Memo
  world : σ

/-- How deep nodes may nest unless the caller says otherwise. -/
def defaultDepthLimit : Nat := 10000

/-- The result of an evaluation. -/
abbrev Outcome := Except RuntimeError Value

namespace Machine

variable {σ : Type}

def initial (world : σ) : Machine σ := ⟨0, ∅, world⟩

/-- Keeps a value for a node that has none. -/
def keep (s : Machine σ) (identity : Nat) (v : Value) : Machine σ :=
  { s with memo := s.memo.insertIfNew identity v }

/-- Evaluates a node by `body` one level deeper, unless its value is known or the level is too deep. -/
def enter (limit : Nat) (t : Tag) (body : Machine σ → Outcome × Machine σ) (s : Machine σ) :
    Outcome × Machine σ :=
  match s.memo[t.identity]? with
  | some v => (.ok v, s)
  | none =>
    if limit ≤ s.depth then (.error ⟨[t.position], .tooDeep s.depth limit⟩, s)
    else
      match body { s with depth := s.depth + 1 } with
      | (.ok v, s) => (.ok v, { s with depth := s.depth - 1 }.keep t.identity v)
      | (.error e, s) => (.error e, { s with depth := s.depth - 1 })

end Machine

section
variable {σ : Type} (call : Caller σ) (limit : Nat)

/-- Calls the function of an application at `t` with an argument. -/
def applyAt (t : Tag) (callee : Callee) (captured : List Value) (arg : Value) (s : Machine σ) :
    Outcome × Machine σ :=
  match call callee captured arg s.world with
  | (.ok v, world) => (.ok v, { s with world := world })
  | (.error fault, world) => (.error (fault.locate t.position), { s with world := world })

mutual

/-- Evaluates a node: a literal to its value, the elements of a vector in order, a variable in the
frames, a function before its argument, and the bound expression of a `let` before its body. -/
def Node.eval : Node → Env → Machine σ → Outcome × Machine σ
  | .literal t v, _ => Machine.enter limit t fun s => (.ok v, s)
  | .vector t es, env => Machine.enter limit t fun s =>
    match Node.evalAll es env s with
    | (.ok vs, s) => (.ok (.vector vs), s)
    | (.error e, s) => (.error e, s)
  | .var t x, env => Machine.enter limit t fun s =>
    match env.lookup? x with
    | some v => (.ok v, s)
    | none => (.error ⟨[t.position], .unbound x⟩, s)
  | .apply t f x, env => Machine.enter limit t fun s =>
    match Node.eval f env s with
    | (.error e, s) => (.error e, s)
    | (.ok (.function callee captured), s) =>
      match Node.eval x env s with
      | (.error e, s) => (.error e, s)
      | (.ok arg, s) => applyAt call t callee captured arg s
    | (.ok v, s) => (.error ⟨[t.position], .mistyped (.just .function) v.kind⟩, s)
  | .letIn t x b e, env => Machine.enter limit t fun s =>
    match Node.eval b env s with
    | (.error e, s) => (.error e, s)
    | (.ok v, s) => Node.eval e (env.child.register x v) s

/-- Evaluates nodes in order up to the first failure. -/
def Node.evalAll : List Node → Env → Machine σ → Except RuntimeError (List Value) × Machine σ
  | [], _, s => (.ok [], s)
  | n :: ns, env, s =>
    match Node.eval n env s with
    | (.error e, s) => (.error e, s)
    | (.ok v, s) =>
      match Node.evalAll ns env s with
      | (.error e, s) => (.error e, s)
      | (.ok vs, s) => (.ok (v :: vs), s)

end

end

end Formula
