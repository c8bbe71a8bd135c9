import Formula.Position
import Formula.Value

/-! Failures of an evaluation. An error is a cause and a trace of positions, the place of the failure
first; a function that runs a formula of its own passes its trace on. -/
namespace Formula

/-- What an operation was ready to take. -/
inductive Expected where
  | just (kind : Kind)
  | orVector (kind : Kind)
deriving DecidableEq, Repr

def Expected.text : Expected → String
  | .just kind => kind.name
  | .orVector kind => kind.name ++ " or " ++ Kind.vector.name

inductive Cause where
  | unbound (name : String)
  | mistyped (expected : Expected) (actual : Kind)
  | indexOutOfRange
  | emptyVector
  | tooDeep (depth limit : Nat)
  | host (text : String)
deriving DecidableEq, Repr

def Cause.message : Cause → String
  | .unbound name => s!"Reference Error: {name} is not defined"
  | .mistyped expected actual => s!"Type Error: expected {expected.text}, actual {actual.name}"
  | .indexOutOfRange => "Range Error: index out of range"
  | .emptyVector => "Range Error: empty vector"
  | .tooDeep depth limit => s!"Stack Overflow: evaluation depth {depth} exceeds maximum of {limit}"
  | .host text => text

structure RuntimeError where
  trace : List Position
  cause : Cause
deriving DecidableEq, Repr

namespace RuntimeError

/-- An enclosing application puts its position behind the trace. -/
def addPosition (e : RuntimeError) (p : Position) : RuntimeError := ⟨e.trace ++ [p], e.cause⟩

def message (e : RuntimeError) : String := e.cause.message

/-- The trace from its last position to its first, a line each, and then the message. -/
def text (e : RuntimeError) : String :=
  e.trace.foldl (fun below p => p.text ++ ":\n" ++ below) e.message

end RuntimeError

/-- How the call of a function may fail: with an error that has a cause and perhaps a trace, or with
a fault of the host that is only described. -/
inductive Fault where
  | runtime (error : RuntimeError)
  | host (text : String)
deriving DecidableEq, Repr

/-- A failing operation knows its cause and no position. -/
def Fault.of (cause : Cause) : Fault := .runtime ⟨[], cause⟩

def Fault.mistyped (expected : Expected) (actual : Kind) : Fault := .of (.mistyped expected actual)

/-- The error of the application at `p` whose call failed. -/
def Fault.locate (p : Position) : Fault → RuntimeError
  | .runtime error => error.addPosition p
  | .host text => ⟨[p], .host text⟩

end Formula
