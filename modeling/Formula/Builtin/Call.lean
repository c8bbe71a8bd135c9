import Formula.Broadcast
import Formula.Indexing
import Formula.Number.Dyadic
import Formula.Statistics

/-! What the predefined operations compute. A function of two arguments captures the first one. -/
namespace Formula

/-- The nearest integer; a half goes toward positive infinity. -/
def roundHalfUp (x : Float) : Float :=
  let nearest := x.round
  if x - nearest == 0.5 then nearest + 1 else nearest

/-- The logarithm of `x` to a base. -/
def logBase (base x : Float) : Float := x.log / base.log

def Unary.apply : Unary → Float → Float
  | .plus, x => x
  | .negate, x => -x
  | .abs, x => x.abs
  | .round, x => roundHalfUp x
  | .floor, x => x.floor
  | .ceil, x => x.ceil
  | .sqrt, x => x.sqrt
  | .exp, x => x.exp
  | .log, x => x.log
  | .log2, x => x.log2
  | .log10, x => x.log10
  | .sin, x => x.sin
  | .cos, x => x.cos
  | .tan, x => x.tan
  | .asin, x => x.asin
  | .acos, x => x.acos
  | .atan, x => x.atan

def Binary.apply : Binary → Float → Float → Float
  | .add, x, y => x + y
  | .subtract, x, y => x - y
  | .multiply, x, y => x * y
  | .divide, x, y => x / y
  | .remainder, x, y => Formula.remainder x y
  | .power, x, y => x.pow y
  | .logBase, x, y => Formula.logBase x y
  | .atan2, x, y => x.atan2 y

def Statistic.apply : Statistic → List Float → Except Fault Float
  | .sum, xs => .ok (Statistics.sum xs)
  | .mean, xs => Statistics.mean xs
  | .variance, xs => Statistics.variance xs
  | .deviation, xs => Statistics.deviation xs
  | .error, xs => Statistics.error xs

/-- A function of numbers as a function of values. -/
def onNumber (f : Float → Float) : Value → Except Fault Value
  | .number x => .ok (.number (f x))
  | x => .error (.mistyped (.just .number) x.kind)

def onNumbers (f : Float → Float → Float) : Value → Value → Except Fault Value
  | .number x, .number y => .ok (.number (f x y))
  | x, _ => .error (.mistyped (.just .number) x.kind)

namespace Builtin

/-- An operation with a first argument captured. -/
def capture (b : Builtin) (x : Value) : Value := .function (.builtin b) [x]

/-- Calls an operation with an argument, after the arguments captured before it. -/
def call : Builtin → List Value → Value → Except Fault Value
  | .unary f, _, x => Broadcast.unary .number (onNumber f.apply) x
  | .binary f, [], x => .ok (capture (.binary f) x)
  | .binary f, x :: _, y => Broadcast.binary .number .number (onNumbers f.apply) x y
  | .index, [], x => .ok (capture .index x)
  | .index, x :: _, i => Indexing.get x i
  | .length, _, x => Indexing.length x
  | .first, _, x => Indexing.first x
  | .product, _, x => Broadcast.reduce .number (onNumbers (· * ·)) (.number 1) x
  | .statistic f, _, x => do return .number (← f.apply (← Statistics.numbers x))

end Builtin

end Formula
