import Formula.Builtin

/-! Values: numbers, strings, truth values, functions and vectors of values. Functions are data: what
runs when they are called, and the arguments captured by earlier calls. -/
namespace Formula

/-- The kind of a value; every value has exactly one. -/
inductive Kind where
  | number | string | bool | function | vector
deriving DecidableEq, Repr

def Kind.name : Kind → String
  | .number => "number"
  | .string => "string"
  | .bool => "bool"
  | .function => "function"
  | .vector => "vector"

/-- What a function runs: a predefined operation, or one of the caller's own by its identity. -/
inductive Callee where
  | builtin (operation : Builtin)
  | host (identity : Nat)
deriving DecidableEq, Repr

inductive Value where
  | number (x : Float)
  | string (s : String)
  | bool (b : Bool)
  | function (callee : Callee) (captured : List Value)
  | vector (elems : List Value)

/-- Numbers are the same when they are equal as numbers, so the zeros are; a NaN is the same as
itself. -/
def sameNumber (x y : Float) : Bool := x == y || (x.isNaN && y.isNaN)

namespace Value

def kind : Value → Kind
  | .number _ => .number
  | .string _ => .string
  | .bool _ => .bool
  | .function _ _ => .function
  | .vector _ => .vector

mutual

/-- Structural equality. Functions are compared by what they do: they are the same when they run the same
operation with the same captured arguments. That is coarser than comparing pointers, under which the
functions that two calls return differ even when their arguments are the same. -/
def same : Value → Value → Bool
  | .number x, .number y => sameNumber x y
  | .string s, .string t => s == t
  | .bool a, .bool b => a == b
  | .function c xs, .function d ys => c == d && sameAll xs ys
  | .vector xs, .vector ys => sameAll xs ys
  | _, _ => false

def sameAll : List Value → List Value → Bool
  | [], [] => true
  | x :: xs, y :: ys => same x y && sameAll xs ys
  | _, _ => false

end

def number? : Value → Option Float
  | .number x => some x
  | _ => none

def string? : Value → Option String
  | .string s => some s
  | _ => none

def bool? : Value → Option Bool
  | .bool b => some b
  | _ => none

def function? : Value → Option (Callee × List Value)
  | .function callee captured => some (callee, captured)
  | _ => none

def vector? : Value → Option (List Value)
  | .vector elems => some elems
  | _ => none

end Value

end Formula
