/-! The exact value of a finite double, and what follows from it: the remainder of a division that
truncates. -/
namespace Formula

/-- The number `significand * 2 ^ exponent`. -/
structure Dyadic where
  significand : Nat
  exponent : Int
deriving DecidableEq, Repr

namespace Dyadic

/-- The magnitude of a finite double. -/
def ofFloat (x : Float) : Dyadic :=
  let bits := x.toBits.toNat
  let field := (bits >>> 52) % (1 <<< 11)
  let fraction := bits % (1 <<< 52)
  if field = 0 then ⟨fraction, -1074⟩ else ⟨1 <<< 52 + fraction, (field : Int) - 1075⟩

/-- The numerator of the value over 10 to the power `e`, as a quotient of naturals. -/
def numerator (b : Dyadic) (e : Int) : Nat :=
  (b.significand <<< b.exponent.toNat) * Nat.pow 10 (-e).toNat

def denominator (b : Dyadic) (e : Int) : Nat := Nat.pow 10 e.toNat <<< (-b.exponent).toNat

end Dyadic

/-- Whether the sign bit of a double is set; zero has a sign of its own. -/
def isNegative (x : Float) : Bool := x.toBits.toNat.testBit 63

/-- The remainder of `x` by `y` that has the sign of `x` and a smaller magnitude than `y`, with no
rounding: both are multiples of one power of two. -/
def remainder (x y : Float) : Float :=
  if x.isNaN || y.isNaN || x.isInf || y == 0 then 0.0 / 0.0
  else if y.isInf || x == 0 then x
  else
    let a := Dyadic.ofFloat x
    let b := Dyadic.ofFloat y
    let exponent := min a.exponent b.exponent
    let left := a.significand <<< (a.exponent - exponent).toNat
    let right := b.significand <<< (b.exponent - exponent).toNat
    let magnitude := Float.scaleB (Float.ofNat (left % right)) exponent
    if isNegative x then -magnitude else magnitude

end Formula
