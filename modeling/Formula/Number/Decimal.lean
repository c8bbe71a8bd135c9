/-! Decimal numbers: a count of digits and a power of ten. They are read from the written form with
an optional fraction and exponent, written positionally, and rounded to the nearest double. -/
namespace Formula

/-- The number `digits * 10 ^ exponent`. -/
structure Decimal where
  digits : Nat
  exponent : Int
deriving DecidableEq, Repr

/-- The number that a run of digits denotes, the first digit counting most. -/
def digitsValue (cs : List Char) : Nat :=
  cs.foldl (fun n c => 10 * n + (c.toNat - '0'.toNat)) 0

/-- A maximal run of digits at the start of a text, and what follows it. -/
def spanDigits (cs : List Char) : List Char × List Char :=
  (cs.takeWhile Char.isDigit, cs.dropWhile Char.isDigit)

/-- Cuts a sign off, if there is one. -/
def cutSign : List Char → List Char × List Char
  | '-' :: cs => (['-'], cs)
  | '+' :: cs => (['+'], cs)
  | cs => ([], cs)

namespace Decimal

/-- The same number without trailing zeros in its digits, so that equal numbers have equal forms. -/
def normal (d : Decimal) : Decimal :=
  if d.digits = 0 then ⟨0, 0⟩
  else if d.digits % 10 = 0 then normal ⟨d.digits / 10, d.exponent + 1⟩
  else d
termination_by d.digits
decreasing_by omega

/-- The nearest double, of two the one with the even significand. -/
def toFloat (d : Decimal) : Float :=
  let d := d.normal
  .ofModel (.ofScientific d.digits d.exponent)

/-- The exponent after a number: nothing, or `e`, an optional sign and digits. -/
def readExponent? : List Char → Option Int
  | [] => some 0
  | e :: cs =>
    let (sign, cs) := cutSign cs
    let (digits, rest) := spanDigits cs
    if (e = 'e' ∨ e = 'E') ∧ digits ≠ [] ∧ rest = [] then
      some (if sign = ['-'] then -(digitsValue digits : Int) else digitsValue digits)
    else none

/-- Reads digits with an optional fraction and exponent, the whole text. -/
def read? (cs : List Char) : Option Decimal :=
  let (whole, rest) := spanDigits cs
  if whole = [] then none
  else match rest with
    | '.' :: rest =>
      let (fraction, rest) := spanDigits rest
      if fraction = [] then none
      else (readExponent? rest).map fun e =>
        ⟨digitsValue (whole ++ fraction), e - fraction.length⟩
    | rest => (readExponent? rest).map fun e => ⟨digitsValue whole, e⟩

/-- The positional form: no exponent, and a point only before a fraction. -/
def text (d : Decimal) : List Char :=
  let ds := Nat.toDigits 10 d.digits
  if 0 ≤ d.exponent then ds ++ List.replicate d.exponent.toNat '0'
  else
    let places := d.exponent.natAbs
    if places < ds.length then
      ds.take (ds.length - places) ++ '.' :: ds.drop (ds.length - places)
    else '0' :: '.' :: List.replicate (places - ds.length) '0' ++ ds

end Decimal

end Formula
