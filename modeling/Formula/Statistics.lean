import Formula.Error

/-! Sums and sample statistics of numbers. A sum keeps the low bits that each addition loses in a
compensation of their own. -/
namespace Formula

/-- A running sum and what its additions have lost. -/
structure CompensatedSum where
  sum : Float
  compensation : Float

namespace CompensatedSum

def zero : CompensatedSum := ⟨0, 0⟩

/-- Adds a number; the loss is found from the larger of the two terms. -/
def add (s : CompensatedSum) (x : Float) : CompensatedSum :=
  let t := s.sum + x
  let lost := if x.abs ≤ s.sum.abs then (s.sum - t) + x else (x - t) + s.sum
  ⟨t, s.compensation + lost⟩

def total (s : CompensatedSum) : Float := s.sum + s.compensation

def ofList (xs : List Float) : CompensatedSum := xs.foldl add zero

end CompensatedSum

namespace Statistics

def sum (xs : List Float) : Float := (CompensatedSum.ofList xs).total

def count (xs : List Float) : Float := Float.ofNat xs.length

def mean (xs : List Float) : Except Fault Float :=
  if xs.isEmpty then .error (.of .emptyVector) else .ok (sum xs / count xs)

/-- The sample variance, around the mean and over one less than the count. -/
def variance (xs : List Float) : Except Fault Float := do
  let center ← mean xs
  let squares := xs.map fun x => (x - center) * (x - center)
  return sum squares / (count xs - 1)

def deviation (xs : List Float) : Except Fault Float := do return (← variance xs).sqrt

/-- The standard error of the mean. -/
def error (xs : List Float) : Except Fault Float := do return ((← variance xs) / count xs).sqrt

/-- The elements of a vector of numbers; the first other element is refused. -/
def numbers : Value → Except Fault (List Float)
  | .vector elems => elems.mapM fun
    | .number x => .ok x
    | elem => .error (.mistyped (.just .number) elem.kind)
  | x => .error (.mistyped (.just .vector) x.kind)

end Statistics

end Formula
