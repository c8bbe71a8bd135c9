import Formula.Number.Shortest

/-! The written forms of a double. Both forms are positional with the fewest digits that read back;
they differ in how they spell infinity. -/
namespace Formula.Number

/-- The written form of a double, given the word for infinity. -/
def spell (infinity : String) (x : Float) : String :=
  if x.isNaN then "NaN"
  else
    let magnitude :=
      if x.isInf then infinity
      else if x == 0 then "0"
      else String.ofList (Decimal.shortest x).text
    if isNegative x then "-" ++ magnitude else magnitude

/-- The form in which values are shown and which the grammar reads, signs apart. -/
def text (x : Float) : String := spell "Infinity" x

/-- The form inside the outline of a tree. -/
def outline (x : Float) : String := spell "inf" x

end Formula.Number
