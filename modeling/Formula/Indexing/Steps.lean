import Formula.Indexing
import Formula.Number.Dyadic

/-! Access to an element by steps. The index is compared with what is behind its point and with both
bounds, and only then converted to an integer, counted down by one and looked up. The comparisons are
those of doubles, the conversion cuts and clamps, and counting down and looking up may fail. -/
namespace Formula

/-- The number without what is behind its point. A double with an exponent that is not negative has
nothing there, nor have infinities and NaN, which have the highest exponent. -/
def truncate (x : Float) : Float :=
  let magnitude := Dyadic.ofFloat x
  if 0 ≤ magnitude.exponent then x
  else
    let whole := Float.ofNat (magnitude.significand >>> (-magnitude.exponent).toNat)
    if isNegative x then -whole else whole

/-- What is behind the point of a number, with its sign. -/
def fraction (x : Float) : Float := x - truncate x

namespace Indexing

/-- The offset of the element that `index` names among `length` elements, if there is one, found by
steps; nothing where counting down goes below zero. -/
def offsetBySteps? (index : Float) (length : Nat) : Option (Option Nat) :=
  if fraction index != 0 || index < 1 || Float.ofNat length < index then some none
  else match index.toUInt64.toNat with
    | 0 => none
    | offset + 1 => some (some offset)

/-- The element that `index` names, found by steps; nothing where one of them fails. -/
def getBySteps? (x index : Value) : Option (Except Fault Value) :=
  match elements x, index with
  | .error fault, _ => some (.error fault)
  | .ok elems, .number i =>
    match offsetBySteps? i elems.length with
    | none => none
    | some none => some (.error (.of .indexOutOfRange))
    | some (some offset) => elems[offset]?.map .ok
  | .ok _, index => some (.error (.mistyped (.just .number) index.kind))

end Indexing

end Formula
