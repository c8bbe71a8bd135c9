import Formula.Error

/-! Access to the elements of vectors, which are counted from one. -/
namespace Formula.Indexing

/-- The offset of the element that `index` names among `length` elements: `index` must be a whole
number from one to `length`. A number of that range is whole when rounding it to an integer keeps
it. -/
def offset? (index : Float) (length : Nat) : Option Nat :=
  if 1 ≤ index && index ≤ Float.ofNat length && Float.ofNat index.toUInt64.toNat == index then
    some (index.toUInt64.toNat - 1)
  else none

def elements : Value → Except Fault (List Value)
  | .vector elems => .ok elems
  | x => .error (.mistyped (.just .vector) x.kind)

/-- The element that `index` names. -/
def get (x index : Value) : Except Fault Value := do
  let elems ← elements x
  match index with
  | .number i =>
    match (offset? i elems.length).bind (elems[·]?) with
    | some elem => .ok elem
    | none => .error (.of .indexOutOfRange)
  | index => .error (.mistyped (.just .number) index.kind)

def length (x : Value) : Except Fault Value := do
  return .number (Float.ofNat (← elements x).length)

def first (x : Value) : Except Fault Value := do
  match ← elements x with
  | elem :: _ => .ok elem
  | [] => .error (.of .emptyVector)

end Formula.Indexing
