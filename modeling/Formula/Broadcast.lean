import Formula.Error

/-! Functions lifted to vectors. A function of scalars also acts on vectors of them, however deep; a
scalar meets every element of a vector, and two vectors meet element by element up to the shorter
length. The function may act in any monad that can fail, and is called from left to right. -/
namespace Formula.Broadcast

variable {m : Type → Type} [Monad m] [MonadExceptOf Fault m]

mutual

/-- Applies `f` to every value of the given kind. -/
def unary (kind : Kind) (f : Value → m Value) (x : Value) : m Value :=
  if x.kind = kind then f x
  else match x with
    | .vector xs => return .vector (← unaryAll kind f xs)
    | x => throw (Fault.mistyped (.orVector kind) x.kind)

def unaryAll (kind : Kind) (f : Value → m Value) : List Value → m (List Value)
  | [] => return []
  | x :: xs => return (← unary kind f x) :: (← unaryAll kind f xs)

end

mutual

/-- Applies `f` to every pair of a value of kind `left` in `x` and one of kind `right` in `y` that
belong together. -/
def binary (left right : Kind) (f : Value → Value → m Value) (x y : Value) : m Value :=
  if x.kind = left then
    if y.kind = right then f x y
    else match y with
      | .vector ys => return .vector (← binaryEachRight left right f x ys)
      | y => throw (Fault.mistyped (.orVector right) y.kind)
  else match x with
    | .vector xs =>
      if y.kind = right then return .vector (← binaryEachLeft left right f xs y)
      else match y with
        | .vector ys => return .vector (← binaryPairs left right f xs ys)
        | y => throw (Fault.mistyped (.orVector right) y.kind)
    | x => throw (Fault.mistyped (.orVector left) x.kind)
termination_by sizeOf x + sizeOf y

def binaryEachRight (left right : Kind) (f : Value → Value → m Value) (x : Value)
    (ys : List Value) : m (List Value) :=
  match ys with
  | [] => return []
  | y :: ys =>
    return (← binary left right f x y) :: (← binaryEachRight left right f x ys)
termination_by sizeOf x + sizeOf ys

def binaryEachLeft (left right : Kind) (f : Value → Value → m Value) (xs : List Value)
    (y : Value) : m (List Value) :=
  match xs with
  | [] => return []
  | x :: xs =>
    return (← binary left right f x y) :: (← binaryEachLeft left right f xs y)
termination_by sizeOf xs + sizeOf y

def binaryPairs (left right : Kind) (f : Value → Value → m Value) (xs ys : List Value) :
    m (List Value) :=
  match xs, ys with
  | x :: xs, y :: ys =>
    return (← binary left right f x y) :: (← binaryPairs left right f xs ys)
  | _, _ => return []
termination_by sizeOf xs + sizeOf ys

end

/-- Folds `f` over a vector whose elements all have the given kind. -/
def reduce (kind : Kind) (f : Value → Value → m Value) (initial : Value) : Value → m Value
  | .vector elems => elems.foldlM (fun acc elem =>
      if elem.kind = kind then f acc elem
      else throw (Fault.mistyped (.just kind) elem.kind)) initial
  | x => throw (Fault.mistyped (.just .vector) x.kind)

end Formula.Broadcast
