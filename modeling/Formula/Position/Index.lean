import Formula.Position.Lines

/-! The starts of the lines of a text, found once, so that a place is looked up by halving and the
characters before it are only counted in its own line. Among single bytes nothing is decoded. -/
namespace Formula

/-- The UTF-8 form of a text. -/
def utf8 (text : List Char) : List UInt8 := text.flatMap String.utf8EncodeChar

/-- The characters of a text that end within its first `size` bytes. -/
def takeBytes : List Char → Nat → List Char
  | [], _ => []
  | c :: cs, size => if c.utf8Size ≤ size then c :: takeBytes cs (size - c.utf8Size) else []

/-- The characters from one byte of a text to another, if both are boundaries. -/
def charsBetween? (text : List Char) (start stop : Nat) : Option (List Char) :=
  if start ≤ stop ∧ isBoundary text start ∧ isBoundary text stop then
    some (takeBytes (dropBytes text start) (stop - start))
  else none

/-- Where `p` ceases to hold between two places of an array, of which it holds first to last up to
some place and not from there on. -/
def partitionBetween {α : Type} (p : α → Bool) (xs : Array α) (low high : Nat)
    (within : high ≤ xs.size) : Nat :=
  if apart : low < high then
    have inside : (low + high) / 2 < xs.size := by omega
    if p xs[(low + high) / 2] then partitionBetween p xs ((low + high) / 2 + 1) high within
    else partitionBetween p xs low ((low + high) / 2) (Nat.le_of_lt inside)
  else low
termination_by high - low

/-- Where `p` ceases to hold in an array. -/
def partitionPoint {α : Type} (p : α → Bool) (xs : Array α) : Nat :=
  partitionBetween p xs 0 xs.size (Nat.le_refl _)

/-- The bytes behind the line feeds of a text that starts at byte `offset`. -/
def lineStarts (offset : Nat) : List Char → List Nat
  | [] => []
  | c :: cs =>
    if c = '\n' then (offset + 1) :: lineStarts (offset + 1) cs
    else lineStarts (offset + c.utf8Size) cs

/-- A text with the bytes at which its lines start, the first of them zero. -/
structure LineIndex where
  source : String
  text : List Char
  starts : Array Nat

namespace LineIndex

def ofText (source : String) (text : List Char) : LineIndex :=
  ⟨source, text, (0 :: lineStarts 0 text).toArray⟩

/-- The place of a byte that is a boundary of the text. -/
def position (index : LineIndex) (offset : Nat) : Position :=
  let offset := min offset (utf8 index.text).length
  let line := partitionPoint (fun start => start ≤ offset) index.starts
  let start := index.starts.getD (line - 1) 0
  let front := ((utf8 index.text).take offset).drop start
  let column :=
    if front.all fun b => b < 128 then front.length
    else ((charsBetween? index.text start offset).map List.length).getD front.length
  ⟨index.source, line, column + 1, offset⟩

end LineIndex

end Formula
