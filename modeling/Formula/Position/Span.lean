import Formula.Position.Index

/-! The character of a text at an offset, found by steps: back from the offset to a boundary, and on over
one character. The offset may come from another text, so a step back may find no byte in front of it,
and a cut may come to lie inside a character. -/
namespace Formula

/-- The boundary of a text that is met first going back from byte `offset`, unless the way back ends at
the start of the text. -/
def boundaryUpTo? (text : List Char) (offset : Nat) : Option Nat :=
  if isBoundary text offset then some offset
  else match offset with
    | 0 => none
    | offset + 1 => boundaryUpTo? text offset

/-- The characters of a text from byte `start` on, if that is a boundary. -/
def charsFrom? (text : List Char) (start : Nat) : Option (List Char) :=
  if isBoundary text start then some (dropBytes text start) else none

/-- The one character of `text` at `p`, found by steps; nothing where one of them fails. -/
def Position.spanIn? (p : Position) (text : String) : Option (Nat × Nat) := do
  let cs := text.toList
  let start ← boundaryUpTo? cs (min p.offset (utf8 cs).length)
  let rest ← charsFrom? cs start
  return (start, rest.head?.elim start (start + ·.utf8Size))

end Formula
