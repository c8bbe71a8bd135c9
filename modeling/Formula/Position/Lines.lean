import Formula.Position

/-! From byte offsets to lines and columns. The nodes of a tree take only a line feed for the end
of a line; errors of the grammar also read a carriage return and line feed together as one end.
On the characters before an offset the two countings agree. -/
namespace Formula

/-- The line and column reached from a given line and column over the first `size` bytes, where a
line feed ends a line and everything else is a column. -/
def advance (line column : Nat) : List Char → Nat → Nat × Nat
  | [], _ => (line, column)
  | c :: cs, size =>
    if c.utf8Size ≤ size then
      if c = '\n' then advance (line + 1) 1 cs (size - c.utf8Size)
      else advance line (column + 1) cs (size - c.utf8Size)
    else (line, column)

/-- As `advance`, but a carriage return and the line feed after it are one end of a line. -/
def advancePaired (line column : Nat) : List Char → Nat → Nat × Nat
  | [], _ => (line, column)
  | '\r' :: '\n' :: cs, size =>
    if 2 ≤ size then advancePaired (line + 1) 1 cs (size - 2)
    else if 1 ≤ size then (line, column + 1)
    else (line, column)
  | c :: cs, size =>
    if c.utf8Size ≤ size then
      if c = '\n' then advancePaired (line + 1) 1 cs (size - c.utf8Size)
      else advancePaired line (column + 1) cs (size - c.utf8Size)
    else (line, column)

/-- Whether byte `offset` starts a character of the text or is its end. -/
def isBoundary : List Char → Nat → Bool
  | _, 0 => true
  | [], _ + 1 => false
  | c :: cs, offset => c.utf8Size ≤ offset && isBoundary cs (offset - c.utf8Size)

/-- What is left of a text after its first `offset` bytes. -/
def dropBytes : List Char → Nat → List Char
  | cs, 0 => cs
  | [], _ => []
  | c :: cs, offset => dropBytes cs (offset - c.utf8Size)

namespace Position

/-- Where the nodes of a tree say they are. -/
def ofOffset (source : String) (text : List Char) (offset : Nat) : Position :=
  let (line, column) := advance 1 1 text offset
  ⟨source, line, column, offset⟩

/-- Where errors of the grammar say they are; an offset that is no boundary of the text stands for
its start. -/
def ofGrammarOffset (source : String) (text : List Char) (offset : Nat) : Position :=
  if isBoundary text offset then
    let (line, column) := advancePaired 1 1 text offset
    ⟨source, line, column, offset⟩
  else startOf source

end Position

end Formula
