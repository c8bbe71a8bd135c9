/-! Places in named texts. Lines and columns count from one, columns in characters; offsets count
the bytes of the UTF-8 form. A position is meant for display and takes no part in any comparison
of expressions. -/
namespace Formula

structure Position where
  source : String
  line : Nat
  column : Nat
  offset : Nat
deriving DecidableEq, Repr, Inhabited

namespace Position

/-- The first character of the text called `source`. -/
def startOf (source : String) : Position := ⟨source, 1, 1, 0⟩

def unknown : Position := startOf "<unknown>"

/-- The form in which positions open error messages. -/
def text (p : Position) : String := s!"{p.source}:{p.line}:{p.column}"

end Position

/-- The bytes from the start of the character that holds byte `offset` to its end. Past the end of
the text both ends are the end. -/
def charSpan : List Char → Nat → Nat × Nat
  | [], _ => (0, 0)
  | c :: cs, offset =>
    if offset < c.utf8Size then (0, c.utf8Size)
    else
      let (start, stop) := charSpan cs (offset - c.utf8Size)
      (start + c.utf8Size, stop + c.utf8Size)

/-- The one character of `text` at `p`, which may come from another text. -/
def Position.spanIn (p : Position) (text : String) : Nat × Nat := charSpan text.toList p.offset

end Formula
