import Formula.Engine

/-! Reports of errors against a text. The text is the one that the outermost position of the error
refers to; positions in it become labels, positions elsewhere become notes. -/
namespace Formula

structure Report where
  header : String
  primary : Position
  /-- What is said of the primary position. -/
  label : String
  /-- The other positions in the text, the innermost first. -/
  callers : List Position
  /-- The positions in other texts, the innermost first. -/
  elsewhere : List Position

namespace Report

/-- The positions of an error, the innermost first. -/
def positions : Error → List Position
  | .parse e => [e.position]
  | .runtime e => e.trace

/-- The header names what was found in the text; the label need not. -/
def primaryLabel : Error → String
  | .parse ⟨_, .unexpected expected _⟩ => "expected " ++ Expectation.listText expected
  | e => e.message

/-- A report with one more position of the trace, which becomes a label in the text called `source` or a
note. The primary position is labelled already; it is told by its place in the trace, since others
may be equal to it. -/
def addPosition (source : String) (primary : Nat) (r : Report) : Position × Nat → Report
  | (p, place) =>
    if place = primary then r
    else if p.source = source then { r with callers := r.callers ++ [p] }
    else { r with elsewhere := r.elsewhere ++ [p] }

/-- The name of the text that the outermost position of a trace refers to. -/
def sourceOf (trace : List Position) : String := (trace.getLastD .unknown).source

/-- The primary position is the innermost one in the text that the outermost position names; an error
without positions is placed at the default one. -/
def ofError (e : Error) : Report :=
  let trace := positions e
  let source := sourceOf trace
  let place := trace.findIdx (·.source = source)
  trace.zipIdx.foldl (addPosition source place)
    { header := "Error: " ++ e.message
      primary := trace.getD place (trace.getLastD .unknown)
      label := primaryLabel e
      callers := []
      elsewhere := [] }

def callerLabel : String := "called from here"

def labels (r : Report) : List String := r.label :: r.callers.map fun _ => callerLabel

/-- The labels with the bytes of the text that they stand below, the primary one first. -/
def labelsIn (r : Report) (text : String) : List ((Nat × Nat) × String) :=
  ((r.primary :: r.callers).map (·.spanIn text)).zip r.labels

def notes (r : Report) : List String := r.elsewhere.map fun p => "raised at " ++ p.text

/-- The characters that end a line on a page; a carriage return and a line feed end one together. -/
def endsLine (c : Char) : Bool :=
  c = '\n' || c = '\r' || c = '\x0b' || c = '\x0c' || c.toNat = 0x85 || c.toNat = 0x2028 ||
    c.toNat = 0x2029

/-- The line and column on a page at byte `offset`. An end of a line at the very end of the text opens
no further line. -/
def place (line column : Nat) : List Char → Nat → Nat × Nat
  | [], _ => (line, column)
  | c :: cs, offset =>
    if c.utf8Size ≤ offset then
      let ends := endsLine c && !cs.isEmpty && !(c = '\r' && cs.head? = some '\n')
      if ends then place (line + 1) 1 cs (offset - c.utf8Size)
      else place line (column + 1) cs (offset - c.utf8Size)
    else (line, column)

/-- Where the primary label starts in the text. -/
def location (r : Report) (text : String) : String :=
  let (line, column) := place 1 1 text.toList (r.primary.spanIn text).1
  s!"{r.primary.source}:{line}:{column}"

end Report

end Formula
