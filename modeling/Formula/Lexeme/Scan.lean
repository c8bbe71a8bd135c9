import Formula.Lexeme

/-! Cutting a text into lexemes. Between lexemes stands layout: blanks, and comments from `#` to the
end of the line. -/
namespace Formula

def isBlank (c : Char) : Bool := c = ' ' || c = '\t' || c = '\r' || c = '\n'

/-- Drops layout that starts at byte `offset`, in a comment or outside one. A comment ends before a
carriage return or a line feed. -/
def dropLayout (comment : Bool) (offset : Nat) : List Char → Nat × List Char
  | [] => (offset, [])
  | c :: cs =>
    if comment then dropLayout (c ≠ '\n' && c ≠ '\r') (offset + c.utf8Size) cs
    else if isBlank c then dropLayout false (offset + c.utf8Size) cs
    else if c = '#' then dropLayout true (offset + c.utf8Size) cs
    else (offset, c :: cs)

theorem length_dropLayout_le (comment : Bool) (offset : Nat) (cs : List Char) :
    (dropLayout comment offset cs).2.length ≤ cs.length := by
  induction cs generalizing comment offset with
  | nil => simp [dropLayout]
  | cons c cs ih =>
    unfold dropLayout
    split
    · exact Nat.le_succ_of_le (ih _ _)
    split
    · exact Nat.le_succ_of_le (ih _ _)
    split
    · exact Nat.le_succ_of_le (ih _ _)
    · exact Nat.le_refl _

/-- The tokens of a text, the byte at which they end, and what could not be read from there: nothing
at the end of the text. -/
structure Scan where
  tokens : List Token
  stop : Nat
  rest : List Char
deriving DecidableEq, Repr

namespace Scan

def scanFrom (afterOp : Bool) (offset : Nat) (cs : List Char) : Scan :=
  let start := dropLayout false offset cs
  match _found : Lexeme.cut? afterOp start.2 with
  | none => ⟨[], start.1, start.2⟩
  | some (l, rest) =>
    let later := scanFrom (l = Lexeme.op) (start.1 + l.text.length) rest
    ⟨⟨start.1, l⟩ :: later.tokens, later.stop, later.rest⟩
termination_by cs.length
decreasing_by
  exact Nat.lt_of_lt_of_le (Lexeme.length_lt_of_cut? _found) (length_dropLayout_le _ _ _)

/-- Cuts a whole text into lexemes as far as it can be cut. -/
def ofText (cs : List Char) : Scan := scanFrom false 0 cs

end Scan

end Formula
