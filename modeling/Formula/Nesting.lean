import Formula.Lexeme.Scan

/-! How deep a text nests, found by a scan of characters before the text is read. Brackets and `let`
words open a level; a closing bracket ends the `let`s opened inside it, and a comma those opened
since the bracket around it. Operators with no operand between them nest one level each. -/
namespace Formula

/-- What a level was opened by. -/
inductive Opener where
  | bracket | binding
deriving DecidableEq, Repr

/-- Where a text nests deeper than a limit, and how deep. -/
structure Excess where
  offset : Nat
  depth : Nat
deriving DecidableEq, Repr

/-- The UTF-8 length of a text. -/
def byteLength : List Char → Nat
  | [] => 0
  | c :: cs => c.utf8Size + byteLength cs

namespace Nesting

/-- Ends the levels of `let` words down to a bracket. -/
def endBindings (opened : List Opener) : List Opener := opened.dropWhile (· = .binding)

theorem length_dropWhile_lt (p : Char → Bool) (c : Char) (cs : List Char) :
    (cs.dropWhile p).length < (c :: cs).length :=
  Nat.lt_succ_of_le (List.dropWhile_sublist p).length_le

/-- The first place where the levels that are open, latest first, together with the operators read
since the last operand exceed `limit`. -/
def excess? (limit : Nat) (opened : List Opener) (operators offset : Nat) :
    List Char → Option Excess
  | [] => none
  | c :: cs =>
    if isOperatorChar c then
      let run := cs.takeWhile isOperatorChar
      let depth := opened.length + operators + 1
      if limit < depth then some ⟨offset, depth⟩
      else excess? limit opened (operators + 1) (offset + 1 + run.length)
        (cs.dropWhile isOperatorChar)
    else if c = '#' then
      let comment := cs.takeWhile (· ≠ '\n')
      excess? limit opened operators (offset + 1 + byteLength comment) (cs.dropWhile (· ≠ '\n'))
    else if c = '(' ∨ c = '[' then
      let opened := .bracket :: opened
      if limit < opened.length then some ⟨offset, opened.length⟩
      else excess? limit opened 0 (offset + 1) cs
    else if c = ')' ∨ c = ']' then
      excess? limit ((endBindings opened).drop 1) 0 (offset + 1) cs
    else if c = ',' then excess? limit (endBindings opened) 0 (offset + 1) cs
    else if c.isAlphanum || c = '$' then
      let word := c :: cs.takeWhile Lexeme.continuesWord
      let rest := cs.dropWhile Lexeme.continuesWord
      if word = ['l', 'e', 't'] then
        let opened := .binding :: opened
        if limit < opened.length then some ⟨offset, opened.length⟩
        else excess? limit opened 0 (offset + word.length) rest
      else excess? limit opened 0 (offset + word.length) rest
    else excess? limit opened operators (offset + c.utf8Size) cs
termination_by cs => cs.length
decreasing_by all_goals first | exact length_dropWhile_lt _ _ _ | exact Nat.lt_succ_self _

end Nesting

/-- The first place where a text nests deeper than `limit`. -/
def nestingExcess? (limit : Nat) (text : List Char) : Option Excess :=
  Nesting.excess? limit [] 0 0 text

end Formula
