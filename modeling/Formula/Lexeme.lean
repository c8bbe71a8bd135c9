import Formula.Numeral
import Formula.Operator

/-! Lexemes: numerals, words, runs of operator characters, the names of signs after `op`, and the five
marks. A lexeme is the longest that can be read at its place. Main statement: reading a lexeme cuts
its text off and leaves a shorter text. -/
namespace Formula

/-- A lexeme keeps its text, of which every character is ASCII. -/
inductive Lexeme where
  | numeral (text : List Char)
  | word (text : List Char)
  | operators (text : List Char)
  | signName (text : List Char)
  | mark (c : Char)
deriving DecidableEq, Repr

namespace Lexeme

def text : Lexeme → List Char
  | .numeral cs | .word cs | .operators cs | .signName cs => cs
  | .mark c => [c]

/-- The word after which an operator or the name of a sign stands for a variable. -/
def op : Lexeme := .word ['o', 'p']

def isMark (c : Char) : Bool := c = '(' || c = ')' || c = '[' || c = ']' || c = ','

def startsWord (c : Char) : Bool := c.isAlpha || c = '$'

def continuesWord (c : Char) : Bool := c.isAlphanum || c = '_' || c = '\'' || c = '$'

/-- Cuts a lexeme off a text. Only after `op` are `+_` and `-_` lexemes. -/
def cut? (afterOp : Bool) : List Char → Option (Lexeme × List Char)
  | [] => none
  | c :: cs =>
    if isMark c then some (.mark c, cs)
    else if isOperatorChar c then
      if afterOp && (c = '+' || c = '-') && cs.head? = some '_' then
        some (.signName [c, '_'], cs.tail)
      else some (.operators (c :: cs.takeWhile isOperatorChar), cs.dropWhile isOperatorChar)
    else if c.isDigit then
      some (.numeral (Numeral.cut (c :: cs)).1, (Numeral.cut (c :: cs)).2)
    else if startsWord c then
      some (.word (c :: cs.takeWhile continuesWord), cs.dropWhile continuesWord)
    else none

theorem cut?_append {afterOp : Bool} {cs rest : List Char} {l : Lexeme}
    (found : cut? afterOp cs = some (l, rest)) : l.text ++ rest = cs := by
  cases cs with
  | nil => simp [cut?] at found
  | cons c cs =>
    simp only [cut?] at found
    split at found
    · cases found; simp [text]
    split at found
    · split at found
      · next named =>
        cases found
        cases cs <;> simp_all [text]
      · cases found; simp [text]
    split at found
    · cases found; exact Numeral.cut_append _
    split at found
    · cases found; simp [text]
    · contradiction

theorem cut?_text_ne_nil {afterOp : Bool} {cs rest : List Char} {l : Lexeme}
    (found : cut? afterOp cs = some (l, rest)) : l.text ≠ [] := by
  cases cs with
  | nil => simp [cut?] at found
  | cons c cs =>
    simp only [cut?] at found
    split at found
    · cases found; simp [text]
    split at found
    · split at found <;> cases found <;> simp [text]
    split at found
    · next digit => cases found; exact Numeral.cut_ne_nil digit
    split at found
    · cases found; simp [text]
    · contradiction

theorem length_lt_of_cut? {afterOp : Bool} {cs rest : List Char} {l : Lexeme}
    (found : cut? afterOp cs = some (l, rest)) : rest.length < cs.length := by
  have parts := congrArg List.length (cut?_append found)
  have nonempty := List.length_pos_iff.2 (cut?_text_ne_nil found)
  simp only [List.length_append] at parts
  omega

end Lexeme

/-- A lexeme and the byte at which it starts. -/
structure Token where
  offset : Nat
  lexeme : Lexeme
deriving DecidableEq, Repr

end Formula
