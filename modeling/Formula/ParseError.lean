import Formula.Position.Lines
import Formula.Text.Quoted

/-! Why a text is no expression, and where. -/
namespace Formula

/-- What could have stood where a text stops making sense. -/
inductive Expectation where
  | endOfInput | expression | vector | connective | sign | operator | number
  | opWord | letWord | inWord | equals | identifier | other
deriving DecidableEq, Repr

namespace Expectation

def text : Expectation → String
  | .endOfInput => "end of input"
  | .expression => "expression"
  | .vector => "vector"
  | .connective => "infix operator"
  | .sign => "prefix operator"
  | .operator => "operator"
  | .number => "number"
  | .opWord => "`op`"
  | .letWord => "`let`"
  | .inWord => "`in`"
  | .equals => "`=`"
  | .identifier => "identifier"
  | .other => "something else"

/-- The members of a list in order, each where it stands first. -/
def distinct : List Expectation → List Expectation
  | [] => []
  | e :: es => e :: (distinct es).filter (· ≠ e)

/-- The alternatives in a row, the last after `or`. -/
def join : List String → String
  | [] => Expectation.other.text
  | [one] => one
  | first :: others =>
    ", ".intercalate (first :: others.dropLast) ++ " or " ++ others.getLastD ""

def listText (es : List Expectation) : String := join ((distinct es).map text)

end Expectation

inductive ParseFault where
  | unexpected (expected : List Expectation) (found : Option Char)
  | invalidNumber (text : String)
  | tooDeep (depth limit : Nat)
  | other (message : String)
deriving DecidableEq, Repr

namespace ParseFault

/-- A character that was found, or the end of the text. -/
def foundText : Option Char → String
  | some c => Text.quotedChar c
  | none => "end of input"

def message : ParseFault → String
  | .unexpected expected found =>
    s!"expected {Expectation.listText expected}, found {foundText found}"
  | .invalidNumber text => s!"invalid number literal '{text}'"
  | .tooDeep depth limit => s!"nesting depth {depth} exceeds maximum of {limit} levels"
  | .other message => message

/-- How the description of an invalid numeral starts. -/
def invalidNumberLead : List Char := "invalid number literal '".toList

/-- The fault that a message of its own describes: a numeral in quotes, or anything else. -/
def ofMessage (message : String) : ParseFault :=
  if invalidNumberLead.isPrefixOf message.toList then
    let text := message.toList.drop invalidNumberLead.length
    .invalidNumber (String.ofList (text.reverse.dropWhile (· = '\'')).reverse)
  else .other message

/-- The fault of meeting what stands at byte `offset`, which may lie outside the text. -/
def unexpectedAt (text : List Char) (offset : Nat) (expected : List Expectation) : ParseFault :=
  .unexpected expected (if isBoundary text offset then (dropBytes text offset).head? else none)

end ParseFault

structure ParseError where
  position : Position
  fault : ParseFault
deriving DecidableEq, Repr

namespace ParseError

def message (e : ParseError) : String := e.fault.message

def text (e : ParseError) : String := s!"Parse Error: {e.position.text}: {e.message}"

end ParseError

end Formula
