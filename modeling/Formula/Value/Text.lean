import Formula.Number.Text
import Formula.Text.Outline
import Formula.Text.Quoted
import Formula.Value

/-! The written forms of values: the one shown to users and the outline of constructors. -/
namespace Formula

/-- All functions look alike. -/
def functionText : String := "<function>"

namespace Value

mutual

/-- The form in which a value is shown. -/
def text : Value → String
  | .number x => Number.text x
  | .string s => Text.quoted s
  | .bool b => if b then "true" else "false"
  | .function _ _ => functionText
  | .vector elems => "[" ++ ", ".intercalate (texts elems) ++ "]"

def texts : List Value → List String
  | [] => []
  | v :: vs => text v :: texts vs

end

mutual

def outline : Value → Outline
  | .number x => .atom ("Number(" ++ Number.outline x ++ ")")
  | .string s => .atom ("String(" ++ Text.quoted s ++ ")")
  | .bool b => .atom ("Bool(" ++ (if b then "true" else "false") ++ ")")
  | .function _ _ => .atom "Function(<fn>)"
  | .vector elems => .call "Vector" (.list (outlines elems))

def outlines : List Value → List Outline
  | [] => []
  | v :: vs => outline v :: outlines vs

end

end Value

end Formula
