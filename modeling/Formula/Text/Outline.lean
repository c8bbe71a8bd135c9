/-! Outlines: nested records and lists as text, on one line or with a line for every part. -/
namespace Formula

inductive Outline where
  | atom (text : String)
  | list (items : List Outline)
  | call (name : String) (arg : Outline)
  | record (name : String) (fields : List (String × Outline))

namespace Outline

mutual

/-- Everything on one line. -/
def line : Outline → String
  | .atom text => text
  | .list items => "[" ++ ", ".intercalate (lines items) ++ "]"
  | .call name arg => name ++ "(" ++ line arg ++ ")"
  | .record name fields => name ++ " \x7b " ++ ", ".intercalate (fieldLines fields) ++ " \x7d"

def lines : List Outline → List String
  | [] => []
  | o :: os => line o :: lines os

def fieldLines : List (String × Outline) → List String
  | [] => []
  | (name, o) :: fields => (name ++ ": " ++ line o) :: fieldLines fields

end

/-- The white space before a part that is `depth` levels deep. -/
def indent (depth : Nat) : String := String.ofList (List.replicate (4 * depth) ' ')

mutual

/-- A line for every part, four more spaces for every level, and a comma after every part. -/
def block (depth : Nat) : Outline → String
  | .atom text => text
  | .list [] => "[]"
  | .list (item :: items) => "[\n" ++ blocks (depth + 1) (item :: items) ++ indent depth ++ "]"
  | .call name arg =>
    name ++ "(\n" ++ indent (depth + 1) ++ block (depth + 1) arg ++ ",\n" ++ indent depth ++ ")"
  | .record name fields =>
    name ++ " \x7b\n" ++ fieldBlocks (depth + 1) fields ++ indent depth ++ "\x7d"

def blocks (depth : Nat) : List Outline → String
  | [] => ""
  | o :: os => indent depth ++ block depth o ++ ",\n" ++ blocks depth os

def fieldBlocks (depth : Nat) : List (String × Outline) → String
  | [] => ""
  | (name, o) :: fields =>
    indent depth ++ name ++ ": " ++ block depth o ++ ",\n" ++ fieldBlocks depth fields

end

/-- The form with a line for every part. -/
def page (o : Outline) : String := o.block 0

end Outline

end Formula
