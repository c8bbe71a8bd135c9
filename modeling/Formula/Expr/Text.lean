import Formula.Expr
import Formula.Operator
import Formula.Value.Text

/-! The written forms of expressions: text that reads as the same tree, and the outline of
constructors. Operators are written before their operands, and parentheses are decided from a node
and its child alone. -/
namespace Formula.Expr

variable {α : Type}

/-- The sign whose application this function makes. -/
def sign? : Expr α → Option Sign
  | .var _ name => Sign.ofName? name
  | _ => none

/-- A `let` would run on over the argument, and a sign would take the argument for itself. -/
def bracketedAsFunction : Expr α → Bool
  | .letIn _ _ _ _ => true
  | .apply _ func _ => func.sign?.isSome
  | _ => false

/-- An argument that reads as one atom; a negative number reads as an application. -/
def isSimple : Expr α → Bool
  | .literal _ (.number x) => !isNegative x || x.isNaN
  | .literal _ _ | .vector _ _ | .var _ _ => true
  | .apply _ _ _ | .letIn _ _ _ _ => false

def bracketed (brackets : Bool) (s : String) : String := if brackets then "(" ++ s ++ ")" else s

mutual

/-- The form in which a tree is shown and read again. -/
def text : Expr α → String
  | .literal _ v => v.text
  | .vector _ es => "[" ++ ", ".intercalate (texts es) ++ "]"
  | .var _ name =>
    if isOperatorName name || (Sign.ofName? name).isSome then "op " ++ name else name
  | .apply _ func arg =>
    let argText := bracketed (!arg.isSimple) (text arg)
    match func.sign? with
    | some s => s.symbol ++ argText
    | none => bracketed func.bracketedAsFunction (text func) ++ " " ++ argText
  | .letIn _ name bound body => "let " ++ name ++ " = " ++ text bound ++ " in " ++ text body

def texts : List (Expr α) → List String
  | [] => []
  | e :: es => text e :: texts es

end

mutual

def outline : Expr α → Outline
  | .literal _ v => .call "Literal" v.outline
  | .vector _ es => .call "Vector" (.list (outlines es))
  | .var _ name => .call "Variable" (.atom (Text.quoted name))
  | .apply _ func arg => .record "Apply" [("func", outline func), ("arg", outline arg)]
  | .letIn _ name bound body =>
    .record "Let" [("name", .atom (Text.quoted name)), ("bound", outline bound), ("body", outline body)]

def outlines : List (Expr α) → List Outline
  | [] => []
  | e :: es => outline e :: outlines es

end

end Formula.Expr
