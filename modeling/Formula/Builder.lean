import Formula.Parse

/-! Building trees from matches. A grammar leaves a match for every rule that shows, and in it the
matches of the rules below; the builder makes a tree of them and gives up where a match is missing or of a
rule it does not know. Finding the matches of a text, and grouping a row of matches by a table of
operators, is what a library does. -/
namespace Formula

/-- The rules of the grammar. -/
inductive Rule where
  | main | expression | operand | binding | application | atom | grouped | vector
  | opVariable | signVariable | sign | pos | neg
  | connective | index | pow | mul | div | rem | add | sub | operator
  | number | hex | octal | decimal | nan | infinity
  | opWord | letWord | inWord | equals | identifier | endOfInput
deriving DecidableEq, Repr

namespace Rule

def text : Rule → String
  | .main => "main"
  | .expression => "expression"
  | .operand => "operand"
  | .binding => "binding"
  | .application => "application"
  | .atom => "atom"
  | .grouped => "grouped"
  | .vector => "vector"
  | .opVariable => "op_variable"
  | .signVariable => "prefix_variable"
  | .sign => "prefix"
  | .pos => "pos"
  | .neg => "neg"
  | .connective => "infix"
  | .index => "index"
  | .pow => "pow"
  | .mul => "mul"
  | .div => "div"
  | .rem => "rem"
  | .add => "add"
  | .sub => "sub"
  | .operator => "operator"
  | .number => "number"
  | .hex => "hex"
  | .octal => "octal"
  | .decimal => "decimal"
  | .nan => "nan"
  | .infinity => "infinity"
  | .opWord => "kw_op"
  | .letWord => "kw_let"
  | .inWord => "kw_in"
  | .equals => "eq"
  | .identifier => "ident"
  | .endOfInput => "EOI"

/-- What is said to be expected where a rule could have matched. -/
def expectation : Rule → Expectation
  | .decimal | .hex | .octal | .nan | .infinity => .number
  | .identifier => .identifier
  | .vector => .vector
  | .grouped | .expression | .application | .main => .expression
  | .binding | .letWord => .letWord
  | .opVariable | .opWord => .opWord
  | .inWord => .inWord
  | .equals => .equals
  | .operator | .signVariable => .operator
  | .pos | .neg => .sign
  | .add | .sub | .mul | .div | .rem | .pow | .index => .connective
  | .endOfInput => .endOfInput
  | .operand | .atom | .sign | .connective | .number => .other

end Rule

/-- What a rule matched: the byte where it starts, the text if the rule has no layout inside, and the
matches inside that show. Of a rule with layout inside no text is kept, since nothing is made of it. -/
inductive Match where
  | mk (rule : Rule) (offset : Nat) (text : List Char) (inner : List Match)

namespace Match

def rule : Match → Rule
  | .mk r _ _ _ => r

def offset : Match → Nat
  | .mk _ o _ _ => o

def text : Match → List Char
  | .mk _ _ cs _ => cs

end Match

/-- Why no tree is built: for a reason that is reported, or by a panic. -/
inductive BuildFault where
  | custom (offset : Nat) (message : String)
  | panic
deriving DecidableEq, Repr

abbrev Built := Except BuildFault Draft

/-- A match inside another, and what is built of it. -/
structure Child where
  part : Match
  built : Built

/-- Where an operator stands beside its operands. -/
inductive Affix where
  | before
  | between
deriving DecidableEq, Repr

/-- How tightly the operators bind, from the loosest to the tightest. Operators between operands group
to the left. -/
def operatorTable : Rule → Option (Affix × Nat)
  | .add | .sub => some (.between, 1)
  | .mul | .div | .rem => some (.between, 2)
  | .pow => some (.between, 3)
  | .index => some (.between, 4)
  | .pos | .neg => some (.before, 5)
  | _ => none

/-- What the parsing library does. -/
structure Library where
  /-- The matches of a text, as far as a `Match` keeps them, or the byte where none goes on and the rules
  that could have. -/
  run : List Char → Except (Nat × List Rule) (List Match)
  /-- Groups a row of matches by a table of operators, given what an operand is, and what the two kinds
  of operators make of their operands. -/
  climb : (Rule → Option (Affix × Nat)) → (Child → Built) → (Child → Built → Built) →
    (Built → Child → Built → Built) → List Child → Built

namespace Match

variable (m : Match) (children : List Child)

def failed (message : String) : Built := .error (.custom m.offset message)

def first : Built :=
  match children with
  | [] => m.failed "missing expected pair in rule"
  | child :: _ => child.built

/-- A sign is the application of its variable. -/
def applySign (sign : Child) (operand : Built) : Built := do
  let name ← match sign.part.rule with
    | .pos => .ok Sign.plus.name
    | .neg => .ok Sign.minus.name
    | _ => .error .panic
  let operand ← operand
  return .apply sign.part.offset (.var sign.part.offset name) operand

/-- An operator applies its variable to the left operand and then to the right one. -/
def applyConnective (left : Built) (op : Child) (right : Built) : Built := do
  let left ← left
  let right ← right
  let partialApply := .apply op.part.offset (.var op.part.offset (String.ofList op.part.text)) left
  return .apply op.part.offset partialApply right

def buildApplication : Built :=
  match children with
  | [] => m.failed "missing expected pair in rule"
  | head :: atoms => do
    let head ← head.built
    atoms.foldlM (fun func arg => do
      let value ← arg.built
      return .apply arg.part.offset func value) head

def buildBinding : Built :=
  match children.filter fun child => child.part.rule ∉ [.letWord, .equals, .inWord] with
  | name :: bound :: body :: _ => do
    let bound ← bound.built
    let body ← body.built
    return .letIn m.offset (String.ofList name.part.text) bound body
  | _ => m.failed "malformed let binding"

def buildVector : Built := do
  let elems ← children.mapM Child.built
  return .vector m.offset elems

def buildOpVariable : Built :=
  match children.find? fun child => child.part.rule ∈ [.operator, .signVariable] with
  | some operator => .ok (.var m.offset (String.ofList operator.part.text))
  | none => m.failed "missing operator after `op`"

def buildDecimal : Built :=
  match Decimal.read? m.text with
  | some d => .ok (.literal m.offset (.number d.toFloat))
  | none => m.failed s!"invalid number literal '{String.ofList m.text}'"

/-- Characters that are no digits are passed over; the two characters in front must be there. -/
def buildRadix (radix : Nat) (isRadixDigit : Char → Bool) : Built :=
  if m.text.length < 2 then .error .panic
  else
    .ok (.literal m.offset (.number (Numeral.radixValue radix ((m.text.drop 2).filter isRadixDigit))))

/-- The tree of a match, from what is built of the matches inside it. -/
def assemble (lib : Library) : Built :=
  match m.rule with
  | .main | .grouped => m.first children
  | .expression => lib.climb operatorTable Child.built applySign applyConnective children
  | .application => m.buildApplication children
  | .binding => m.buildBinding children
  | .vector => m.buildVector children
  | .opVariable => m.buildOpVariable children
  | .identifier => .ok (.var m.offset (String.ofList m.text))
  | .decimal => m.buildDecimal
  | .hex => m.buildRadix 16 Numeral.isHexDigit
  | .octal => m.buildRadix 8 Numeral.isOctalDigit
  | .nan => .ok (.literal m.offset (.number (0.0 / 0.0)))
  | .infinity => .ok (.literal m.offset (.number (1.0 / 0.0)))
  | rule => m.failed s!"unexpected rule {rule.text}"

end Match

namespace Library

variable (lib : Library)

mutual

/-- Builds the tree of a match. -/
def build : Match → Built
  | .mk rule offset text inner =>
    (Match.mk rule offset text inner).assemble (buildAll inner) lib

def buildAll : List Match → List Child
  | [] => []
  | m :: ms => ⟨m, build m⟩ :: buildAll ms

end

/-- As `Formula.parseWithin`, from the matches that the library finds. Without a value it panics. -/
def parseWithin (limit : Nat) (source text : String) :
    Option (Except ParseError (Expr Position)) :=
  let cs := text.toList
  let refused (offset : Nat) (fault : ParseFault) : Except ParseError (Expr Position) :=
    .error ⟨.ofGrammarOffset source cs offset, fault⟩
  match nestingExcess? limit cs with
  | some excess =>
    some (.error ⟨.ofOffset source cs excess.offset, .tooDeep excess.depth limit⟩)
  | none =>
    match lib.run cs with
    | .error (offset, rules) =>
      some (refused offset (.unexpectedAt cs offset (rules.map Rule.expectation)))
    | .ok [] => some (refused 0 (.ofMessage "empty parse result"))
    | .ok (m :: _) =>
      match lib.build m with
      | .ok tree => some (.ok (tree.map (.ofOffset source cs)))
      | .error (.custom offset message) => some (refused offset (.ofMessage message))
      | .error .panic => none

end Library

end Formula
