import Formula.Chain
import Formula.Lexeme.Scan
import Formula.ParseError

/-! Reading expressions from tokens, one token at a time. What has been read is a stack of levels: an
expression under construction for every bracket and `let` that is open. Every choice is made by
the next token, so the first token that fits no reading is refused where it stands. -/
namespace Formula

/-- A tree whose nodes are placed by byte offsets. -/
abbrev Draft := Expr Nat

/-- What an expression under construction is part of. -/
inductive Frame where
  | whole
  | group (offset : Nat)
  /-- The elements before this one, the latest first. -/
  | vector (offset : Nat) (elems : List Draft)
  | bound (offset : Nat) (name : String)
  | body (offset : Nat) (name : String) (bound : Draft)

/-- An expression under construction: the terms that are complete, each with the operator after it,
the latest first; then the signs of the current operand, the nearest first; then what has been
read of the operand. -/
structure Level where
  frame : Frame
  terms : List (Term Nat × Operator × Nat)
  signs : List (Sign × Nat)
  operand : Option Draft

namespace Level

/-- An expression of which nothing has been read. -/
def fresh (frame : Frame) : Level := ⟨frame, [], [], none⟩

/-- Whether nothing has been read of the expression. -/
def isFresh (l : Level) : Bool := l.terms.isEmpty && l.signs.isEmpty && l.operand.isNone

/-- Puts terms, the latest first, in front of a chain. -/
def chain (last : Term Nat) (links : List (Link (Term Nat) Nat)) :
    List (Term Nat × Operator × Nat) → Chain Nat
  | [] => ⟨last, links⟩
  | (term, op, offset) :: terms => chain term (⟨op, offset, last⟩ :: links) terms

/-- The expression that ends with `operand`. -/
def finish (l : Level) (operand : Draft) : Draft :=
  (chain ⟨l.signs, operand⟩ [] l.terms).toExpr

/-- An atom at `offset`, alone or as the next argument. -/
def addAtom (l : Level) (offset : Nat) (atom : Draft) : Level :=
  { l with operand := some (match l.operand with
      | none => atom
      | some func => .apply offset func atom) }

def addSign (l : Level) (offset : Nat) (s : Sign) : Level :=
  { l with signs := (s, offset) :: l.signs }

/-- An operator after `operand`, so that another term begins. -/
def addOperator (l : Level) (offset : Nat) (op : Operator) (operand : Draft) : Level :=
  { l with terms := (⟨l.signs, operand⟩, op, offset) :: l.terms, signs := [], operand := none }

end Level

/-- How far the reading of a text has come. After `op`, and after `let` and its name, a particular
lexeme must follow. -/
inductive State where
  | within (level : Level) (outer : List Level)
  | afterOp (offset : Nat) (level : Level) (outer : List Level)
  | afterLet (offset : Nat) (level : Level) (outer : List Level)
  | afterName (offset : Nat) (name : String) (level : Level) (outer : List Level)

/-- An expression that has ended: what it was part of, and the levels around it. -/
structure Ended where
  frame : Frame
  value : Draft
  outer : List Level

/-- Ends the bodies of `let`s that end together with an expression. Each `let` is the operand of the
level around it, which ends there too. -/
def endBodies (frame : Frame) (value : Draft) : List Level → Ended
  | [] => ⟨frame, value, []⟩
  | level :: outer =>
    match frame with
    | .body offset name bound =>
      endBodies level.frame (level.finish (.letIn offset name bound value)) outer
    | frame => ⟨frame, value, level :: outer⟩

/-- The frame of the expression that a token could end, `let` bodies apart. -/
def endableFrame (frame : Frame) : List Level → Frame
  | [] => frame
  | level :: outer =>
    match frame with
    | .body _ _ _ => endableFrame level.frame outer
    | frame => frame

namespace State

def initial : State := .within (.fresh .whole) []

/-- What may come next. Where an expression begins nothing but an expression is named. -/
def expected : State → List Expectation
  | .within level outer =>
    if level.operand.isSome then
      match endableFrame level.frame outer with
      | .whole => [.endOfInput, .expression, .vector, .connective, .number, .opWord, .identifier]
      | .bound _ _ =>
        [.expression, .vector, .connective, .number, .opWord, .inWord, .identifier]
      | _ => [.expression, .vector, .connective, .number, .opWord, .identifier]
    else if level.isFresh then [.expression]
    else [.expression, .sign, .letWord]
  | .afterOp _ _ _ => [.operator]
  | .afterLet _ _ _ => [.identifier]
  | .afterName _ _ _ _ => [.equals]

/-- Why a token is refused. -/
inductive Refusal where
  | unexpected
  | invalidNumber (text : String)

/-- Ends the expression that ends with `operand`, together with the `let`s that end there. -/
def ended (level : Level) (outer : List Level) (operand : Draft) : Ended :=
  endBodies level.frame (level.finish operand) outer

/-- Reads a word where an operand or an argument may stand. -/
def readWord (offset : Nat) (text : List Char) (level : Level) (outer : List Level) :
    Option State :=
  if text = "NaN".toList then
    some (.within (level.addAtom offset (.literal offset (.number (0.0 / 0.0)))) outer)
  else if text = "Infinity".toList then
    some (.within (level.addAtom offset (.literal offset (.number (1.0 / 0.0)))) outer)
  else if text = "op".toList then some (.afterOp offset level outer)
  else if text = "let".toList then
    if level.operand.isSome then none else some (.afterLet offset level outer)
  else if text = "in".toList then
    match level.operand with
    | none => none
    | some operand =>
      match ended level outer operand with
      | ⟨.bound start name, bound, outer⟩ => some (.within (.fresh (.body start name bound)) outer)
      | _ => none
  else some (.within (level.addAtom offset (.var offset (String.ofList text))) outer)

/-- Reads a run of operator characters: a sign before an operand, an operator after one. -/
def readOperators (offset : Nat) (text : List Char) (level : Level) (outer : List Level) :
    Option State :=
  match level.operand with
  | none => (Sign.ofSymbol? text).map fun s => .within (level.addSign offset s) outer
  | some operand =>
    (Operator.ofSymbol? text).map fun op => .within (level.addOperator offset op operand) outer

/-- Reads a bracket or a comma. -/
def readMark (offset : Nat) (c : Char) (level : Level) (outer : List Level) : Option State :=
  if c = '(' then some (.within (.fresh (.group offset)) (level :: outer))
  else if c = '[' then some (.within (.fresh (.vector offset [])) (level :: outer))
  else
    match level.operand with
    | none =>
      match level.isFresh, level.frame, outer with
      | true, .vector start [], around :: outer =>
        if c = ']' then some (.within (around.addAtom start (.vector start [])) outer) else none
      | _, _, _ => none
    | some operand =>
      match ended level outer operand with
      | ⟨.group start, value, around :: outer⟩ =>
        if c = ')' then some (.within (around.addAtom start value) outer) else none
      | ⟨.vector start elems, value, around :: outer⟩ =>
        if c = ']' then
          some (.within (around.addAtom start (.vector start (value :: elems).reverse)) outer)
        else if c = ',' then
          some (.within (.fresh (.vector start (value :: elems))) (around :: outer))
        else none
      | _ => none

/-- The words that are no names. -/
def reserved : List (List Char) :=
  ["NaN".toList, "Infinity".toList, "op".toList, "let".toList, "in".toList]

/-- Reads one token, or refuses it. -/
def step (s : State) (t : Token) : Except Refusal State :=
  match s, t.lexeme with
  | .within level outer, .numeral text =>
    match Numeral.value? text with
    | some x => .ok (.within (level.addAtom t.offset (.literal t.offset (.number x))) outer)
    | none => .error (.invalidNumber (String.ofList text))
  | .within level outer, .word text => orUnexpected (readWord t.offset text level outer)
  | .within level outer, .operators text => orUnexpected (readOperators t.offset text level outer)
  | .within level outer, .mark c => orUnexpected (readMark t.offset c level outer)
  | .afterOp offset level outer, .signName text =>
    .ok (.within (level.addAtom offset (.var offset (String.ofList text))) outer)
  | .afterOp offset level outer, .operators text =>
    if text = ['='] then .error .unexpected
    else .ok (.within (level.addAtom offset (.var offset (String.ofList text))) outer)
  | .afterLet offset level outer, .word text =>
    if reserved.contains text then .error .unexpected
    else .ok (.afterName offset (String.ofList text) level outer)
  | .afterName offset name level outer, .operators text =>
    if text = ['='] then .ok (.within (.fresh (.bound offset name)) (level :: outer))
    else .error .unexpected
  | _, _ => .error .unexpected
where
  orUnexpected : Option State → Except Refusal State
    | some s => .ok s
    | none => .error .unexpected

/-- The tree of a text that may end here. -/
def result? : State → Option Draft
  | .within level outer =>
    match level.operand with
    | none => none
    | some operand =>
      match ended level outer operand with
      | ⟨.whole, value, []⟩ => some value
      | _ => none
  | _ => none

end State

/-- A token that was refused, in the state that refused it. -/
structure Stuck where
  state : State
  token : Token
  refusal : State.Refusal

namespace State

/-- Reads tokens in order up to the first that is refused. -/
def run (s : State) : List Token → Except Stuck State
  | [] => .ok s
  | t :: ts =>
    match s.step t with
    | .ok s => s.run ts
    | .error refusal => .error ⟨s, t, refusal⟩

end State

end Formula
