import Formula.Nesting
import Formula.Reading

/-! From a text to a tree, or to the place where the text stops being one. The nesting is checked
before the text is read. -/
namespace Formula

/-- How deep brackets, `let`s and operator runs may nest unless the caller says otherwise. -/
def defaultNestingLimit : Nat := 500

/-- Reads a whole text as a tree placed by offsets. An error comes with the offset at which it was
met. -/
def readText (text : List Char) : Except (Nat × ParseFault) Draft :=
  let scan := Scan.ofText text
  match State.initial.run scan.tokens with
  | .error stuck =>
    .error (stuck.token.offset, match stuck.refusal with
      | .unexpected => .unexpected stuck.state.expected stuck.token.lexeme.text.head?
      | .invalidNumber numeral => .invalidNumber numeral)
  | .ok state =>
    match scan.rest, state.result? with
    | [], some tree => .ok tree
    | rest, _ => .error (scan.stop, .unexpected state.expected rest.head?)

/-- The tree of a text whose nesting stays within `limit`, with its places in the text called
`source`. -/
def parseWithin (limit : Nat) (source text : String) : Except ParseError (Expr Position) :=
  let cs := text.toList
  match nestingExcess? limit cs with
  | some excess =>
    .error ⟨.ofOffset source cs excess.offset, .tooDeep excess.depth limit⟩
  | none =>
    match readText cs with
    | .ok tree => .ok (tree.map (.ofOffset source cs))
    | .error (offset, fault) => .error ⟨.ofGrammarOffset source cs offset, fault⟩

/-- As `parseWithin`, with the default limit. -/
def parse (source text : String) : Except ParseError (Expr Position) :=
  parseWithin defaultNestingLimit source text

end Formula
