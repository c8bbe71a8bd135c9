import Formula.Engine
import Formula.Expr.Text

/-! The command line: options, an expression or lines of input, and what is printed for each. -/
namespace Formula.CommandLine

structure Options where
  showsTree : Bool
  showsOptimised : Bool
  optimises : Bool
  limit : Nat
  name : String
  expression : Option String

/-- What has been read of the arguments; every option may be given once. -/
structure Given where
  flags : List String
  limit : Option Nat
  name : Option String
  expression : Option String

def flagNames : List String := ["--debug-parse", "--debug-optimise", "--no-optimise"]

/-- An argument that starts with a minus sign is an option, unless it is nothing else. -/
def isOption (arg : String) : Bool :=
  match arg.toList with
  | '-' :: _ :: _ => true
  | _ => false

/-- Reads an unsigned number of one machine word. -/
def readCount? (s : String) : Option Nat :=
  let digits := match s.toList with
    | '+' :: digits => digits
    | digits => digits
  if digits.isEmpty || !digits.all Char.isDigit then none
  else
    let n := digitsValue digits
    if n < UInt64.size then some n else none

namespace Given

def nothing : Given := ⟨[], none, none, none⟩

def addFlag (g : Given) (flag : String) : Option Given :=
  if g.flags.contains flag then none else some { g with flags := flag :: g.flags }

def addLimit (g : Given) (value : String) : Option Given :=
  if g.limit.isSome then none else (readCount? value).map fun n => { g with limit := some n }

def addName (g : Given) (value : String) : Option Given :=
  if g.name.isSome then none else some { g with name := some value }

def addExpression (g : Given) (value : String) : Option Given :=
  if g.expression.isSome then none else some { g with expression := some value }

/-- Reads an option that takes a value, given the two together. -/
def addValue (g : Given) (option value : String) : Option Given :=
  if option = "--max-depth" then g.addLimit value
  else if option = "--name" then g.addName value
  else none

/-- An option and its value in one argument. -/
def splitValue? (arg : String) : Option (String × String) :=
  match arg.toList.span (· ≠ '=') with
  | (option, _ :: value) => some (String.ofList option, String.ofList value)
  | (_, []) => none

/-- Reads arguments in order; after `--` none of them is an option. -/
def read (g : Given) : List String → Option Given
  | [] => some g
  | arg :: args =>
    if arg = "--" then args.foldlM addExpression g
    else if flagNames.contains arg then (g.addFlag arg).bind (read · args)
    else if arg = "--max-depth" ∨ arg = "--name" then
      match args with
      | [] => none
      | value :: args =>
        if isOption value then none else (g.addValue arg value).bind (read · args)
    else if isOption arg then
      (splitValue? arg).bind fun (option, value) =>
        (g.addValue option value).bind (read · args)
    else (g.addExpression arg).bind (read · args)

end Given

/-- The options that the arguments give, or nothing for arguments that cannot be read. -/
def options? (args : List String) : Option Options :=
  (Given.nothing.read args).map fun g =>
    { showsTree := g.flags.contains "--debug-parse"
      showsOptimised := g.flags.contains "--debug-optimise"
      optimises := !g.flags.contains "--no-optimise"
      limit := g.limit.getD defaultDepthLimit
      name := g.name.getD "input"
      expression := g.expression }

/-- What is printed for one expression: text for the standard output, and perhaps an error. -/
structure Answer where
  output : String
  error : Option Error

/-- Reads and evaluates one expression. No function of the command line comes from a host. -/
def answer (o : Options) (input : String) : Answer :=
  let engine := Engine.new o.optimises o.limit []
  let call : Caller Unit := Caller.ofHost fun _ _ _ world => (.error (.host ""), world)
  match parse o.name input with
  | .error e => ⟨"", some (.parse e)⟩
  | .ok tree =>
    let shown := if o.showsTree then "=== Parsed AST ===\n" ++ tree.outline.page ++ "\n\n" else ""
    let (n, s) := engine.prepare (.initial ()) tree
    let shown := shown ++
      if o.showsOptimised then "=== Optimised Expression ===\n" ++ n.text ++ "\n\n" else ""
    match (engine.run call s n).1 with
    | .ok v => ⟨shown ++ v.text ++ "\n", none⟩
    | .error e => ⟨shown, some e⟩

/-- The characters that are white space. -/
def isWhite (c : Char) : Bool :=
  (9 ≤ c.toNat && c.toNat ≤ 13) || (0x2000 ≤ c.toNat && c.toNat ≤ 0x200a) ||
    [0x20, 0x85, 0xa0, 0x1680, 0x2028, 0x2029, 0x202f, 0x205f, 0x3000].contains c.toNat

/-- The lines of a text, each without its line feed or carriage return and line feed. -/
def lines (current : List Char) : List Char → List String
  | [] => if current.isEmpty then [] else [String.ofList current.reverse]
  | '\n' :: cs =>
    let line := match current with
      | '\r' :: earlier => earlier
      | line => line
    String.ofList line.reverse :: lines [] cs
  | c :: cs => lines (c :: current) cs

/-- The expressions to answer: the one given, or the lines of the input that are not blank. -/
def expressions (o : Options) (input : String) : List String :=
  match o.expression with
  | some e => [e]
  | none => (lines [] input.toList).filter fun line => !line.toList.all isWhite

end Formula.CommandLine
