import Formula.CommandLine
import Formula.Report

/-! The program: prints the value of the expression given, or of every line of the standard input, and
reports errors to the standard error. -/
open Formula

def reportText (e : Error) (text : String) : String :=
  let r := Report.ofError e
  let labels := (r.primary :: r.callers).zip r.labels |>.map fun (p, label) =>
    s!"  {p.text}: {label}\n"
  let notes := r.notes.map fun note => s!"  Note: {note}\n"
  s!"{r.header}\n  at {r.location text}\n" ++ String.join labels ++ String.join notes

partial def readAll (stream : IO.FS.Stream) (text : String) : IO String := do
  let line ← stream.getLine
  if line.isEmpty then return text else readAll stream (text ++ line)

def main (args : List String) : IO UInt32 := do
  match CommandLine.options? args with
  | none =>
    IO.eprintln "error: bad arguments"
    return 2
  | some o =>
    let input ← if o.expression.isSome then pure "" else readAll (← IO.getStdin) ""
    for e in CommandLine.expressions o input do
      let answer := CommandLine.answer o e
      IO.print answer.output
      if let some error := answer.error then IO.eprint (reportText error e)
    return 0
