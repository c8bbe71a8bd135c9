import Formula.Value

/-! The names that every formula may use unless they are bound otherwise. The signs are variables of
their own and mean the same as `pos` and `neg`. -/
namespace Formula

def Value.ofBuiltin (b : Builtin) : Value := .function (.builtin b) []

namespace Prelude

def constants : List (String × Value) := [
  ("PI", .number 3.141592653589793),
  ("E", .number 2.718281828459045),
  ("LN2", .number 0.6931471805599453),
  ("LN10", .number 2.302585092994046),
  ("LOG2E", .number 1.4426950408889634),
  ("LOG10E", .number 0.4342944819032518),
  ("SQRT1_2", .number 0.7071067811865476),
  ("SQRT2", .number 1.4142135623730951)]

def unaries : List (String × Unary) := [
  ("pos", .plus), ("neg", .negate), ("+_", .plus), ("-_", .negate),
  ("abs", .abs), ("round", .round), ("floor", .floor), ("ceil", .ceil), ("sqrt", .sqrt),
  ("exp", .exp), ("log", .log), ("log2", .log2), ("log10", .log10),
  ("sin", .sin), ("cos", .cos), ("tan", .tan),
  ("asin", .asin), ("acos", .acos), ("atan", .atan)]

def binaries : List (String × Binary) := [
  ("+", .add), ("-", .subtract), ("*", .multiply), ("/", .divide), ("%", .remainder),
  ("**", .power), ("log_", .logBase), ("atan_", .atan2)]

def onVectors : List (String × Builtin) := [
  ("!", .index), ("len", .length), ("fst", .first), ("prod", .product),
  ("sum", .statistic .sum), ("avg", .statistic .mean), ("var", .statistic .variance),
  ("stddev", .statistic .deviation), ("stderr", .statistic .error)]

/-- All entries; no name occurs twice. -/
def entries : List (String × Value) :=
  constants ++ unaries.map (fun (name, f) => (name, .ofBuiltin (.unary f))) ++
    binaries.map (fun (name, f) => (name, .ofBuiltin (.binary f))) ++
    onVectors.map (fun (name, b) => (name, .ofBuiltin b))

def lookup? (name : String) : Option Value := entries.lookup name

end Prelude

end Formula
