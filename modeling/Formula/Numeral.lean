import Formula.Number.Decimal

/-! Numerals: hexadecimal after `0x`, octal after `0o`, and decimal with an optional fraction and
exponent. A numeral is the longest text of one of these forms. Main statements: cutting a numeral
off loses nothing, and what is cut off a text that starts with a digit is not empty. -/
namespace Formula.Numeral

def isHexDigit (c : Char) : Bool :=
  c.isDigit || ('a' ≤ c && c ≤ 'f') || ('A' ≤ c && c ≤ 'F')

def isOctalDigit (c : Char) : Bool := '0' ≤ c && c ≤ '7'

/-- A digit of any radix up to sixteen as a number. -/
def digitValue (c : Char) : Nat :=
  if c.isDigit then c.toNat - '0'.toNat
  else if 'a' ≤ c && c ≤ 'f' then c.toNat - 'a'.toNat + 10
  else c.toNat - 'A'.toNat + 10

/-- Digits accumulated as a double, so that a long numeral loses precision and never overflows. -/
def radixValue (radix : Nat) (digits : List Char) : Float :=
  digits.foldl (fun x c => x * Float.ofNat radix + Float.ofNat (digitValue c)) 0

/-- Cuts a fraction off, a point and at least one digit. -/
def cutFraction : List Char → List Char × List Char
  | '.' :: cs =>
    if (spanDigits cs).1 = [] then ([], '.' :: cs)
    else ('.' :: (spanDigits cs).1, (spanDigits cs).2)
  | cs => ([], cs)

/-- Cuts an exponent off: a letter, an optional sign and at least one digit. -/
def cutExponent : List Char → List Char × List Char
  | [] => ([], [])
  | e :: cs =>
    let (sign, rest) := cutSign cs
    if (e = 'e' ∨ e = 'E') ∧ (spanDigits rest).1 ≠ [] then
      (e :: (sign ++ (spanDigits rest).1), (spanDigits rest).2)
    else ([], e :: cs)

/-- Cuts a decimal numeral off a text that starts with a digit. -/
def cutDecimal (cs : List Char) : List Char × List Char :=
  let (whole, rest) := spanDigits cs
  let (fraction, rest) := cutFraction rest
  let (exponent, rest) := cutExponent rest
  (whole ++ fraction ++ exponent, rest)

/-- Cuts off `0`, one of two letters and at least one digit. -/
def cutRadix (lower upper : Char) (isRadixDigit : Char → Bool) :
    List Char → Option (List Char × List Char)
  | '0' :: x :: cs =>
    if (x = lower ∨ x = upper) ∧ cs.takeWhile isRadixDigit ≠ [] then
      some ('0' :: x :: cs.takeWhile isRadixDigit, cs.dropWhile isRadixDigit)
    else none
  | _ => none

/-- Cuts the longest numeral off a text that starts with a digit. -/
def cut (cs : List Char) : List Char × List Char :=
  match cutRadix 'x' 'X' isHexDigit cs with
  | some parts => parts
  | none => (cutRadix 'o' 'O' isOctalDigit cs).getD (cutDecimal cs)

/-- The number that a numeral denotes. -/
def value? (cs : List Char) : Option Float :=
  match cutRadix 'x' 'X' isHexDigit cs with
  | some (_, []) => some (radixValue 16 (cs.drop 2))
  | _ =>
    match cutRadix 'o' 'O' isOctalDigit cs with
    | some (_, []) => some (radixValue 8 (cs.drop 2))
    | _ => (Decimal.read? cs).map Decimal.toFloat

theorem spanDigits_append (cs : List Char) : (spanDigits cs).1 ++ (spanDigits cs).2 = cs := by
  simp [spanDigits]

theorem cutSign_append (cs : List Char) : (cutSign cs).1 ++ (cutSign cs).2 = cs := by
  unfold cutSign
  split <;> rfl

theorem cutFraction_append (cs : List Char) : (cutFraction cs).1 ++ (cutFraction cs).2 = cs := by
  unfold cutFraction
  split
  · split <;> simp [spanDigits_append]
  · rfl

theorem cutExponent_append (cs : List Char) : (cutExponent cs).1 ++ (cutExponent cs).2 = cs := by
  cases cs with
  | nil => rfl
  | cons e cs =>
    simp only [cutExponent]
    split <;> simp [spanDigits_append, cutSign_append]

theorem cutDecimal_append (cs : List Char) : (cutDecimal cs).1 ++ (cutDecimal cs).2 = cs := by
  simp only [cutDecimal, List.append_assoc, cutExponent_append, cutFraction_append,
    spanDigits_append]

theorem cutRadix_append {lower upper : Char} {isRadixDigit : Char → Bool} {cs : List Char}
    {parts : List Char × List Char} (found : cutRadix lower upper isRadixDigit cs = some parts) :
    parts.1 ++ parts.2 = cs := by
  unfold cutRadix at found
  split at found
  · split at found
    · cases found
      simp
    · contradiction
  · contradiction

theorem cut_append (cs : List Char) : (cut cs).1 ++ (cut cs).2 = cs := by
  unfold cut
  split
  · next found => exact cutRadix_append found
  · cases found : cutRadix 'o' 'O' isOctalDigit cs with
    | some parts => exact cutRadix_append found
    | none => exact cutDecimal_append cs

theorem cutRadix_ne_nil {lower upper : Char} {isRadixDigit : Char → Bool} {cs : List Char}
    {parts : List Char × List Char} (found : cutRadix lower upper isRadixDigit cs = some parts) :
    parts.1 ≠ [] := by
  unfold cutRadix at found
  split at found
  · split at found
    · cases found
      simp
    · contradiction
  · contradiction

theorem cut_ne_nil {c : Char} {cs : List Char} (digit : c.isDigit = true) :
    (cut (c :: cs)).1 ≠ [] := by
  unfold cut
  split
  · next found => exact cutRadix_ne_nil found
  · cases found : cutRadix 'o' 'O' isOctalDigit (c :: cs) with
    | some parts => exact cutRadix_ne_nil found
    | none => simp [cutDecimal, spanDigits, digit]

end Formula.Numeral
