import Formula.Text.Hidden

/-! Quoted text. A backslash opens every escape, the quote itself is escaped, five common controls
have a letter, and other hidden characters are written by their number. Main statement: any other
character is written as it is. -/
namespace Formula.Text

/-- How one character is written between two `quote`s. -/
def escape (quote c : Char) : List Char :=
  if c = '\\' then ['\\', '\\']
  else if c = quote then ['\\', quote]
  else if c = '\n' then ['\\', 'n']
  else if c = '\r' then ['\\', 'r']
  else if c = '\t' then ['\\', 't']
  else if c = '\x00' then ['\\', '0']
  else if isHidden c then ['\\', 'u', '\x7b'] ++ Nat.toDigits 16 c.toNat ++ ['\x7d']
  else [c]

/-- A text between double quotes. -/
def quoted (s : String) : String :=
  String.ofList ('"' :: s.toList.flatMap (escape '"') ++ ['"'])

/-- A character between single quotes. -/
def quotedChar (c : Char) : String :=
  String.ofList ('\'' :: escape '\'' c ++ ['\''])

theorem escape_visible {quote c : Char} (visible : isHidden c = false) (inner : c ≠ quote)
    (plain : c ≠ '\\') : escape quote c = [c] := by
  have control {d : Char} (hidden : isHidden d = true) : c ≠ d := by
    rintro rfl
    cases visible.symm.trans hidden
  rw [escape, if_neg plain, if_neg inner, if_neg (control (by decide)), if_neg (control (by decide)),
    if_neg (control (by decide)), if_neg (control (by decide)), visible]
  rfl

end Formula.Text
