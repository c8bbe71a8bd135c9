import Formula.Proofs.Decimals
import Formula.Text.Quoted

/-! Quoted text that is read again. Every escape is undone without a look at what follows it, and none opens
with a quote, so the first quote that is met closes the text. Main statement: two quoted texts with
anything behind them are alike only if they quote the same. -/
namespace Formula.Text

/-- The value of hexadecimal digits. -/
def hexValue (digits : List Char) : Nat :=
  digits.foldl (fun n d => 16 * n + Numeral.digitValue d) 0

/-- The character that an escape at the front of a quoted text stands for, and what is behind it. -/
def unescape? : List Char → Option (Char × List Char)
  | '\\' :: 'n' :: rest => some ('\n', rest)
  | '\\' :: 'r' :: rest => some ('\r', rest)
  | '\\' :: 't' :: rest => some ('\t', rest)
  | '\\' :: '0' :: rest => some ('\x00', rest)
  | '\\' :: 'u' :: '\x7b' :: rest =>
    some (.ofNat (hexValue (rest.takeWhile (· ≠ '\x7d'))), (rest.dropWhile (· ≠ '\x7d')).tail)
  | '\\' :: c :: rest => some (c, rest)
  | c :: rest => some (c, rest)
  | [] => none

theorem digitValue_digitChar : ∀ n < 16,
    Numeral.isHexDigit n.digitChar = true ∧ Numeral.digitValue n.digitChar = n := by
  decide

theorem hexValue_append_digit (ds : List Char) (d : Char) :
    hexValue (ds ++ [d]) = 16 * hexValue ds + Numeral.digitValue d := by
  rw [hexValue, List.foldl_append]
  rfl

theorem hexValue_toDigits (n : Nat) :
    hexValue (Nat.toDigits 16 n) = n ∧ ∀ d ∈ Nat.toDigits 16 n, Numeral.isHexDigit d = true := by
  induction n using Nat.strongRecOn with
  | ind n ih =>
    rw [Nat.toDigits_eq_if (by decide)]
    split
    · next small =>
      obtain ⟨digit, value⟩ := digitValue_digitChar n small
      refine ⟨(hexValue_append_digit [] _).trans ?_, by simpa using digit⟩
      rw [value]
      exact Nat.zero_add n
    · next large =>
      obtain ⟨digit, value⟩ := digitValue_digitChar (n % 16) (Nat.mod_lt _ (by decide))
      obtain ⟨front, digits⟩ := ih (n / 16) (by omega)
      refine ⟨?_, List.forall_mem_append.2 ⟨digits, by simpa using digit⟩⟩
      rw [hexValue_append_digit, front, value]
      exact Nat.div_add_mod n 16

theorem unescape?_cons {c : Char} (plain : c ≠ '\\') (rest : List Char) :
    unescape? (c :: rest) = some (c, rest) := by
  unfold unescape?
  split <;> simp_all

theorem unescape?_number (c : Char) (rest : List Char) :
    unescape? ('\\' :: 'u' :: '\x7b' :: (Nat.toDigits 16 c.toNat ++ '\x7d' :: rest)) = some (c, rest) := by
  obtain ⟨value, digits⟩ := hexValue_toDigits c.toNat
  have brace : ∀ d ∈ Nat.toDigits 16 c.toNat, decide (d ≠ '\x7d') = true := fun d member =>
    decide_eq_true fun same => absurd (digits d member) (by rw [same]; decide)
  obtain ⟨number, behind⟩ := Decimal.span_append (r := '\x7d' :: rest) brace (by simp)
  rw [unescape?, number, behind, value, Char.ofNat_toNat]
  rfl

/-- What a character is written as between quotes is read back as the character. -/
theorem unescape?_escape {quote : Char} (marked : quote = '"' ∨ quote = '\'') (c : Char)
    (rest : List Char) : unescape? (escape quote c ++ rest) = some (c, rest) := by
  unfold escape
  split_ifs with backslash inner feed carriage tab null hidden
  · rw [backslash]; rfl
  · rw [inner]
    rcases marked with rfl | rfl <;> rfl
  · rw [feed]; rfl
  · rw [carriage]; rfl
  · rw [tab]; rfl
  · rw [null]; rfl
  · simpa using unescape?_number c rest
  · exact unescape?_cons backslash rest

theorem escape_append_inj {c d : Char} {rest rest' : List Char}
    (shown : escape '"' c ++ rest = escape '"' d ++ rest') : c = d ∧ rest = rest' := by
  have read := unescape?_escape (.inl rfl) c rest
  rw [shown, unescape?_escape (.inl rfl)] at read
  cases read
  exact ⟨rfl, rfl⟩

theorem escape_append_ne_quote (c : Char) (rest rest' : List Char) :
    escape '"' c ++ rest ≠ '"' :: rest' := by
  intro shown
  have read := unescape?_escape (.inl rfl) c rest
  rw [shown, unescape?_cons (by decide)] at read
  cases read
  exact absurd (List.cons.inj shown).1 (by decide)

theorem contents_append_inj {cs ds rest rest' : List Char}
    (shown : cs.flatMap (escape '"') ++ '"' :: rest = ds.flatMap (escape '"') ++ '"' :: rest') :
    cs = ds ∧ rest = rest' := by
  induction cs generalizing ds with
  | nil =>
    cases ds with
    | nil => exact ⟨rfl, (List.cons.inj shown).2⟩
    | cons d ds =>
      rw [List.flatMap_cons, List.append_assoc] at shown
      exact absurd shown.symm (escape_append_ne_quote d _ _)
  | cons c cs ih =>
    rw [List.flatMap_cons, List.append_assoc] at shown
    cases ds with
    | nil => exact absurd shown (escape_append_ne_quote c _ _)
    | cons d ds =>
      rw [List.flatMap_cons, List.append_assoc] at shown
      obtain ⟨rfl, behind⟩ := escape_append_inj shown
      obtain ⟨rfl, same⟩ := ih behind
      exact ⟨rfl, same⟩

/-- Quoted texts with anything behind them are alike only if they quote the same and the same is behind
them. -/
theorem quoted_append_inj {s t : String} {rest rest' : List Char}
    (shown : (quoted s).toList ++ rest = (quoted t).toList ++ rest') : s = t ∧ rest = rest' := by
  rw [quoted, quoted, String.toList_ofList, String.toList_ofList] at shown
  simp only [List.cons_append, List.append_assoc, List.nil_append, List.cons.injEq, true_and] at shown
  obtain ⟨same, behind⟩ := contents_append_inj shown
  exact ⟨String.toList_injective same, behind⟩

end Formula.Text
