import Formula.Proofs.Decimals

/-! Which texts are numerals. Main statements: the longest numeral at the start of a text is cut
off, and every numeral denotes a number. -/
namespace Formula

/-- The longest text with a property with which a text starts, and what follows it. -/
structure Longest (P : List Char → Prop) (cs w rest : List Char) : Prop where
  append : w ++ rest = cs
  holds : P w
  longest : ∀ v r, P v → v ++ r = cs → v.length ≤ w.length

namespace Numeral

open Decimal (Digits)

/-- A fraction, or nothing. -/
inductive Fraction : List Char → Prop where
  | nothing : Fraction []
  | point {ds} (digits : Digits ds) : Fraction ('.' :: ds)

/-- An exponent, or nothing. -/
inductive Exponent : List Char → Prop where
  | nothing : Exponent []
  | power {e sign ds} (letter : e = 'e' ∨ e = 'E')
    (plain : sign = [] ∨ sign = ['+'] ∨ sign = ['-']) (digits : Digits ds) :
    Exponent (e :: (sign ++ ds))

/-- Digits with an optional fraction and an optional exponent. -/
inductive ValidDecimal : List Char → Prop where
  | mk {whole f e} (digits : Digits whole) (fraction : Fraction f) (exponent : Exponent e) :
    ValidDecimal (whole ++ (f ++ e))

/-- The numerals with a radix: `0`, one of two letters and digits. -/
inductive ValidRadix (lower upper : Char) (isRadixDigit : Char → Bool) : List Char → Prop where
  | mk {x ds} (letter : x = lower ∨ x = upper) (some : ds ≠ [])
    (digits : ∀ c ∈ ds, isRadixDigit c = true) :
    ValidRadix lower upper isRadixDigit ('0' :: x :: ds)

/-- The numerals: hexadecimal, octal or decimal. -/
def Valid (cs : List Char) : Prop :=
  ValidRadix 'x' 'X' isHexDigit cs ∨ ValidRadix 'o' 'O' isOctalDigit cs ∨ ValidDecimal cs

variable {c : Char} {cs ds v r w rest : List Char}

theorem spanDigits_of_digits (digits : ∀ c ∈ ds, c.isDigit = true) (r : List Char) :
    spanDigits (ds ++ r) = (ds ++ (spanDigits r).1, (spanDigits r).2) := by
  simp only [spanDigits, List.takeWhile_append_of_pos digits, List.dropWhile_append_of_pos digits]

theorem spanDigits_of_not_digit (ends : ∀ c ∈ r.head?, c.isDigit = false) :
    spanDigits r = ([], r) := by
  cases r with
  | nil => rfl
  | cons c r => simp [spanDigits, ends c rfl]

theorem digits_spanDigits (some : (spanDigits cs).1 ≠ []) : Digits (spanDigits cs).1 :=
  ⟨some, fun _ member => List.mem_takeWhile_imp member⟩

theorem fraction_cutFraction (cs : List Char) : Fraction (cutFraction cs).1 := by
  rcases cutFraction_cases cs with none | ⟨f, fs, found, digits⟩
  · rw [none]
    exact .nothing
  · rw [found]
    exact .point ⟨by simp, digits⟩

theorem cutSign_cases (cs : List Char) :
    (cutSign cs).1 = [] ∨ (cutSign cs).1 = ['+'] ∨ (cutSign cs).1 = ['-'] := by
  unfold cutSign
  split <;> simp

theorem exponent_cutExponent (cs : List Char) : Exponent (cutExponent cs).1 := by
  cases cs with
  | nil => exact .nothing
  | cons e cs =>
    simp only [cutExponent]
    split
    · next found => exact .power found.1 (cutSign_cases cs) (digits_spanDigits found.2)
    · exact .nothing

theorem cutSign_of_digits {sign : List Char} (plain : sign = [] ∨ sign = ['+'] ∨ sign = ['-'])
    (digits : Digits ds) (r : List Char) : cutSign (sign ++ (ds ++ r)) = (sign, ds ++ r) := by
  rcases plain with rfl | rfl | rfl
  · obtain ⟨some, each⟩ := digits
    obtain ⟨d, ds, rfl⟩ := List.exists_cons_of_ne_nil some
    have digit := each d List.mem_cons_self
    simp only [List.nil_append, List.cons_append]
    unfold cutSign
    split <;> simp_all
  · rfl
  · rfl

theorem Exponent.length_le (exponent : Exponent v) (r : List Char) :
    v.length ≤ (cutExponent (v ++ r)).1.length := by
  cases exponent with
  | nothing => simp
  | @power e sign ds letter plain digits =>
    have more : ds ++ (spanDigits r).1 ≠ [] := List.append_ne_nil_of_left_ne_nil digits.1 _
    rw [List.cons_append, List.append_assoc]
    simp only [cutExponent, cutSign_of_digits plain digits, spanDigits_of_digits digits.2,
      if_pos (And.intro letter more), List.length_cons, List.length_append]
    omega

theorem cutFraction_of_head (ends : ∀ c ∈ r.head?, c ≠ '.') : cutFraction r = ([], r) := by
  unfold cutFraction
  split
  · exact absurd rfl (ends '.' rfl)
  · rfl

theorem cutFraction_of_digits (digits : Digits ds) (r : List Char) :
    cutFraction ('.' :: (ds ++ r)) = ('.' :: (ds ++ (spanDigits r).1), (spanDigits r).2) := by
  have more : ds ++ (spanDigits r).1 ≠ [] := List.append_ne_nil_of_left_ne_nil digits.1 _
  simp only [cutFraction, spanDigits_of_digits digits.2, if_neg more]

theorem Fraction.length_le (fraction : Fraction v) (exponent : Exponent w) (r : List Char) :
    (v ++ w).length ≤ ((cutFraction (v ++ (w ++ r))).1 ++
      (cutExponent (cutFraction (v ++ (w ++ r))).2).1).length := by
  have whole := exponent.length_le r
  cases exponent with
  | nothing =>
    cases fraction with
    | nothing => simp
    | point digits => simp [cutFraction_of_digits digits]
  | @power e sign ds letter plain digits =>
    have other : e.isDigit = false ∧ e ≠ '.' := by rcases letter with rfl | rfl <;> decide
    cases fraction with
    | nothing =>
      rw [List.nil_append, cutFraction_of_head (by simpa using other.2)]
      simpa using whole
    | point digits =>
      rw [List.cons_append, List.cons_append, cutFraction_of_digits digits,
        spanDigits_of_not_digit (by simpa using other.1)]
      simpa using whole

/-- A decimal is cut off as a whole, perhaps with more of a decimal. -/
theorem ValidDecimal.length_le (valid : ValidDecimal v) (r : List Char) :
    v.length ≤ (cutDecimal (v ++ r)).1.length := by
  cases valid with
  | @mk whole f e digits fraction exponent =>
    have tail := fraction.length_le exponent r
    by_cases empty : f ++ e = []
    · simp [empty, cutDecimal, spanDigits_of_digits digits.2]
    · have ends : ∀ c ∈ (f ++ (e ++ r)).head?, c.isDigit = false := by
        cases fraction with
        | nothing =>
          cases exponent with
          | nothing => contradiction
          | power letter plain digits => rcases letter with rfl | rfl <;> simp
        | point digits => simp
      simp only [List.append_assoc, cutDecimal, Decimal.spanDigits_append digits.2 ends]
      simpa using tail

theorem validDecimal_cutDecimal (digit : c.isDigit = true) :
    ValidDecimal (cutDecimal (c :: cs)).1 := by
  have some : (spanDigits (c :: cs)).1 ≠ [] := by simp [spanDigits, digit]
  simp only [cutDecimal, List.append_assoc]
  exact .mk (digits_spanDigits some) (fraction_cutFraction _) (exponent_cutExponent _)

theorem longest_cutDecimal (digit : c.isDigit = true) :
    Longest ValidDecimal (c :: cs) (cutDecimal (c :: cs)).1 (cutDecimal (c :: cs)).2 where
  append := cutDecimal_append _
  holds := validDecimal_cutDecimal digit
  longest _ r valid whole := whole ▸ valid.length_le r

variable {lower upper : Char} {isRadixDigit : Char → Bool}

theorem longest_cutRadix (found : cutRadix lower upper isRadixDigit cs = some (w, rest)) :
    Longest (ValidRadix lower upper isRadixDigit) cs w rest := by
  unfold cutRadix at found
  split at found
  · split at found
    · next radix =>
      cases found
      refine ⟨by simp, .mk radix.1 radix.2 fun _ member => List.mem_takeWhile_imp member, ?_⟩
      rintro v r ⟨_, _, digits⟩ whole
      cases whole
      simp [List.takeWhile_append_of_pos digits]
    · contradiction
  · contradiction

theorem ValidRadix.cutRadix (valid : ValidRadix lower upper isRadixDigit v) (r : List Char) :
    cutRadix lower upper isRadixDigit (v ++ r) =
      some (v ++ r.takeWhile isRadixDigit, r.dropWhile isRadixDigit) := by
  cases valid with
  | mk letter some digits =>
    simp [Numeral.cutRadix, List.takeWhile_append_of_pos digits,
      List.dropWhile_append_of_pos digits, letter, some]

theorem ValidRadix.letter {x : Char} (valid : ValidRadix lower upper isRadixDigit v)
    (whole : v ++ r = '0' :: x :: ds) : x = lower ∨ x = upper := by
  cases valid with
  | mk letter some digits =>
    cases whole
    exact letter

theorem cutRadix_some {parts : List Char × List Char}
    (found : cutRadix lower upper isRadixDigit cs = some parts) :
    ∃ x ds, cs = '0' :: x :: ds ∧ (x = lower ∨ x = upper) := by
  unfold cutRadix at found
  split at found
  · next x ds =>
    split at found
    · next radix => exact ⟨x, ds, rfl, radix.1⟩
    · contradiction
  · contradiction

theorem ValidDecimal.length_le_one {x : Char} (valid : ValidDecimal v)
    (whole : v ++ r = '0' :: x :: ds) (letter : x ∈ ['x', 'X', 'o', 'O']) : v.length ≤ 1 := by
  have short : (cutDecimal ('0' :: x :: ds)).1 = ['0'] := by
    simp only [List.mem_cons, List.not_mem_nil, or_false] at letter
    rcases letter with rfl | rfl | rfl | rfl <;>
      simp [cutDecimal, spanDigits, cutFraction, cutExponent]
  have within := valid.length_le r
  rwa [whole, short] at within

theorem longest_of_radix {x : Char}
    (radix : Longest (ValidRadix lower upper isRadixDigit) ('0' :: x :: ds) w rest)
    (letter : x ∈ ['x', 'X', 'o', 'O']) (valid : Valid w)
    (others : ∀ v r, Valid v → v ++ r = '0' :: x :: ds →
      ValidRadix lower upper isRadixDigit v ∨ ValidDecimal v) :
    Longest Valid ('0' :: x :: ds) w rest := by
  refine ⟨radix.append, valid, fun v r found whole => ?_⟩
  rcases others v r found whole with same | decimal
  · exact radix.longest v r same whole
  · have long : 1 ≤ w.length := by
      cases radix.holds
      simp
    exact (decimal.length_le_one whole letter).trans long

/-- The longest numeral at the start of a text that starts with a digit is cut off. -/
theorem longest_cut (digit : c.isDigit = true) :
    Longest Valid (c :: cs) (cut (c :: cs)).1 (cut (c :: cs)).2 := by
  unfold cut
  cases hex : cutRadix 'x' 'X' isHexDigit (c :: cs) with
  | some parts =>
    have longest := longest_cutRadix hex
    obtain ⟨x, ds, start, letter⟩ := cutRadix_some hex
    cases start
    refine longest_of_radix longest (by rcases letter with rfl | rfl <;> simp) (.inl longest.holds) ?_
    rintro v r (valid | valid | valid) whole
    · exact .inl valid
    · have other := valid.letter whole
      rcases letter with rfl | rfl <;> simp at other
    · exact .inr valid
  | none =>
    cases octal : cutRadix 'o' 'O' isOctalDigit (c :: cs) with
    | some parts =>
      have longest := longest_cutRadix octal
      obtain ⟨x, ds, start, letter⟩ := cutRadix_some octal
      cases start
      refine longest_of_radix longest (by rcases letter with rfl | rfl <;> simp)
        (.inr (.inl longest.holds)) ?_
      rintro v r (valid | valid | valid) whole
      · have other := valid.letter whole
        rcases letter with rfl | rfl <;> simp at other
      · exact .inl valid
      · exact .inr valid
    | none =>
      have longest : Longest ValidDecimal (c :: cs) _ _ := longest_cutDecimal digit
      refine ⟨longest.append, .inr (.inr longest.holds), ?_⟩
      rintro v r (valid | valid | valid) whole
      · have found := valid.cutRadix r
        rw [whole, hex] at found
        contradiction
      · have found := valid.cutRadix r
        rw [whole, octal] at found
        contradiction
      · exact longest.longest v r valid whole

theorem Exponent.not_isDigit (exponent : Exponent v) : ∀ c ∈ v.head?, c.isDigit = false := by
  cases exponent with
  | nothing => simp
  | power letter plain digits => rcases letter with rfl | rfl <;> simp

theorem Exponent.readExponent? (exponent : Exponent v) :
    ∃ n, Decimal.readExponent? v = some n := by
  cases exponent with
  | nothing => exact ⟨0, rfl⟩
  | @power e sign ds letter plain digits =>
    have sign := cutSign_of_digits plain digits []
    have all := Decimal.spanDigits_append digits.2 (r := []) (by simp)
    rw [List.append_nil] at sign all
    simp [Decimal.readExponent?, sign, all, letter, digits.1]

theorem ValidDecimal.read? (valid : ValidDecimal v) : ∃ d, Decimal.read? v = some d := by
  cases valid with
  | @mk whole f e digits fraction exponent =>
    obtain ⟨n, read⟩ := exponent.readExponent?
    have ends := exponent.not_isDigit
    cases fraction with
    | nothing =>
      simp only [List.nil_append, Decimal.read?, Decimal.spanDigits_append digits.2 ends,
        if_neg digits.1]
      split
      · cases exponent with
        | power letter plain places => simp at letter
      · simp [read]
    | @point ds places =>
      have span := Decimal.spanDigits_append digits.2 (r := '.' :: (ds ++ e)) (by simp)
      simp [Decimal.read?, span, Decimal.spanDigits_append places.2 ends, digits.1, places.1, read]

/-- Every numeral denotes a number. -/
theorem Valid.value? (valid : Valid v) : ∃ x, Numeral.value? v = some x := by
  unfold Numeral.value?
  split
  · exact ⟨_, rfl⟩
  · next hex =>
    split
    · exact ⟨_, rfl⟩
    · next octal =>
      rcases valid with valid | valid | valid
      · exact absurd (by simpa using valid.cutRadix []) (hex v)
      · exact absurd (by simpa using valid.cutRadix []) (octal v)
      · obtain ⟨d, read⟩ := valid.read?
        exact ⟨d.toFloat, by rw [read]; rfl⟩

theorem value?_of_hex (valid : ValidRadix 'x' 'X' isHexDigit v) :
    Numeral.value? v = some (radixValue 16 (v.drop 2)) := by
  have whole := valid.cutRadix []
  rw [List.append_nil] at whole
  rw [Numeral.value?, whole]
  rfl

theorem value?_of_octal (valid : ValidRadix 'o' 'O' isOctalDigit v) :
    Numeral.value? v = some (radixValue 8 (v.drop 2)) := by
  have whole := valid.cutRadix []
  rw [List.append_nil] at whole
  have none : Numeral.cutRadix 'x' 'X' isHexDigit v = none := by
    rw [Option.eq_none_iff_forall_ne_some]
    intro parts found
    obtain ⟨x, ds, rfl, letter⟩ := cutRadix_some found
    have others := valid.letter (List.append_nil _)
    rcases letter with rfl | rfl <;> simp at others
  rw [Numeral.value?, none, whole]
  rfl

theorem value?_of_decimal (valid : ValidDecimal v) :
    Numeral.value? v = (Decimal.read? v).map Decimal.toFloat := by
  -- A decimal is no longer than its first character where a letter of a radix follows.
  have noRadix {lower upper : Char} {isRadixDigit : Char → Bool} {w : List Char}
      (letters : lower ∈ ['x', 'o'] ∧ upper ∈ ['X', 'O']) :
      cutRadix lower upper isRadixDigit v ≠ some (w, []) := by
    intro found
    obtain ⟨x, ds, rfl, letter⟩ := cutRadix_some found
    have short := valid.length_le_one (List.append_nil _) (by
      simp only [List.mem_cons, List.not_mem_nil, or_false] at letters ⊢
      rcases letter with rfl | rfl <;> tauto)
    simp at short
  rw [Numeral.value?]
  split
  · next found => exact absurd found (noRadix (by decide))
  split
  · next found => exact absurd found (noRadix (by decide))
  · rfl

end Numeral
end Formula
