import Formula.Numeral
import Formula.Proofs.Lexing

/-! The written form of a decimal. It is a run of digits, perhaps with a point and another run after it,
and it is read as a decimal with the same normal form. -/
namespace Formula.Decimal

theorem normal_zero {d : Decimal} (zero : d.digits = 0) : d.normal = ⟨0, 0⟩ := by
  rw [normal, if_pos zero]

theorem normal_step {d : Decimal} (nonzero : d.digits ≠ 0) (trailing : d.digits % 10 = 0) :
    d.normal = normal ⟨d.digits / 10, d.exponent + 1⟩ := by
  rw [normal, if_neg nonzero, if_pos trailing]

theorem normal_self {d : Decimal} (last : d.digits % 10 ≠ 0) : d.normal = d := by
  have nonzero : d.digits ≠ 0 := fun zero => last (by rw [zero])
  rw [normal, if_neg nonzero, if_neg last]

theorem normal_normal (d : Decimal) : d.normal.normal = d.normal := by
  induction d using normal.induct with
  | case1 d zero => rw [normal_zero zero, normal_zero rfl]
  | case2 d nonzero trailing ih => rw [normal_step nonzero trailing, ih]
  | case3 d nonzero last => rw [normal_self last, normal_self last]

theorem toFloat_normal (d : Decimal) : d.normal.toFloat = d.toFloat := by
  simp only [toFloat, normal_normal]

theorem normal_mul_pow (digits : Nat) (k : Nat) (e : Int) :
    normal ⟨digits * 10 ^ k, e⟩ = normal ⟨digits, e + k⟩ := by
  induction k generalizing e with
  | zero => simp
  | succ k ih =>
    by_cases zero : digits = 0
    · rw [normal_zero (by simp [zero]), normal_zero zero]
    have whole : digits * 10 ^ (k + 1) = digits * 10 ^ k * 10 := by ring
    have nonzero : digits * 10 ^ (k + 1) ≠ 0 := Nat.mul_ne_zero zero (pow_ne_zero _ (by decide))
    rw [normal_step nonzero (by simp [whole])]
    simp only [whole, Nat.mul_div_cancel _ (by decide : 0 < 10)]
    rw [ih]
    congr 2
    push_cast
    ring

/-- A run of digits. -/
def Digits (cs : List Char) : Prop := cs ≠ [] ∧ ∀ c ∈ cs, c.isDigit = true

/-- The written forms of a decimal: digits, or digits on both sides of a point. -/
inductive Form (d : Decimal) : List Char → Prop where
  | whole {ds} (digits : Digits ds) (value : normal ⟨digitsValue ds, 0⟩ = d.normal) : Form d ds
  | point {ds fs} (digits : Digits ds) (fraction : Digits fs)
    (value : normal ⟨digitsValue (ds ++ fs), -fs.length⟩ = d.normal) : Form d (ds ++ '.' :: fs)

theorem digits_toDigits (n : Nat) : Digits (Nat.toDigits 10 n) :=
  ⟨Nat.toDigits_ne_nil, fun _ member => Nat.isDigit_of_mem_toDigits (by decide) (by decide) member⟩

theorem digitsValue_toDigits (n : Nat) : digitsValue (Nat.toDigits 10 n) = n :=
  Nat.ofDigitChars_ten_toDigits

theorem digitsValue_append_zeros (cs : List Char) (k : Nat) :
    digitsValue (cs ++ List.replicate k '0') = digitsValue cs * 10 ^ k := by
  change Nat.ofDigitChars 10 (cs ++ List.replicate k '0') 0 = Nat.ofDigitChars 10 cs 0 * 10 ^ k
  rw [Nat.ofDigitChars_append, Nat.ofDigitChars_replicate_zero, Nat.mul_comm]

theorem digitsValue_zeros_append (k : Nat) (cs : List Char) :
    digitsValue (List.replicate k '0' ++ cs) = digitsValue cs := by
  change Nat.ofDigitChars 10 (List.replicate k '0' ++ cs) 0 = Nat.ofDigitChars 10 cs 0
  rw [Nat.ofDigitChars_append, Nat.ofDigitChars_replicate_zero, Nat.mul_zero]

theorem digits_append {cs ds : List Char} (first : Digits cs) (second : ∀ c ∈ ds, c.isDigit = true) :
    Digits (cs ++ ds) :=
  ⟨List.append_ne_nil_of_left_ne_nil first.1 ds, List.forall_mem_append.2 ⟨first.2, second⟩⟩

theorem isDigit_of_mem_zeros {k : Nat} : ∀ c ∈ List.replicate k '0', c.isDigit = true := by
  intro c member
  rw [List.eq_of_mem_replicate member]
  decide

theorem form_text (d : Decimal) : d.Form d.text := by
  obtain ⟨digits, exponent⟩ := d
  have each := digits_toDigits digits
  have total := digitsValue_toDigits digits
  unfold text
  dsimp only
  generalize Nat.toDigits 10 digits = ds at each total
  split
  · next whole =>
    refine .whole (digits_append each isDigit_of_mem_zeros) ?_
    rw [digitsValue_append_zeros, total, normal_mul_pow, zero_add, Int.toNat_of_nonneg whole]
  split
  · next fraction long =>
    have part := List.take_append_drop (ds.length - exponent.natAbs) ds
    refine .point ⟨?_, fun c member => each.2 c (List.mem_of_mem_take member)⟩
      ⟨?_, fun c member => each.2 c (List.mem_of_mem_drop member)⟩ ?_
    · exact List.ne_nil_of_length_pos (by rw [List.length_take]; omega)
    · exact List.ne_nil_of_length_pos (by rw [List.length_drop]; omega)
    · rw [part, total, List.length_drop]
      congr 2
      omega
  · next fraction short =>
    have zeros : Digits (List.replicate (exponent.natAbs - ds.length) '0' ++ ds) :=
      ⟨List.append_ne_nil_of_right_ne_nil _ each.1,
        List.forall_mem_append.2 ⟨isDigit_of_mem_zeros, each.2⟩⟩
    refine @Form.point _ ['0'] _ ⟨by simp, isDigit_of_mem_zeros (k := 1)⟩ zeros ?_
    change normal ⟨digitsValue (List.replicate (exponent.natAbs - ds.length + 1) '0' ++ ds),
      -((List.replicate (exponent.natAbs - ds.length) '0' ++ ds).length : Int)⟩ = _
    rw [digitsValue_zeros_append, total, List.length_append, List.length_replicate]
    congr 2
    omega

theorem span_append {p : Char → Bool} {w r : List Char} (each : ∀ c ∈ w, p c = true)
    (ends : ∀ c ∈ r.head?, p c = false) : (w ++ r).takeWhile p = w ∧ (w ++ r).dropWhile p = r := by
  rw [List.takeWhile_append_of_pos each, List.dropWhile_append_of_pos each]
  cases r with
  | nil => simp
  | cons c r => simp [ends c rfl]

theorem spanDigits_append {ds r : List Char} (digits : ∀ c ∈ ds, c.isDigit = true)
    (ends : ∀ c ∈ r.head?, c.isDigit = false) : spanDigits (ds ++ r) = (ds, r) := by
  obtain ⟨run, others⟩ := span_append digits ends
  exact Prod.ext run others

/-- The characters that do not go on a decimal. -/
def Ends (rest : List Char) : Prop := ∀ c ∈ rest.head?, c.isAlphanum = false ∧ c ≠ '.'

theorem not_isDigit_of_not_isAlphanum {c : Char} (other : c.isAlphanum = false) :
    c.isDigit = false := by
  cases digit : c.isDigit
  · rfl
  · simp [Numeral.isAlphanum_of_isDigit digit] at other

section Cut

variable {d : Decimal} {t r : List Char}

theorem Form.head (form : Form d t) : ∃ c tail, t = c :: tail ∧ c.isDigit = true ∧
    ∀ x ∈ tail, x.isDigit = true ∨ x = '.' := by
  have split {ds : List Char} (digits : Digits ds) :
      ∃ c tail, ds = c :: tail ∧ c.isDigit = true ∧ ∀ x ∈ tail, x.isDigit = true := by
    obtain ⟨some, each⟩ := digits
    obtain ⟨c, tail, rfl⟩ := List.exists_cons_of_ne_nil some
    exact ⟨c, tail, rfl, List.forall_mem_cons.1 each⟩
  cases form with
  | whole digits value =>
    obtain ⟨c, tail, rfl, digit, others⟩ := split digits
    exact ⟨c, tail, rfl, digit, fun x member => .inl (others x member)⟩
  | @point ds fs digits fraction value =>
    obtain ⟨c, tail, rfl, digit, others⟩ := split digits
    refine ⟨c, tail ++ '.' :: fs, rfl, digit, List.forall_mem_append.2 ⟨?_, ?_⟩⟩
    · exact fun x member => .inl (others x member)
    · exact List.forall_mem_cons.2 ⟨.inr rfl, fun x member => .inl (fraction.2 x member)⟩

theorem cutRadix_none {lower upper c : Char} {isRadixDigit : Char → Bool} {cs : List Char}
    (second : ∀ x ∈ cs.head?, x ≠ lower ∧ x ≠ upper) :
    Numeral.cutRadix lower upper isRadixDigit (c :: cs) = none := by
  unfold Numeral.cutRadix
  split
  · next x tail same =>
    cases same
    rw [if_neg]
    rintro ⟨letter, _⟩
    exact letter.elim (second x rfl).1 (second x rfl).2
  · rfl

theorem Form.cutRadix_append (form : Form d t) (ends : Ends r) {lower upper : Char}
    {isRadixDigit : Char → Bool} (letters : lower.isAlpha = true ∧ upper.isAlpha = true) :
    Numeral.cutRadix lower upper isRadixDigit (t ++ r) = none := by
  obtain ⟨c, tail, rfl, _, others⟩ := form.head
  have letter {x y : Char} (alpha : y.isAlpha = true)
      (other : x.isDigit = true ∨ x = '.' ∨ x.isAlphanum = false) : x ≠ y := by
    rintro rfl
    rcases other with digit | rfl | neither
    · have word := Lexeme.not_isDigit_of_startsWord (c := x) (by simp [Lexeme.startsWord, alpha])
      simp [word] at digit
    · revert alpha; decide
    · simp [Char.isAlphanum, alpha] at neither
  refine cutRadix_none fun x head => ?_
  have other : x.isDigit = true ∨ x = '.' ∨ x.isAlphanum = false := by
    cases tail with
    | nil => exact .inr (.inr (ends x head).1)
    | cons y tail =>
      cases head
      exact (others x List.mem_cons_self).imp_right .inl
  exact ⟨letter letters.1 other, letter letters.2 other⟩

theorem cutExponent_ends (ends : Ends r) : Numeral.cutExponent r = ([], r) := by
  cases r with
  | nil => rfl
  | cons c r =>
    have other : ¬ (c = 'e' ∨ c = 'E') := by
      have plain := (ends c rfl).1
      rintro (rfl | rfl) <;> revert plain <;> decide
    simp [Numeral.cutExponent, other]

theorem cutFraction_ends (ends : Ends r) : Numeral.cutFraction r = ([], r) := by
  unfold Numeral.cutFraction
  split
  · exact absurd rfl (ends '.' rfl).2
  · rfl

/-- A decimal is cut off as a whole. -/
theorem Form.cut_append (form : Form d t) (ends : Ends r) : Numeral.cut (t ++ r) = (t, r) := by
  have noDigit (c : Char) (head : c ∈ r.head?) : c.isDigit = false :=
    not_isDigit_of_not_isAlphanum (ends c head).1
  unfold Numeral.cut
  rw [form.cutRadix_append ends (by decide), form.cutRadix_append ends (by decide)]
  change Numeral.cutDecimal (t ++ r) = _
  unfold Numeral.cutDecimal
  cases form with
  | whole digits value =>
    simp only [spanDigits_append digits.2 noDigit, cutFraction_ends ends, cutExponent_ends ends,
      List.append_nil]
  | @point ds fs digits fraction value =>
    have point : Numeral.cutFraction ('.' :: (fs ++ r)) = ('.' :: fs, r) := by
      simp only [Numeral.cutFraction, spanDigits_append fraction.2 noDigit, if_neg fraction.1]
    rw [List.append_assoc, List.cons_append]
    simp only [spanDigits_append digits.2 (r := '.' :: (fs ++ r)) (by simp), point,
      cutExponent_ends ends, List.append_nil]

/-- A decimal is read as one with the same normal form. -/
theorem Form.value? (form : Form d t) : Numeral.value? t = some d.toFloat := by
  have none : Ends [] := fun c head => by contradiction
  have radix {lower upper : Char} {isRadixDigit : Char → Bool}
      (letters : lower.isAlpha = true ∧ upper.isAlpha = true) :
      Numeral.cutRadix lower upper isRadixDigit t = Option.none := by
    simpa using form.cutRadix_append none letters
  have same {d' : Decimal} (normal : d'.normal = d.normal) : d'.toFloat = d.toFloat := by
    rw [← toFloat_normal, normal, toFloat_normal]
  unfold Numeral.value?
  rw [radix (by decide), radix (by decide)]
  change (read? t).map toFloat = _
  unfold read?
  cases form with
  | whole digits value =>
    have span := spanDigits_append digits.2 (r := []) (by simp)
    rw [List.append_nil] at span
    simp only [span, if_neg digits.1, readExponent?, Option.map_some, same value]
  | @point ds fs digits fraction value =>
    have span := spanDigits_append fraction.2 (r := []) (by simp)
    rw [List.append_nil] at span
    simp only [spanDigits_append digits.2 (r := '.' :: fs) (by simp), if_neg digits.1, span,
      if_neg fraction.1, readExponent?, Option.map_some, zero_sub, same value]

end Cut

end Formula.Decimal
