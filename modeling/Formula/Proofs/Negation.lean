import Formula.Number.Text
import Formula.Proofs.Printable
import Formula.Proofs.Rounding

/-! The negation of a double: the same double with the other sign. Main statement: a negative number,
the negative zero included, is written as a minus sign and its negation. -/
namespace Formula

open Float.Model

/-- The bits with the other sign. -/
def flipSign (bits : Nat) : Nat := if bits < 2 ^ 63 then bits + 2 ^ 63 else bits - 2 ^ 63

section Bits

variable {bits : Nat}

theorem flipSign_lt (bound : bits < 2 ^ 64) : flipSign bits < 2 ^ 64 := by
  unfold flipSign
  split <;> omega

theorem exponentField_flipSign (bits : Nat) : exponentField (flipSign bits) = exponentField bits := by
  unfold exponentField flipSign
  split <;> omega

theorem fractionField_flipSign (bits : Nat) : fractionField (flipSign bits) = fractionField bits := by
  unfold fractionField flipSign
  split <;> omega

theorem signField_flipSign (bound : bits < 2 ^ 64) : signField (flipSign bits) = -signField bits := by
  unfold signField flipSign
  by_cases clear : bits < 2 ^ 63
  · rw [if_pos clear, if_pos (by omega), if_neg (by omega)]
    rfl
  · rw [if_neg clear, if_neg (by omega), if_pos (by omega)]
    rfl

theorem Parts.neg {p : UnpackedFloat} (shape : Parts bits p) (bound : bits < 2 ^ 64) :
    Parts (flipSign bits) p.neg := by
  have field := exponentField_flipSign bits
  have fraction := fractionField_flipSign bits
  have sign := signField_flipSign bound
  cases shape with
  | infinity top clear =>
    rw [UnpackedFloat.neg, ← sign]
    exact .infinity (field.trans top) (fraction.trans clear)
  | notANumber top set =>
    exact .notANumber (field.trans top) (fraction.symm ▸ set)
  | zero bottom clear =>
    rw [UnpackedFloat.neg, ← sign]
    exact .zero (field.trans bottom) (fraction.trans clear)
  | subnormal bottom positive =>
    simp only [UnpackedFloat.neg, ← sign, ← fraction]
    exact .subnormal (field.trans bottom) (fraction.symm ▸ positive)
  | normal low high positive =>
    simp only [UnpackedFloat.neg, ← sign, ← fraction, ← field]
    exact .normal (field.symm ▸ low) (field.symm ▸ high) (fraction.symm ▸ positive)

theorem Parts.unique {p q : UnpackedFloat} (first : Parts bits p) (second : Parts bits q) : p = q := by
  cases first <;> cases second <;> first | rfl | omega

end Bits

section Negation

variable {x : Float}

theorem neg_eq_notANumber {p : UnpackedFloat} : p.neg = .notANumber ↔ p = .notANumber := by
  cases p <;> simp [UnpackedFloat.neg]

theorem toBits_neg (number : parts x ≠ .notANumber) :
    (-x).toBits.toNat = flipSign x.toBits.toNat :=
  ((parts_of_bits x).neg x.toBits.toNat_lt).pack_eq (flipSign_lt x.toBits.toNat_lt)
    (mt neg_eq_notANumber.1 number)

theorem parts_neg (x : Float) : parts (-x) = (parts x).neg := by
  by_cases nan : parts x = .notANumber
  · have packed : -x = .ofModel (.pack (parts x).neg) := rfl
    rw [packed, nan]
    rfl
  · have shape := parts_of_bits (-x)
    rw [toBits_neg nan] at shape
    exact shape.unique ((parts_of_bits x).neg x.toBits.toNat_lt)

theorem neg_neg_number (x : Float) : -(-x) = x := by
  refine parts_injective ?_
  rw [parts_neg, parts_neg]
  rcases parts x with s | _ | s | ⟨s, m, e, _⟩ <;> try cases s
  all_goals rfl

theorem number_of_isNegative (negative : isNegative x = true) : parts x ≠ .notANumber := fun nan =>
  absurd negative (by simp [isNegative_of_isNaN (isNaN_iff.2 nan)])

theorem isNegative_neg (number : parts x ≠ .notANumber) : isNegative (-x) = !isNegative x := by
  have bound := x.toBits.toNat_lt
  rw [isNegative, isNegative, toBits_neg number, Nat.testBit_eq_decide_div_mod_eq,
    Nat.testBit_eq_decide_div_mod_eq, ← decide_not, decide_eq_decide, flipSign]
  split <;> omega

theorem unsigned_neg (negative : isNegative x = true) : isNegative (-x) = false := by
  rw [isNegative_neg (number_of_isNegative negative), negative]
  rfl

theorem isNaN_neg (x : Float) : (-x).isNaN = x.isNaN := by
  rw [Bool.eq_iff_iff, isNaN_iff, isNaN_iff, parts_neg, neg_eq_notANumber]

theorem isInf_neg (x : Float) : (-x).isInf = x.isInf := by
  rw [Bool.eq_iff_iff, isInf_iff, isInf_iff, parts_neg]
  rcases parts x with s | _ | s | ⟨s, m, e, _⟩ <;> try cases s
  all_goals simp [UnpackedFloat.neg]

theorem isZero_neg : IsZero (-x) ↔ IsZero x := by
  unfold IsZero
  rw [parts_neg]
  rcases parts x with s | _ | s | ⟨s, m, e, _⟩ <;> try cases s
  all_goals simp [UnpackedFloat.neg]

theorem abs_neg_number (x : Float) : (-x).abs = x.abs := by
  have packed (y : Float) : y.abs = .ofModel (.pack (parts y).abs) := rfl
  rw [packed, packed, parts_neg]
  cases parts x <;> rfl

theorem beq_zero_iff : (x == 0) = true ↔ IsZero x := by
  have zero : IsZero 0 := ⟨.positive, rfl⟩
  rw [beq_iff]
  constructor
  · rintro (⟨rfl, _⟩ | ⟨isZero, _⟩)
    · exact zero
    · exact isZero
  · exact fun isZero => .inr ⟨isZero, zero⟩

theorem Dyadic.ofFloat_neg (number : parts x ≠ .notANumber) : ofFloat (-x) = ofFloat x := by
  rw [ofFloat_fields, ofFloat_fields, toBits_neg number, exponentField_flipSign,
    fractionField_flipSign]

theorem Decimal.shortest_neg (number : parts x ≠ .notANumber) : shortest (-x) = shortest x := by
  rw [shortest, shortest, Dyadic.ofFloat_neg number, abs_neg_number]

/-- A negative number is written as a minus sign and its negation. -/
theorem Number.text_negative (negative : isNegative x = true) : text x = "-" ++ text (-x) := by
  have number := number_of_isNegative negative
  have zero : (-x == 0) = (x == 0) := by
    rw [Bool.eq_iff_iff, beq_zero_iff, beq_zero_iff, isZero_neg]
  have nan : x.isNaN = false := Bool.eq_false_iff.2 (mt isNaN_iff.1 number)
  unfold text spell
  rw [isNaN_neg, isInf_neg, zero, Decimal.shortest_neg number, nan, negative,
    unsigned_neg negative]
  rfl

end Negation

end Formula
