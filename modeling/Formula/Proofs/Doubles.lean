import Formula.Number.Dyadic
import Formula.Value
import Mathlib

/-! Doubles by their parts: a sign, and an infinity, a zero or a significand and an exponent; there is
one NaN. Main statements: the parts determine the double, and numbers that are the same are equal
or both zeros. -/
namespace Formula

open Float.Model

/-- The exponent field of the bits of a double. -/
def exponentField (bits : Nat) : Nat := bits / 2 ^ 52 % 2 ^ 11

/-- The bits of a double below the exponent field. -/
def fractionField (bits : Nat) : Nat := bits % 2 ^ 52

/-- The sign that the highest bit stands for. -/
def signField (bits : Nat) : UnpackedFloat.Sign :=
  if bits / 2 ^ 63 % 2 = 1 then .negative else .positive

section
variable (b : BitVec Format.binary64.numBits)

theorem toNat_unpackMantissa : (UnpackedFloat.unpackMantissa b).toNat = fractionField b.toNat := by
  simp [UnpackedFloat.unpackMantissa, fractionField]

theorem toNat_unpackExponent : (UnpackedFloat.unpackExponent b).toNat = exponentField b.toNat := by
  simp [UnpackedFloat.unpackExponent, exponentField, Nat.shiftRight_eq_div_pow]

theorem ofBitVec_unpackSign :
    UnpackedFloat.Sign.ofBitVec (UnpackedFloat.unpackSign b) = signField b.toNat := by
  have value : (UnpackedFloat.unpackSign b).toNat = b.toNat / 2 ^ 63 % 2 := by
    simp [UnpackedFloat.unpackSign, Nat.shiftRight_eq_div_pow]
  unfold UnpackedFloat.Sign.ofBitVec signField
  rw [← value]
  by_cases clear : UnpackedFloat.unpackSign b = 0#1
  · rw [if_pos clear, clear]
    rfl
  · have bound := (UnpackedFloat.unpackSign b).isLt
    have nonzero : (UnpackedFloat.unpackSign b).toNat ≠ 0 := fun zero =>
      clear (BitVec.eq_of_toNat_eq zero)
    rw [if_neg clear, if_pos (by omega)]

theorem toNat_one_append (m : BitVec 52) : (1#1 ++ m).toNat = 2 ^ 52 + m.toNat := by
  rw [BitVec.toNat_append, Nat.shiftLeft_eq, Nat.mul_comm, ← Nat.two_pow_add_eq_or_of_lt m.isLt]
  rfl

/-- What the fields of the bits stand for. -/
inductive Parts (bits : Nat) : UnpackedFloat → Prop where
  | infinity (field : exponentField bits = 2047) (fraction : fractionField bits = 0) :
    Parts bits (.infinity (signField bits))
  | notANumber (field : exponentField bits = 2047) (fraction : fractionField bits ≠ 0) :
    Parts bits .notANumber
  | zero (field : exponentField bits = 0) (fraction : fractionField bits = 0) :
    Parts bits (.zero (signField bits))
  | subnormal (field : exponentField bits = 0) (positive : 0 < fractionField bits) :
    Parts bits (.finite (signField bits) (fractionField bits) (-1074) positive)
  | normal (low : 0 < exponentField bits) (high : exponentField bits < 2047)
      (positive : 0 < 2 ^ 52 + fractionField bits) :
    Parts bits (.finite (signField bits) (2 ^ 52 + fractionField bits)
      ((exponentField bits : Int) - 1075) positive)

theorem parts_unpack : Parts b.toNat (UnpackedFloat.unpack Format.binary64 b) := by
  have exponent := toNat_unpackExponent b
  have mantissa := toNat_unpackMantissa b
  have top : UnpackedFloat.unpackExponent b = -1#11 ↔ exponentField b.toNat = 2047 := by
    rw [← BitVec.toNat_inj, exponent]
    rfl
  have bottom : UnpackedFloat.unpackExponent b = 0#11 ↔ exponentField b.toNat = 0 := by
    rw [← BitVec.toNat_inj, exponent]
    rfl
  have clear : UnpackedFloat.unpackMantissa b = 0#52 ↔ fractionField b.toNat = 0 := by
    rw [← BitVec.toNat_inj, mantissa]
    rfl
  have bound : exponentField b.toNat < 2 ^ 11 := Nat.mod_lt _ (by decide)
  unfold UnpackedFloat.unpack
  simp only [ofBitVec_unpackSign]
  by_cases isTop : exponentField b.toNat = 2047
  · rw [if_pos (top.2 isTop)]
    by_cases isClear : fractionField b.toNat = 0
    · rw [if_pos (clear.2 isClear)]
      exact .infinity isTop isClear
    · rw [if_neg (mt clear.1 isClear)]
      exact .notANumber isTop isClear
  rw [if_neg (mt top.1 isTop)]
  by_cases isBottom : exponentField b.toNat = 0
  · rw [if_pos (bottom.2 isBottom)]
    by_cases isClear : fractionField b.toNat = 0
    · rw [dif_pos (clear.2 isClear)]
      exact .zero isBottom isClear
    · rw [dif_neg (mt clear.1 isClear)]
      simp only [mantissa, exponent, isBottom]
      exact .subnormal isBottom (Nat.pos_of_ne_zero isClear)
  · rw [if_neg (mt bottom.1 isBottom)]
    simp only [toNat_one_append, mantissa, exponent]
    exact .normal (Nat.pos_of_ne_zero isBottom) (by omega) (by omega)

end

/-- The parts of a double. -/
def parts (x : Float) : UnpackedFloat := x.toModel.unpack

theorem parts_of_bits (x : Float) : Parts x.toBits.toNat (parts x) := parts_unpack _

theorem bits_eq {m n : Nat} (boundM : m < 2 ^ 64) (boundN : n < 2 ^ 64)
    (field : exponentField m = exponentField n) (fraction : fractionField m = fractionField n)
    (sign : signField m = signField n) : m = n := by
  unfold exponentField at field
  unfold fractionField at fraction
  have top : m / 2 ^ 63 % 2 = n / 2 ^ 63 % 2 := by
    unfold signField at sign
    by_cases setM : m / 2 ^ 63 % 2 = 1 <;> by_cases setN : n / 2 ^ 63 % 2 = 1 <;>
      simp_all
  omega

theorem eq_of_bits {x y : Float} (same : x.toBits.toNat = y.toBits.toNat) : x = y := by
  obtain ⟨⟨a, _⟩⟩ := x
  obtain ⟨⟨b, _⟩⟩ := y
  have bits : a = b := UInt64.toNat.inj same
  cases bits
  rfl

theorem bits_of_notANumber {x : Float} (nan : parts x = .notANumber) :
    x.toBits.toNat = 0x7FF8000000000000 := by
  have shape := parts_of_bits x
  rw [nan] at shape
  cases shape with
  | notANumber field fraction =>
    have canonical := x.toModel.valid.eq_packedNaN
      (BitVec.eq_of_toNat_eq ((toNat_unpackExponent _).trans field))
      (fun clear => fraction ((toNat_unpackMantissa _).symm.trans (congrArg _ clear)))
    exact congrArg BitVec.toNat canonical

theorem Parts.bits_eq {m n : Nat} {p q : UnpackedFloat} (first : Parts m p) (second : Parts n q)
    (boundM : m < 2 ^ 64) (boundN : n < 2 ^ 64) (number : p ≠ .notANumber) (same : p = q) :
    m = n := by
  have lowM : fractionField m < 2 ^ 52 := Nat.mod_lt _ (by decide)
  have lowN : fractionField n < 2 ^ 52 := Nat.mod_lt _ (by decide)
  cases first <;> cases second <;> simp only [UnpackedFloat.infinity.injEq,
    UnpackedFloat.zero.injEq, UnpackedFloat.finite.injEq, reduceCtorEq, ne_eq,
    not_true_eq_false] at same number
  case infinity.infinity => exact Formula.bits_eq boundM boundN (by omega) (by omega) same
  case zero.zero => exact Formula.bits_eq boundM boundN (by omega) (by omega) same
  all_goals exact Formula.bits_eq boundM boundN (by omega) (by omega) same.1

theorem parts_injective {x y : Float} (same : parts x = parts y) : x = y := by
  refine eq_of_bits ?_
  by_cases nan : parts x = .notANumber
  · rw [bits_of_notANumber nan, bits_of_notANumber (same ▸ nan)]
  · exact (parts_of_bits x).bits_eq (parts_of_bits y) x.toBits.toNat_lt y.toBits.toNat_lt nan same

/-- Comparing parts for equality, infinities and significands alike, is equality but for the zeros. -/
theorem compare_eq_eq_iff {p q : UnpackedFloat} :
    p.compare q = some .eq ↔
      (p = q ∧ p ≠ .notANumber) ∨ (∃ s, p = .zero s) ∧ ∃ t, q = .zero t := by
  rcases p with s | _ | s | ⟨s, m, e, _⟩ <;> rcases q with t | _ | t | ⟨t, n, f, _⟩ <;>
    try cases s <;> try cases t
  all_goals simp [UnpackedFloat.compare, Ordering.then_eq_eq, and_comm]
  all_goals decide

/-- Whether a double is one of the zeros. -/
def IsZero (x : Float) : Prop := ∃ s, parts x = .zero s

theorem isNaN_iff {x : Float} : x.isNaN = true ↔ parts x = .notANumber := by
  unfold Float.isNaN Float.Model.isNaN
  change (parts x).isNaN = true ↔ _
  cases parts x <;> simp [UnpackedFloat.isNaN]

theorem beq_iff {x y : Float} :
    (x == y) = true ↔ (x = y ∧ x.isNaN = false) ∨ (IsZero x ∧ IsZero y) := by
  have parted : (x == y) = ((parts x).compare (parts y) == some .eq) := rfl
  rw [parted, beq_iff_eq, compare_eq_eq_iff, ← Bool.not_eq_true, isNaN_iff]
  exact or_congr_left (and_congr_left fun _ => ⟨parts_injective, congrArg parts⟩)

/-- Numbers are the same when they are equal or both zeros. -/
theorem sameNumber_iff {x y : Float} :
    sameNumber x y = true ↔ x = y ∨ (IsZero x ∧ IsZero y) := by
  unfold sameNumber
  rw [Bool.or_eq_true, Bool.and_eq_true, beq_iff]
  constructor
  · rintro ((⟨equal, _⟩ | zeros) | ⟨nanX, nanY⟩)
    · exact .inl equal
    · exact .inr zeros
    · exact .inl (parts_injective ((isNaN_iff.1 nanX).trans (isNaN_iff.1 nanY).symm))
  · rintro (rfl | zeros)
    · cases nan : x.isNaN
      · exact .inl (.inl ⟨rfl, rfl⟩)
      · exact .inr ⟨rfl, rfl⟩
    · exact .inl (.inr zeros)

end Formula
