import Formula.Number.Text
import Formula.Proofs.Decimals
import Formula.Proofs.Unsigned

/-! Reading decimals that are doubles. Rounding leaves a double alone, and so a decimal with the value
of a double is read as that double. Main statement: the shortest decimal of a double is read as it. -/
namespace Formula

open Float.Model

theorem toNat_packComponents (s : UnpackedFloat.Sign) (e : BitVec 11) (m : BitVec 52) :
    (UnpackedFloat.packComponents Format.binary64 s e m).toNat =
      s.toBitVec.toNat * 2 ^ 63 + e.toNat * 2 ^ 52 + m.toNat := by
  change ((s.toBitVec ++ e) ++ m).toNat = _
  rw [BitVec.toNat_append, BitVec.toNat_append, ← Nat.shiftLeft_add_eq_or_of_lt m.isLt,
    ← Nat.shiftLeft_add_eq_or_of_lt e.isLt, Nat.shiftLeft_eq, Nat.shiftLeft_eq]
  ring

theorem toNat_signField {bits : Nat} (bound : bits < 2 ^ 64) :
    (signField bits).toBitVec.toNat = bits / 2 ^ 63 := by
  unfold signField
  split <;> simp [UnpackedFloat.Sign.toBitVec] <;> omega

theorem Parts.pack_eq {bits : Nat} {p : UnpackedFloat} (shape : Parts bits p) (bound : bits < 2 ^ 64)
    (number : p ≠ .notANumber) : (UnpackedFloat.pack Format.binary64 p).toNat = bits := by
  have sign := toNat_signField bound
  have low : fractionField bits < 2 ^ 52 := Nat.mod_lt _ (by decide)
  have whole : bits = bits / 2 ^ 63 * 2 ^ 63 + exponentField bits * 2 ^ 52 + fractionField bits := by
    unfold exponentField fractionField
    omega
  cases shape with
  | notANumber => contradiction
  | infinity field fraction | zero field fraction =>
    rw [field, fraction] at whole
    simp only [UnpackedFloat.pack, UnpackedFloat.packedInfinity, UnpackedFloat.packedZero,
      toNat_packComponents, sign]
    exact whole.symm
  | subnormal field positive =>
    have short : ¬ (fractionField bits).log2 + 1 = Format.binary64.mantissaBits := by
      have := (Nat.log2_lt positive.ne').2 low
      exact fun same => by
        change _ = 53 at same
        omega
    rw [field] at whole
    simp only [UnpackedFloat.pack]
    rw [if_neg (by decide), if_neg short, toNat_packComponents, sign]
    simp only [BitVec.toNat_ofNat, Nat.mod_eq_of_lt low]
    exact whole.symm
  | normal low' high positive =>
    have long : (2 ^ 52 + fractionField bits).log2 + 1 = Format.binary64.mantissaBits := by
      have : (2 ^ 52 + fractionField bits).log2 = 52 :=
        (Nat.log2_eq_iff (by omega)).2 ⟨by omega, by omega⟩
      rw [this]
      rfl
    have biased : ((exponentField bits : Int) - 1075 + Format.binary64.exponentBias +
        Format.binary64.mantissaBitsWithoutImplicit).toNat = exponentField bits := by
      change ((exponentField bits : Int) - 1075 + (1023 : Nat) + (52 : Nat)).toNat = _
      omega
    simp only [UnpackedFloat.pack, biased]
    rw [if_neg (by change ¬ 2048 ≤ _; omega), if_pos long, toNat_packComponents, sign]
    simp only [BitVec.toNat_ofNat]
    rw [Nat.mod_eq_of_lt (by omega), Nat.add_mod_left, Nat.mod_eq_of_lt low]
    exact whole.symm

theorem ofModel_pack_parts {x : Float} (number : parts x ≠ .notANumber) :
    Float.ofModel (.pack (parts x)) = x :=
  eq_of_bits ((parts_of_bits x).pack_eq x.toBits.toNat_lt number)

/-- The significand has as many bits as there is room for. -/
def Canonical (m : Nat) (e : Int) : Prop :=
  e = max ((m.log2 : Int) + 1 + e - 53) (-1074)

section
variable {m : Nat} {e : Int}

theorem Canonical.low (canonical : Canonical m e) : -1074 ≤ e := by
  unfold Canonical at canonical
  omega

theorem Canonical.log2_le (canonical : Canonical m e) : m.log2 ≤ 52 := by
  unfold Canonical at canonical
  omega

theorem Canonical.lt (canonical : Canonical m e) : m < 2 ^ 53 :=
  calc m < 2 ^ (m.log2 + 1) := Nat.lt_log2_self
    _ ≤ 2 ^ 53 := Nat.pow_le_pow_right (by decide) (Nat.succ_le_succ canonical.log2_le)

end

theorem Parts.canonical {bits m : Nat} {s : UnpackedFloat.Sign} {e : Int} {positive : 0 < m}
    (shape : Parts bits (.finite s m e positive)) : Canonical m e ∧ m < 2 ^ 53 ∧ e ≤ 971 := by
  have low : fractionField bits < 2 ^ 52 := Nat.mod_lt _ (by decide)
  unfold Canonical
  cases shape with
  | subnormal field positive =>
    have short := (Nat.log2_lt positive.ne').2 low
    refine ⟨?_, ?_, ?_⟩ <;> omega
  | normal low' high positive =>
    have long : (2 ^ 52 + fractionField bits).log2 = 52 :=
      (Nat.log2_eq_iff (by omega)).2 ⟨by omega, by omega⟩
    rw [long]
    refine ⟨?_, ?_, ?_⟩ <;> omega

theorem log2_mul_two_pow {m : Nat} (positive : 0 < m) (k : Nat) :
    (m * 2 ^ k).log2 = m.log2 + k := by
  refine (Nat.log2_eq_iff (Nat.mul_ne_zero positive.ne' (by positivity))).2 ⟨?_, ?_⟩
  · rw [Nat.pow_add]
    exact Nat.mul_le_mul_right _ (Nat.log2_self_le positive.ne')
  · rw [Nat.add_right_comm, Nat.pow_add]
    exact Nat.mul_lt_mul_of_pos_right Nat.lt_log2_self (by positivity)

theorem shiftRight_exact (m k : Nat) :
    (⟨m * 2 ^ k, false, false⟩ : UnpackedFloat.ExtendedMantissa) >>> k = ⟨m, false, false⟩ := by
  induction k generalizing m with
  | zero => rw [Nat.pow_zero, Nat.mul_one]; rfl
  | succ k ih =>
    have step : (⟨m * 2 ^ (k + 1), false, false⟩ : UnpackedFloat.ExtendedMantissa) >>> (k + 1) =
        ((⟨m * 2 ^ (k + 1), false, false⟩ : UnpackedFloat.ExtendedMantissa) >>> k).shiftRightOne :=
      rfl
    rw [step, show m * 2 ^ (k + 1) = m * 2 * 2 ^ k by ring, ih]
    simp [UnpackedFloat.ExtendedMantissa.shiftRightOne]

theorem shiftToTargetExponent_exact {m : Nat} {e : Int} (positive : 0 < m)
    (canonical : Canonical m e) (k : Nat) :
    UnpackedFloat.shiftToTargetExponent Format.binary64 (m * 2 ^ k) (e - k) .exact =
      (⟨m, false, false⟩, e) := by
  have target : Format.binary64.targetExponent (totalExponent (m * 2 ^ k) (e - k)) = e := by
    unfold totalExponent
    rw [log2_mul_two_pow positive]
    unfold Canonical at canonical
    change max (_ - ((53 : Nat) : Int)) (-1074) = e
    push_cast
    omega
  unfold UnpackedFloat.shiftToTargetExponent UnpackedFloat.shiftToExponent
  simp only [target]
  have amount : (e - (e - k)).toNat = k := by omega
  rw [amount]
  exact Prod.ext (shiftRight_exact m k) (by simp)

/-- Rounding leaves a double alone. -/
theorem roundWithAccuracy_exact {s : UnpackedFloat.Sign} {m : Nat} {e : Int} (positive : 0 < m)
    (canonical : Canonical m e) (k : Nat) :
    UnpackedFloat.roundWithAccuracy Format.binary64 s (m * 2 ^ k) (e - k) .exact =
      .finite s m e positive := by
  have again := shiftToTargetExponent_exact positive canonical 0
  simp only [Nat.pow_zero, Nat.mul_one, Nat.cast_zero, sub_zero] at again
  have rounded : (⟨m, false, false⟩ : UnpackedFloat.ExtendedMantissa).roundedMantissa = m := rfl
  unfold UnpackedFloat.roundWithAccuracy
  simp only [shiftToTargetExponent_exact positive canonical k, rounded, again]
  rw [dif_neg positive.ne']

namespace Decimal

/-- The number that a decimal denotes. -/
def value (d : Decimal) : ℚ := d.digits * 10 ^ d.exponent

theorem value_normal (d : Decimal) : d.normal.value = d.value := by
  induction d using normal.induct with
  | case1 d zero => rw [normal_zero zero]; simp [value, zero]
  | case2 d nonzero trailing ih =>
    rw [normal_step nonzero trailing, ih]
    have digits : d.digits = 10 * (d.digits / 10) := by omega
    unfold value
    rw [zpow_add₀ (by norm_num), zpow_one]
    conv_rhs => rw [digits]
    push_cast
    ring
  | case3 d nonzero last => rw [normal_self last]

end Decimal

/-- The number that a significand and an exponent denote. -/
def Dyadic.value (b : Dyadic) : ℚ := b.significand * 2 ^ b.exponent

theorem two_zpow_lt {i j : Int} : (2 : ℚ) ^ i < 2 ^ j ↔ i < j :=
  zpow_lt_zpow_iff_right₀ (by norm_num)

theorem lt_two_zpow_log2 (n : Nat) : (n : ℚ) < 2 ^ ((n.log2 : Int) + 1) := by
  exact_mod_cast (Nat.lt_log2_self : n < 2 ^ (n.log2 + 1))

theorem two_zpow_log2_le {n : Nat} (positive : 0 < n) : (2 : ℚ) ^ (n.log2 : Int) ≤ n := by
  exact_mod_cast Nat.log2_self_le positive.ne'

theorem two_zpow_le_ten {k : Int} (positive : 0 ≤ k) : (2 : ℚ) ^ k ≤ 10 ^ k :=
  zpow_le_zpow_left₀ positive (by norm_num) (by norm_num)

theorem ten_zpow_le_two {k : Int} (negative : k ≤ 0) : (10 : ℚ) ^ k ≤ 2 ^ k := by
  have inverse := two_zpow_le_ten (k := -k) (by omega)
  rw [zpow_neg, zpow_neg] at inverse
  exact (inv_le_inv₀ (by positivity) (by positivity)).1 inverse

section Exact

variable {m n : Nat} {e k : Int}

theorem exponent_le (positive : 0 < n) (bound : m < 2 ^ 53) (high : e ≤ 971)
    (same : (n : ℚ) * 10 ^ k = m * 2 ^ e) : k ≤ 2048 := by
  by_contra above
  have size : (2 : ℚ) ^ k < 2 ^ (53 + e) := by
    calc (2 : ℚ) ^ k ≤ 10 ^ k := two_zpow_le_ten (by omega)
      _ ≤ n * 10 ^ k := le_mul_of_one_le_left (by positivity) (by exact_mod_cast positive)
      _ = m * 2 ^ e := same
      _ < 2 ^ (53 : Int) * 2 ^ e :=
        mul_lt_mul_of_pos_right (by exact_mod_cast bound) (by positivity)
      _ = 2 ^ (53 + e) := (zpow_add₀ (by norm_num) _ _).symm
  rw [two_zpow_lt] at size
  omega

theorem le_exponent (positive : 0 < m) (low : -1074 ≤ e) (same : (n : ℚ) * 10 ^ k = m * 2 ^ e) :
    -(2048 + (n.log2 : Int)) ≤ k := by
  by_contra below
  have size : (2 : ℚ) ^ e < 2 ^ ((n.log2 : Int) + 1 + k) := by
    calc (2 : ℚ) ^ e ≤ m * 2 ^ e := le_mul_of_one_le_left (by positivity) (by exact_mod_cast positive)
      _ = n * 10 ^ k := same.symm
      _ ≤ n * 2 ^ k := mul_le_mul_of_nonneg_left (ten_zpow_le_two (by omega)) (by positivity)
      _ < 2 ^ ((n.log2 : Int) + 1) * 2 ^ k :=
        mul_lt_mul_of_pos_right (lt_two_zpow_log2 n) (by positivity)
      _ = 2 ^ ((n.log2 : Int) + 1 + k) := (zpow_add₀ (by norm_num) _ _).symm
  rw [two_zpow_lt] at size
  omega

theorem exponent_gt (bound : m < 2 ^ 53) (whole : 1 ≤ (m : ℚ) * 2 ^ e) : -53 < e := by
  have size : (2 : ℚ) ^ (0 : Int) < 2 ^ (53 + e) := by
    calc (2 : ℚ) ^ (0 : Int) ≤ m * 2 ^ e := by simpa using whole
      _ < 2 ^ (53 : Int) * 2 ^ e :=
        mul_lt_mul_of_pos_right (by exact_mod_cast bound) (by positivity)
      _ = 2 ^ (53 + e) := (zpow_add₀ (by norm_num) _ _).symm
  rw [two_zpow_lt] at size
  omega

theorem mul_exact (positive : 0 < m) (canonical : Canonical m e) (bound : m < 2 ^ 53)
    (natural : 0 ≤ k) (same : (n : ℚ) * 10 ^ k = m * 2 ^ e) :
    UnpackedFloat.roundWithAccuracy Format.binary64 .positive (n <<< 53 * 10 ^ k.toNat) (-53) .exact =
      .finite .positive m e positive := by
  obtain ⟨j, rfl⟩ := Int.eq_ofNat_of_zero_le natural
  have some : 0 < n * 10 ^ j := by
    rw [← Nat.cast_pos (α := ℚ)]
    have := same ▸ (by positivity : (0 : ℚ) < m * 2 ^ e)
    exact_mod_cast this
  have low : -53 < e := exponent_gt bound (by
    rw [← same]
    exact_mod_cast some)
  have product : n <<< 53 * 10 ^ j = m * 2 ^ (e + 53).toNat := by
    have rational : ((n * 2 ^ 53 * 10 ^ j : Nat) : ℚ) = (m * 2 ^ (e + 53).toNat : Nat) := by
      push_cast
      rw [← zpow_natCast 2 (e + 53).toNat, Int.toNat_of_nonneg (by omega),
        zpow_add₀ (by norm_num), ← mul_assoc, ← same, zpow_natCast]
      norm_num
      ring
    rw [Nat.shiftLeft_eq]
    exact_mod_cast rational
  rw [Int.toNat_natCast, product, show (-53 : Int) = e - ((e + 53).toNat : Int) by omega]
  exact roundWithAccuracy_exact positive canonical _

theorem log2_quotient_le {q : Nat} (positive : 0 < n) (same : (n : ℚ) = m * 2 ^ e * q) :
    (n.log2 : Int) - q.log2 ≤ m.log2 + 1 + e := by
  have some : (0 : ℚ) < m * 2 ^ e * q := by
    rw [← same]
    exact_mod_cast positive
  have size : (2 : ℚ) ^ (n.log2 : Int) < 2 ^ ((m.log2 : Int) + 1 + e + (q.log2 + 1)) := by
    calc (2 : ℚ) ^ (n.log2 : Int) ≤ n := two_zpow_log2_le positive
      _ = m * 2 ^ e * q := same
      _ < 2 ^ ((m.log2 : Int) + 1) * 2 ^ e * 2 ^ ((q.log2 : Int) + 1) := by
        refine mul_lt_mul'' (mul_lt_mul_of_pos_right (lt_two_zpow_log2 m) (by positivity))
          (lt_two_zpow_log2 q) (by positivity) (by positivity)
      _ = 2 ^ ((m.log2 : Int) + 1 + e + (q.log2 + 1)) := by
        rw [← zpow_add₀ (by norm_num), ← zpow_add₀ (by norm_num)]
  rw [two_zpow_lt] at size
  omega

theorem div_exact {q : Nat} (some : 0 < n) (positive : 0 < m) (canonical : Canonical m e)
    (divisor : 0 < q) (same : (n : ℚ) = m * 2 ^ e * q) :
    UnpackedFloat.div Format.binary64 (.finite .positive n 0 some) (.finite .positive q 0 divisor) =
      .finite .positive m e positive := by
  have size := log2_quotient_le some same
  unfold UnpackedFloat.div UnpackedFloat.divCore
  dsimp only
  generalize exponent : min ((0 : Int) - 0) (Format.binary64.targetExponent
    (totalExponent n 0 - totalExponent q 0)) = E
  -- The quotient is developed at least as far as the double goes.
  have below : E ≤ e ∧ E ≤ 0 := by
    unfold totalExponent at exponent
    change min ((0 : Int) - 0) (max (_ - ((53 : Nat) : Int)) (-1074)) = E at exponent
    unfold Canonical at canonical
    push_cast at exponent
    omega
  obtain ⟨j, rfl⟩ : ∃ j : Nat, E = e - j := ⟨(e - E).toNat, by omega⟩
  have product : n <<< (0 - 0 - (e - j)).toNat = m * 2 ^ j * q := by
    have rational : ((n * 2 ^ (j - e).toNat : Nat) : ℚ) = (m * 2 ^ j * q : Nat) := by
      push_cast
      rw [← zpow_natCast 2 (j - e).toNat, Int.toNat_of_nonneg (by omega), same,
        ← zpow_natCast 2 j, sub_eq_add_neg, zpow_add₀ (by norm_num), zpow_neg]
      field_simp
    rw [Nat.shiftLeft_eq, show (0 : Int) - 0 - (e - j) = j - e by ring]
    exact_mod_cast rational
  rw [product, Nat.mul_div_cancel _ divisor, Nat.mul_mod_left]
  exact roundWithAccuracy_exact positive canonical j

/-- A decimal with the value of a double is rounded to it. -/
theorem ofScientific_exact (positive : 0 < m) (canonical : Canonical m e) (bound : m < 2 ^ 53)
    (high : e ≤ 971) (same : (n : ℚ) * 10 ^ k = m * 2 ^ e) :
    UnpackedFloat.ofScientific Format.binary64 n k = .finite .positive m e positive := by
  have some : 0 < n := by
    rw [← Nat.cast_pos (α := ℚ)]
    have product : (0 : ℚ) < n * 10 ^ k := by
      rw [same]
      positivity
    exact pos_of_mul_pos_left product (by positivity)
  have above := exponent_le some bound high same
  have below := le_exponent positive canonical.low same
  unfold UnpackedFloat.ofScientific
  rw [dif_neg some.ne', if_neg (by change ¬ k > 2 ^ 11; omega),
    if_neg (by change ¬ k < -(2 ^ 11 + (n.log2 : Int)); omega)]
  split
  · next natural =>
    exact mul_exact positive canonical bound natural same
  · next negative =>
    refine div_exact some positive canonical _ ?_
    push_cast
    rw [← same, ← zpow_natCast 10, Int.toNat_of_nonneg (by omega), mul_assoc,
      ← zpow_add₀ (by norm_num)]
    simp

end Exact

theorem Decimal.toFloat_exact {x : Float} {d : Decimal} {m : Nat} {e : Int} {positive : 0 < m}
    (finite : parts x = .finite .positive m e positive)
    (same : d.value = (⟨m, e⟩ : Dyadic).value) : d.toFloat = x := by
  obtain ⟨canonical, bound, high⟩ := Parts.canonical (finite ▸ parts_of_bits x)
  rw [← d.value_normal] at same
  rw [← ofModel_pack_parts (x := x) (by rw [finite]; nofun), finite]
  exact congrArg _ (congrArg _ (ofScientific_exact positive canonical bound high same))

theorem Dyadic.ofFloat_fields (x : Float) :
    ofFloat x = if exponentField x.toBits.toNat = 0 then ⟨fractionField x.toBits.toNat, -1074⟩
      else ⟨2 ^ 52 + fractionField x.toBits.toNat, (exponentField x.toBits.toNat : Int) - 1075⟩ := by
  unfold ofFloat exponentField fractionField
  simp only [Nat.shiftRight_eq_div_pow, Nat.one_shiftLeft]

theorem Dyadic.ofFloat_eq {x : Float} {s : UnpackedFloat.Sign} {m : Nat} {e : Int}
    {positive : 0 < m} (finite : parts x = .finite s m e positive) : ofFloat x = ⟨m, e⟩ := by
  have shape := parts_of_bits x
  rw [finite] at shape
  rw [ofFloat_fields]
  cases shape with
  | subnormal field positive => exact if_pos field
  | normal low high positive => exact if_neg low.ne'

theorem Decimal.value_exact (b : Dyadic) : (exact b).value = b.value := by
  unfold exact
  split
  · next whole =>
    simp only [value, Dyadic.value, zpow_zero, mul_one, Nat.shiftLeft_eq]
    push_cast
    rw [← zpow_natCast 2, Int.toNat_of_nonneg whole]
  · next fraction =>
    obtain ⟨j, exponent⟩ : ∃ j : Nat, b.exponent = -j := ⟨b.exponent.natAbs, by omega⟩
    simp only [value, Dyadic.value, exponent, Int.natAbs_neg, Int.natAbs_natCast, zpow_neg,
      zpow_natCast, Nat.pow_eq]
    push_cast
    rw [show (10 : ℚ) = 5 * 2 by norm_num, mul_pow]
    field_simp

theorem abs_of_unsigned {x : Float} (number : parts x ≠ .notANumber) (unsigned : Unsigned (parts x)) :
    x.abs = x := by
  have same : (parts x).abs = parts x := by
    cases found : parts x <;> rw [found] at unsigned <;> simp_all [Unsigned, UnpackedFloat.abs]
  have packed : x.abs = .ofModel (.pack (parts x).abs) := rfl
  rw [packed, same, ofModel_pack_parts number]

/-- The shortest decimal of a double is read as it. -/
theorem Decimal.toFloat_shortest {x : Float} {m : Nat} {e : Int} {positive : 0 < m}
    (finite : parts x = .finite .positive m e positive) : (shortest x).toFloat = x := by
  have number : parts x ≠ .notANumber := by
    rw [finite]
    nofun
  unfold shortest
  dsimp only
  rw [toFloat_normal, abs_of_unsigned number (by rw [finite]; rfl)]
  cases found : search x (.ofFloat x) 20 (start (.ofFloat x)) with
  | some d =>
    rcases beq_iff.1 (search_reads_back found) with ⟨equal, _⟩ | ⟨_, ⟨s, zero⟩⟩
    · exact equal
    · rw [finite] at zero
      contradiction
  | none => exact toFloat_exact finite (by rw [Dyadic.ofFloat_eq finite]; exact value_exact _)

theorem isInf_iff {x : Float} : x.isInf = true ↔ ∃ s, parts x = .infinity s := by
  have parted : x.isInf = (parts x).isInf := rfl
  rw [parted]
  cases parts x <;> simp [UnpackedFloat.isInf]

theorem eq_infinity {x : Float} (infinite : x.isInf = true) (unsigned : isNegative x = false) :
    x = 1.0 / 0.0 := by
  obtain ⟨s, found⟩ := isInf_iff.1 infinite
  have sign := parts_unsigned unsigned
  rw [found] at sign
  refine parts_injective ?_
  rw [found, show s = .positive from sign]
  rfl

theorem Number.text_decimal {x : Float} (number : x.isNaN = false) (finite : x.isInf = false)
    (unsigned : isNegative x = false) :
    ∃ d : Decimal, text x = String.ofList d.text ∧ sameNumber d.toFloat x = true := by
  have sign := parts_unsigned unsigned
  unfold text spell
  simp only [number, finite, unsigned, Bool.false_eq_true, if_false]
  cases found : parts x with
  | notANumber => exact absurd (isNaN_iff.2 found) (by rw [number]; decide)
  | infinity s => exact absurd (isInf_iff.2 ⟨s, found⟩) (by rw [finite]; decide)
  | zero s =>
    have zero : (x == 0) = true := beq_iff.2 (.inr ⟨⟨s, found⟩, .positive, rfl⟩)
    have same : IsZero (Decimal.toFloat ⟨0, 0⟩) := ⟨.positive, by with_unfolding_all rfl⟩
    rw [if_pos zero]
    exact ⟨⟨0, 0⟩, by decide, sameNumber_iff.2 (.inr ⟨same, s, found⟩)⟩
  | finite s m e positive =>
    rw [found] at sign
    obtain rfl : s = .positive := sign
    have nonzero : ¬ (x == 0) = true := by
      rw [beq_iff]
      rintro (⟨rfl, _⟩ | ⟨⟨t, zero⟩, _⟩)
      · cases found
      · rw [found] at zero
        contradiction
    rw [if_neg nonzero]
    exact ⟨_, rfl, sameNumber_iff.2 (.inl (Decimal.toFloat_shortest found))⟩

end Formula
