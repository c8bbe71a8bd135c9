import Formula.Proofs.Rationals

/-! Natural numbers and differences as doubles. What is packed and taken apart again is the same, and
rounding leaves a significand that fills the room there is or has the least exponent of all. Main
statements: small natural numbers are doubles, and a difference is zero only between equal numbers. -/
namespace Formula

open Float.Model

section Packing

variable {s : UnpackedFloat.Sign} {m : Nat} {e : Int} {positive : 0 < m}

theorem signField_packComponents (s : UnpackedFloat.Sign) (e : BitVec 11) (m : BitVec 52) :
    signField (UnpackedFloat.packComponents Format.binary64 s e m).toNat = s := by
  have bits := toNat_packComponents s e m
  have boundE : e.toNat < 2 ^ 11 := e.isLt
  have boundM : m.toNat < 2 ^ 52 := m.isLt
  unfold signField
  cases s with
  | positive =>
    have clear : UnpackedFloat.Sign.positive.toBitVec.toNat = 0 := rfl
    rw [if_neg (by omega)]
  | negative =>
    have set : UnpackedFloat.Sign.negative.toBitVec.toNat = 1 := rfl
    rw [if_pos (by omega)]

section
variable {bits : Nat} (sign : signField bits = s)
include sign

theorem Parts.ofNormal (field : (exponentField bits : Int) - 1075 = e)
    (fraction : 2 ^ 52 + fractionField bits = m) (low : -1074 ≤ e) (high : e ≤ 971) :
    Parts bits (.finite s m e positive) := by
  subst sign field fraction
  exact .normal (by omega) (by omega) positive

theorem Parts.ofSubnormal (field : exponentField bits = 0) (fraction : fractionField bits = m) :
    Parts bits (.finite s m (-1074) positive) := by
  subst sign fraction
  exact .subnormal field positive

end

theorem parts_pack (canonical : Canonical m e) (high : e ≤ 971) :
    parts (.ofModel (.pack (.finite s m e positive))) = .finite s m e positive := by
  refine (parts_of_bits _).unique ?_
  change Parts (UnpackedFloat.pack Format.binary64 _).toNat _
  have low := canonical.low
  have biased : (e + Format.binary64.exponentBias + Format.binary64.mantissaBitsWithoutImplicit).toNat =
      (e + 1075).toNat := by
    change (e + (1023 : Nat) + (52 : Nat)).toNat = _
    omega
  simp only [UnpackedFloat.pack, biased]
  rw [if_neg (by change ¬ 2048 ≤ _; omega)]
  split
  · next full =>
    change m.log2 + 1 = 53 at full
    obtain ⟨large, small⟩ := (Nat.log2_eq_iff positive.ne').1 (Nat.succ.inj full)
    obtain ⟨field, fraction⟩ := fields_packComponents s (.ofNat 11 (e + 1075).toNat) (.ofNat 52 m)
    rw [BitVec.toNat_ofNat] at field fraction
    exact .ofNormal (signField_packComponents s _ _) (by omega) (by omega) low high
  · next short =>
    change ¬ m.log2 + 1 = 53 at short
    have small : m < 2 ^ 52 := (Nat.log2_lt positive.ne').1 (by have := canonical.log2_le; omega)
    obtain rfl : e = -1074 := by
      unfold Canonical at canonical
      omega
    obtain ⟨field, fraction⟩ := fields_packComponents s 0#11 (.ofNat 52 m)
    exact .ofSubnormal (signField_packComponents s _ _) field
      (fraction.trans (Nat.mod_eq_of_lt small))

theorem parts_pack_high (high : 971 < e) :
    parts (.ofModel (.pack (.finite s m e positive))) = .infinity s := by
  have packed : UnpackedFloat.pack Format.binary64 (.finite s m e positive) =
      UnpackedFloat.pack Format.binary64 (.infinity s) :=
    if_pos (by change 2048 ≤ (e + (1023 : Nat) + (52 : Nat)).toNat + 1; omega)
  have bits : (Float.ofModel (.pack (.finite s m e positive))).toBits.toNat =
      (Float.ofModel (.pack (.infinity s))).toBits.toNat := congrArg BitVec.toNat packed
  rw [eq_of_bits bits]
  exact parts_result rfl rfl

theorem not_isZero_pack (canonical : Canonical m e) :
    ¬ IsZero (.ofModel (.pack (.finite s m e positive))) := by
  rintro ⟨t, zero⟩
  rcases le_or_gt e 971 with high | high
  · rw [parts_pack canonical high] at zero
    cases zero
  · rw [parts_pack_high high] at zero
    cases zero

end Packing

section Rounding

variable {m : Nat} {e : Int}

theorem shift_mantissa (em : UnpackedFloat.ExtendedMantissa) (k : Nat) :
    (em >>> k).mantissa = em.mantissa / 2 ^ k := by
  induction k with
  | zero => rw [Nat.pow_zero, Nat.div_one]; rfl
  | succ k ih =>
    have step : em >>> (k + 1) = (em >>> k).shiftRightOne := rfl
    rw [step, Nat.pow_succ, ← Nat.div_div_eq_div_mul, ← ih]
    rfl

theorem mantissa_le_rounded (em : UnpackedFloat.ExtendedMantissa) :
    em.mantissa ≤ em.roundedMantissa := by
  obtain ⟨m, _ | _, _ | _⟩ := em <;>
    simp [UnpackedFloat.ExtendedMantissa.roundedMantissa, UnpackedFloat.ExtendedMantissa.accuracy,
      UnpackedFloat.Accuracy.roundToNearestEven]

theorem log2_div_two_pow {k : Nat} (positive : 0 < m) (bound : k ≤ m.log2) :
    0 < m / 2 ^ k ∧ (m / 2 ^ k).log2 = m.log2 - k := by
  have low := Nat.log2_self_le positive.ne'
  have high := Nat.lt_log2_self (n := m)
  have least : 2 ^ (m.log2 - k) ≤ m / 2 ^ k := by
    rw [Nat.le_div_iff_mul_le (by positivity), ← Nat.pow_add, Nat.sub_add_cancel bound]
    exact low
  have some : 0 < m / 2 ^ k := lt_of_lt_of_le (by positivity) least
  refine ⟨some, (Nat.log2_eq_iff some.ne').2 ⟨least, ?_⟩⟩
  rw [Nat.div_lt_iff_lt_mul (by positivity), ← Nat.pow_add,
    show m.log2 - k + 1 + k = m.log2 + 1 by omega]
  exact high

/-- The least exponent that leaves no more bits than there is room for. -/
def leastExponent (m : Nat) (e : Int) : Int := max ((m.log2 : Int) + 1 + e - 53) (-1074)

theorem leastExponent_mono {m n : Nat} (positive : 0 < m) (le : m ≤ n) (e : Int) :
    leastExponent m e ≤ leastExponent n e := by
  have longer : m.log2 ≤ n.log2 :=
    (Nat.le_log2 (by omega)).2 ((Nat.log2_self_le positive.ne').trans le)
  unfold leastExponent
  omega

theorem shiftToTargetExponent_canonical (positive : 0 < m) (low : -1074 ≤ e)
    (fine : e ≤ leastExponent m e) : ∃ em f,
      UnpackedFloat.shiftToTargetExponent Format.binary64 m e .exact = (em, f) ∧
      0 < em.mantissa ∧ Canonical em.mantissa f := by
  obtain ⟨k, exponent⟩ : ∃ k : Nat, leastExponent m e = e + k :=
    ⟨(leastExponent m e - e).toNat, by omega⟩
  have amount : (leastExponent m e - e).toNat = k := by omega
  have bound : k ≤ m.log2 := by
    unfold leastExponent at exponent
    omega
  obtain ⟨some, length⟩ := log2_div_two_pow positive bound
  have shifted : UnpackedFloat.shiftToTargetExponent Format.binary64 m e .exact =
      ((⟨m, false, false⟩ : UnpackedFloat.ExtendedMantissa) >>> k, e + k) := by
    rw [← amount]
    rfl
  refine ⟨_, _, shifted, ?_⟩
  rw [shift_mantissa]
  refine ⟨some, ?_⟩
  unfold Canonical
  rw [length]
  unfold leastExponent at exponent
  omega

theorem roundWithAccuracy_canonical (s : UnpackedFloat.Sign) (positive : 0 < m) (low : -1074 ≤ e)
    (fine : e ≤ leastExponent m e) : ∃ n f some,
      UnpackedFloat.roundWithAccuracy Format.binary64 s m e .exact = .finite s n f some ∧
      Canonical n f := by
  obtain ⟨em, f, shifted, some, canonical⟩ := shiftToTargetExponent_canonical positive low fine
  have rounded := mantissa_le_rounded em
  -- Rounding up may take one bit more, and the exponent then grows once more.
  obtain ⟨last, g, again, someLast, canonicalLast⟩ :=
    shiftToTargetExponent_canonical (some.trans_le rounded) canonical.low
      (canonical.le.trans (leastExponent_mono some rounded f))
  refine ⟨last.mantissa, g, someLast, ?_, canonicalLast⟩
  unfold UnpackedFloat.roundWithAccuracy
  simp only [shifted, again]
  exact dif_neg someLast.ne'

theorem round_eq (s : UnpackedFloat.Sign) (m : Nat) (e : Int) : ∃ k : Nat,
    e - k = min e (leastExponent m e) ∧ UnpackedFloat.round Format.binary64 s m e =
      UnpackedFloat.roundWithAccuracy Format.binary64 s (m * 2 ^ k) (e - k) .exact := by
  refine ⟨(e - leastExponent m e).toNat, by omega, ?_⟩
  rw [← Nat.shiftLeft_eq]
  rfl

theorem round_canonical (s : UnpackedFloat.Sign) (positive : 0 < m) (low : -1074 ≤ e) :
    ∃ n f some, UnpackedFloat.round Format.binary64 s m e = .finite s n f some ∧
      Canonical n f := by
  obtain ⟨k, exponent, same⟩ := round_eq s m e
  rw [same]
  have length := log2_mul_two_pow positive k
  unfold leastExponent at exponent
  refine roundWithAccuracy_canonical s (by positivity) (by omega) ?_
  unfold leastExponent
  omega

theorem round_natural (positive : 0 < m) (small : m < 2 ^ 53) : ∃ (k : Nat) (some : _),
    UnpackedFloat.round Format.binary64 .positive m 0 =
        .finite .positive (m * 2 ^ k) (-(k : Int)) some ∧
      Canonical (m * 2 ^ k) (-(k : Int)) := by
  obtain ⟨k, exponent, same⟩ := round_eq .positive m 0
  have short : m.log2 < 53 := (Nat.log2_lt positive.ne').2 small
  have canonical : Canonical (m * 2 ^ k) (-(k : Int)) := by
    unfold Canonical
    rw [log2_mul_two_pow positive]
    unfold leastExponent at exponent
    omega
  have exact := roundWithAccuracy_exact (s := .positive) (by positivity) canonical 0
  simp only [Nat.pow_zero, Nat.mul_one, Nat.cast_zero, sub_zero] at exact
  exact ⟨k, by positivity, by rw [same, zero_sub, exact], canonical⟩

end Rounding

section Naturals

variable {n : Nat}

theorem mul_one_finite {x : Float} {s : UnpackedFloat.Sign} {m : Nat} {e : Int} {positive : 0 < m}
    (finite : parts x = .finite s m e positive) : parts (x * 1) = .finite s m e positive := by
  obtain ⟨canonical, _, high⟩ := Parts.canonical (finite ▸ parts_of_bits x)
  have one : parts 1 = .finite .positive (2 ^ 52) (-52) (by decide) := rfl
  have packed : x * 1 = .ofModel (.pack (UnpackedFloat.mul Format.binary64 (parts x) (parts 1))) := rfl
  have product : UnpackedFloat.mul Format.binary64 (.finite s m e positive)
      (.finite .positive (2 ^ 52) (-52) (by decide)) = UnpackedFloat.roundWithAccuracy
        Format.binary64 (s * .positive) (m * 2 ^ 52) (e - (52 : Nat)) .exact := rfl
  have sign : s * .positive = s := by cases s <;> rfl
  rw [packed, finite, one, product, roundWithAccuracy_exact positive canonical, sign]
  exact parts_pack canonical high

theorem rational?_ofNat (small : n < 2 ^ 53) : rational? (Float.ofNat n) = some (n : ℚ) := by
  have fast : Float.ofNat n = n.toUInt64.toFloat * 1 := dif_pos ⟨small, by decide⟩
  rw [rational?_eq_some_iff]
  rcases Nat.eq_zero_or_pos n with rfl | positive
  · rw [show parts (Float.ofNat 0) = .zero .positive from rfl]
    exact .zero _
  · obtain ⟨k, some, rounded, canonical⟩ := round_natural positive small
    have word : n.toUInt64.toNat = n := by simp; omega
    have converted : parts n.toUInt64.toFloat = .finite .positive (n * 2 ^ k) (-(k : Int)) some := by
      have packed : n.toUInt64.toFloat = .ofModel (.pack (UnpackedFloat.normalize Format.binary64
        n.toUInt64.toNat 0 .positive)) := rfl
      have normal : UnpackedFloat.normalize Format.binary64 n 0 .positive =
          UnpackedFloat.round Format.binary64 .positive n 0 := by
        unfold UnpackedFloat.normalize
        rw [Int.compare_eq_gt.2 (by omega)]
        rfl
      rw [packed, word, normal, rounded]
      exact parts_pack canonical (by omega)
    have value : ((n * 2 ^ k : Nat) : ℚ) * 2 ^ (-(k : Int)) = n := by
      push_cast
      rw [zpow_neg, zpow_natCast, mul_assoc, mul_inv_cancel₀ (by positivity), mul_one]
    rw [fast, mul_one_finite converted, ← value, ← apply_positive]
    exact .finite .positive some canonical (by omega)

theorem rational?_one : rational? 1 = some 1 := by
  exact_mod_cast rational?_ofNat (n := 1) (by decide)

end Naturals

section Subtraction

variable {x y : Float} {p q : UnpackedFloat} {a b : ℚ}

theorem normalize_canonical {m e : Int} (s : UnpackedFloat.Sign) (nonzero : m ≠ 0) (low : -1074 ≤ e) :
    ∃ t n f positive, UnpackedFloat.normalize Format.binary64 m e s = .finite t n f positive ∧
      Canonical n f := by
  unfold UnpackedFloat.normalize
  split
  · next less =>
    have := Int.compare_eq_lt.1 less
    exact ⟨_, round_canonical _ (by omega) low⟩
  · next equal => exact absurd (Int.compare_eq_eq.1 equal) nonzero
  · next greater =>
    have := Int.compare_eq_gt.1 greater
    exact ⟨_, round_canonical _ (by omega) low⟩

theorem apply_cast (s : UnpackedFloat.Sign) (m : Int) :
    ((s.apply m : Int) : ℚ) = s.apply 1 * m := by
  cases s <;> simp [UnpackedFloat.Sign.apply]

theorem decreaseExponent_value (s : UnpackedFloat.Sign) {m : Nat} {e f : Int} (lower : f ≤ e) :
    (s.apply (UnpackedFloat.decreaseExponent m e f).1 : ℚ) * 2 ^ f = s.apply m * 2 ^ e := by
  obtain ⟨k, rfl⟩ : ∃ k : Nat, e = f + k := ⟨(e - f).toNat, by omega⟩
  have amount : (f + (k : Int) - f).toNat = k := by omega
  have shifted : (UnpackedFloat.decreaseExponent m (f + k) f).1 = m * 2 ^ k := by
    change m <<< (f + (k : Int) - f).toNat = _
    rw [amount, Nat.shiftLeft_eq]
  rw [shifted, apply_cast s, apply_cast s m, zpow_add₀ (by norm_num), zpow_natCast]
  push_cast
  ring

/-- A difference is rounded to a zero only if it is one. -/
theorem Denotes.sub (first : Denotes p a) (second : Denotes q b) :
    (a = b ∧ ∃ s, UnpackedFloat.sub Format.binary64 p q = .zero s) ∨
      (a ≠ b ∧ ∃ s m e positive, UnpackedFloat.sub Format.binary64 p q = .finite s m e positive ∧
        Canonical m e) := by
  have nonzero (s : UnpackedFloat.Sign) {m : Nat} (e : Int) (positive : 0 < m) :
      ((s.apply m : Int) : ℚ) * 2 ^ e ≠ 0 := by
    rw [apply_cast]
    have sign : (s.apply 1 : ℚ) ≠ 0 := by cases s <;> decide
    have scale : (2 : ℚ) ^ e ≠ 0 := by positivity
    exact mul_ne_zero (mul_ne_zero sign (by exact_mod_cast positive.ne')) scale
  cases first with
  | zero s =>
    cases second with
    | zero t => exact .inl ⟨rfl, by cases s <;> cases t <;> exact ⟨_, rfl⟩⟩
    | finite t positive canonical high =>
      exact .inr ⟨(nonzero t _ positive).symm, -t, _, _, positive, rfl, canonical⟩
  | @finite s m e positive canonical high =>
    cases second with
    | zero t => exact .inr ⟨nonzero s _ positive, s, _, _, positive, rfl, canonical⟩
    | @finite t n f positiveN canonicalN highN =>
      have low := canonical.low
      have lowN := canonicalN.low
      have left := decreaseExponent_value s (m := m) (min_le_left e f)
      have right := decreaseExponent_value t (m := n) (min_le_right e f)
      rw [← left, ← right]
      unfold UnpackedFloat.sub
      dsimp only
      generalize s.apply (UnpackedFloat.decreaseExponent m e (min e f)).1 = M at *
      generalize t.apply (UnpackedFloat.decreaseExponent n f (min e f)).1 = N at *
      rcases eq_or_ne M N with rfl | unequal
      · rw [sub_self]
        exact .inl ⟨rfl, _, rfl⟩
      · refine .inr ⟨?_, normalize_canonical _ (sub_ne_zero.2 unequal) (by omega)⟩
        have scale : (2 : ℚ) ^ min e f ≠ 0 := by positivity
        exact fun same => unequal (Int.cast_injective (mul_right_cancel₀ scale same))

/-- A difference is zero exactly if the numbers are the same. -/
theorem sub_beq_zero_iff (first : rational? x = some a) (second : rational? y = some b) :
    (x - y == 0) = true ↔ a = b := by
  have packed : x - y = .ofModel (.pack (UnpackedFloat.sub Format.binary64 (parts x) (parts y))) := rfl
  rw [beq_zero_iff, packed]
  rcases (rational?_eq_some_iff.1 first).sub (rational?_eq_some_iff.1 second) with
    ⟨equal, s, zero⟩ | ⟨unequal, s, m, e, positive, finite, canonical⟩
  · rw [zero]
    exact ⟨fun _ => equal, fun _ => ⟨s, by cases s <;> rfl⟩⟩
  · rw [finite]
    exact ⟨fun zero => absurd zero (not_isZero_pack canonical), fun equal => absurd equal unequal⟩

end Subtraction

end Formula
