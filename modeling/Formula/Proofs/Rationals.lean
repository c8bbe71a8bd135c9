import Formula.Proofs.Infinities

/-! Doubles as rational numbers. A double that is not zero has the least exponent that leaves room for
its significand, and so comparing exponents before significands compares numbers. Main statement:
doubles are compared as the rational numbers they are. -/
namespace Formula

open Float.Model

/-- The rational number that a double is, unless it is an infinity or NaN. -/
def rational? (x : Float) : Option ℚ :=
  match parts x with
  | .zero _ => some 0
  | .finite s m e _ => some (s.apply m * 2 ^ e)
  | _ => none

section Order

variable {m n : Nat} {e f : Int}

theorem lt_of_exponent_lt (canonicalM : Canonical m e) (canonicalN : Canonical n f)
    (higher : e < f) : (m : ℚ) * 2 ^ e < n * 2 ^ f := by
  have low := canonicalM.low
  have full : n.log2 = 52 := by
    unfold Canonical at canonicalN
    omega
  have positive : n ≠ 0 := by
    rintro rfl
    simp at full
  have large : 2 ^ 52 ≤ n := full ▸ Nat.log2_self_le positive
  calc (m : ℚ) * 2 ^ e < 2 ^ 53 * 2 ^ e :=
        mul_lt_mul_of_pos_right (by exact_mod_cast canonicalM.lt) (by positivity)
    _ = 2 ^ 52 * 2 ^ (e + 1) := by
        rw [zpow_add₀ (by norm_num), zpow_one]
        ring
    _ ≤ n * 2 ^ f := by
        refine mul_le_mul (by exact_mod_cast large) ?_ (by positivity) (by positivity)
        exact zpow_le_zpow_right₀ (by norm_num) higher

theorem compare_magnitudes (canonicalM : Canonical m e) (canonicalN : Canonical n f) :
    (compare e f).then (compare m n) = compare ((m : ℚ) * 2 ^ e) (n * 2 ^ f) := by
  rcases lt_trichotomy e f with lower | rfl | higher
  · rw [compare_lt_iff_lt.2 lower,
      compare_lt_iff_lt.2 (lt_of_exponent_lt canonicalM canonicalN lower)]
    rfl
  · have scale : (0 : ℚ) < 2 ^ e := by positivity
    rw [compare_eq_iff_eq.2 rfl, Ordering.eq_then]
    rcases lt_trichotomy m n with less | rfl | more
    · rw [compare_lt_iff_lt.2 less, compare_lt_iff_lt.2]
      exact mul_lt_mul_of_pos_right (by exact_mod_cast less) scale
    · rw [compare_eq_iff_eq.2 rfl, compare_eq_iff_eq.2 rfl]
    · rw [compare_gt_iff_gt.2 more, compare_gt_iff_gt.2]
      exact mul_lt_mul_of_pos_right (by exact_mod_cast more) scale
  · rw [compare_gt_iff_gt.2 higher,
      compare_gt_iff_gt.2 (lt_of_exponent_lt canonicalN canonicalM higher)]
    rfl

end Order

/-- What the parts of a double denote, with the bounds that they keep. -/
inductive Denotes : UnpackedFloat → ℚ → Prop where
  | zero (s : UnpackedFloat.Sign) : Denotes (.zero s) 0
  | finite (s : UnpackedFloat.Sign) {m : Nat} {e : Int} (positive : 0 < m)
      (canonical : Canonical m e) (high : e ≤ 971) :
    Denotes (.finite s m e positive) (s.apply m * 2 ^ e)

section Denotations

variable {x y : Float} {p q : UnpackedFloat} {a b : ℚ}

theorem rational?_eq_some_iff : rational? x = some a ↔ Denotes (parts x) a := by
  have shape := parts_of_bits x
  unfold rational?
  generalize parts x = p at shape
  constructor
  · intro same
    cases p with
    | zero s =>
      cases same
      exact .zero s
    | finite s m e positive =>
      obtain ⟨canonical, _, high⟩ := shape.canonical
      cases same
      exact .finite s positive canonical high
    | infinity | notANumber => cases same
  · rintro (_ | _) <;> rfl

theorem apply_positive (m : Nat) : ((UnpackedFloat.Sign.positive.apply m : Int) : ℚ) = m := by
  simp [UnpackedFloat.Sign.apply]

theorem apply_negative (m : Nat) : ((UnpackedFloat.Sign.negative.apply m : Int) : ℚ) = -m := by
  simp [UnpackedFloat.Sign.apply]

theorem compare_neg_neg (a b : ℚ) : compare (-a) (-b) = (compare a b).swap := by
  have reversed : StrictAnti fun a : ℚ => -a := fun _ _ less => neg_lt_neg less
  rw [← cmp_eq_compare, ← cmp_eq_compare, cmp_swap]
  exact reversed.cmp_map_eq a b

/-- Parts are compared as the numbers they denote. -/
theorem Denotes.compare (first : Denotes p a) (second : Denotes q b) :
    p.compare q = some (Ord.compare a b) := by
  have above {m : Nat} (e : Int) (positive : 0 < m) : (0 : ℚ) < m * 2 ^ e := by positivity
  have below {m : Nat} (e : Int) (positive : 0 < m) : -(m : ℚ) * 2 ^ e < 0 := by
    rw [neg_mul]
    exact neg_lt_zero.2 (above e positive)
  cases first with
  | zero s =>
    cases second with
    | zero t => rw [compare_eq_iff_eq.2 rfl]; rfl
    | finite t positive canonical high =>
      cases t with
      | positive => rw [apply_positive, compare_lt_iff_lt.2 (above _ positive)]; rfl
      | negative => rw [apply_negative, compare_gt_iff_gt.2 (below _ positive)]; rfl
  | finite s positiveM canonicalM highM =>
    cases second with
    | zero t =>
      cases s with
      | positive => rw [apply_positive, compare_gt_iff_gt.2 (above _ positiveM)]; rfl
      | negative => rw [apply_negative, compare_lt_iff_lt.2 (below _ positiveM)]; rfl
    | finite t positiveN canonicalN highN =>
      have magnitudes := compare_magnitudes canonicalM canonicalN
      cases s <;> cases t
      case positive.positive => rw [apply_positive, apply_positive, ← magnitudes]; rfl
      case negative.negative =>
        rw [apply_negative, apply_negative, neg_mul, neg_mul, compare_neg_neg, ← magnitudes]
        rfl
      case positive.negative =>
        rw [apply_positive, apply_negative,
          compare_gt_iff_gt.2 ((below _ positiveN).trans (above _ positiveM))]
        rfl
      case negative.positive =>
        rw [apply_positive, apply_negative,
          compare_lt_iff_lt.2 ((below _ positiveM).trans (above _ positiveN))]
        rfl

theorem beq_iff_rational (first : rational? x = some a) (second : rational? y = some b) :
    (x == y) = true ↔ a = b := by
  have parted : (x == y) = ((parts x).compare (parts y) == some .eq) := rfl
  rw [parted, beq_iff_eq, (rational?_eq_some_iff.1 first).compare (rational?_eq_some_iff.1 second),
    Option.some.injEq, compare_eq_iff_eq]

theorem lt_iff_compare : x < y ↔ (parts x).compare (parts y) = some .lt :=
  decide_eq_true_iff.trans beq_iff_eq

theorem le_iff_compare : x ≤ y ↔ ((parts x).compare (parts y)).any (·.isLE) = true :=
  decide_eq_true_iff

theorem lt_iff_rational (first : rational? x = some a) (second : rational? y = some b) :
    x < y ↔ a < b := by
  rw [lt_iff_compare, (rational?_eq_some_iff.1 first).compare (rational?_eq_some_iff.1 second),
    Option.some.injEq, compare_lt_iff_lt]

theorem le_iff_rational (first : rational? x = some a) (second : rational? y = some b) :
    x ≤ y ↔ a ≤ b := by
  rw [le_iff_compare, (rational?_eq_some_iff.1 first).compare (rational?_eq_some_iff.1 second),
    Option.any_some, Ordering.isLE_iff_ne_gt]
  exact compare_le_iff_le

theorem rational?_of_between {z : Float} (first : rational? x = some a) (second : rational? z = some b)
    (above : x ≤ y) (below : y ≤ z) : ∃ c, rational? y = some c := by
  rw [le_iff_compare] at above below
  have lower := rational?_eq_some_iff.1 first
  have upper := rational?_eq_some_iff.1 second
  rcases found : parts y with s | _ | s | ⟨s, m, e, positive⟩
  · rw [found] at above below
    cases s with
    | positive =>
      generalize parts z = q at below upper
      cases upper <;> cases below
    | negative =>
      generalize parts x = q at above lower
      cases lower with
      | zero => cases above
      | finite t => cases t <;> cases above
  · rw [found] at below
    generalize parts z = q at below upper
    cases upper <;> cases below
  all_goals
    unfold rational?
    rw [found]
    exact ⟨_, rfl⟩

theorem rational?_neg (x : Float) : rational? (-x) = (rational? x).map (-·) := by
  unfold rational?
  rw [parts_neg]
  rcases parts x with s | _ | s | ⟨s, m, e, positive⟩
  · rfl
  · rfl
  · simp [UnpackedFloat.neg]
  · refine congrArg some ?_
    change _ = -(_ * _)
    cases s with
    | positive =>
      rw [apply_positive, ← neg_mul, ← apply_negative]
      rfl
    | negative =>
      rw [apply_negative, neg_mul, neg_neg, ← apply_positive]
      rfl

end Denotations

end Formula
