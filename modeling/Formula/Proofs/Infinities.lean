import Formula.Proofs.Negation
import Formula.Proofs.Reductions

/-! Infinities and NaN in sums and statistics, by the rules for arithmetic on them alone. Main
statement: where a number is not finite, every statistic is NaN; the running sum does go to the
infinity, as plain addition goes, and it is what additions are said to lose that becomes NaN. -/
namespace Formula

open Float.Model

section Packing

theorem fields_packComponents (s : UnpackedFloat.Sign) (e : BitVec 11) (m : BitVec 52) :
    exponentField (UnpackedFloat.packComponents Format.binary64 s e m).toNat = e.toNat ∧
      fractionField (UnpackedFloat.packComponents Format.binary64 s e m).toNat = m.toNat := by
  have bits := toNat_packComponents s e m
  have boundE : e.toNat < 2 ^ 11 := e.isLt
  have boundM : m.toNat < 2 ^ 52 := m.isLt
  unfold exponentField fractionField
  omega

theorem parts_pack_number {p : UnpackedFloat} (number : p ≠ .notANumber) :
    parts (.ofModel (.pack p)) ≠ .notANumber := by
  intro nan
  have shape : Parts (UnpackedFloat.pack Format.binary64 p).toNat .notANumber :=
    nan ▸ parts_of_bits (.ofModel (.pack p))
  cases shape with
  | notANumber top set =>
    cases p with
    | notANumber => exact number rfl
    | infinity s => exact set (fields_packComponents s _ _).2
    | zero s => exact absurd ((fields_packComponents s _ _).1.symm.trans top) (by decide)
    | finite s m e positive =>
      unfold UnpackedFloat.pack at top set
      dsimp only at top set
      split at top
      · next large =>
        rw [if_pos large] at set
        exact set (fields_packComponents s _ _).2
      · next room =>
        split at top
        · rw [(fields_packComponents s _ _).1, BitVec.toNat_ofNat] at top
          change ¬ 2 ^ 11 ≤ _ at room
          change _ % 2 ^ 11 = _ at top
          omega
        · exact absurd ((fields_packComponents s _ _).1.symm.trans top) (by decide)

theorem number_roundWithAccuracy (spec : Format) (s : UnpackedFloat.Sign) (m : Nat) (e : Int)
    (accuracy : UnpackedFloat.Accuracy) :
    UnpackedFloat.roundWithAccuracy spec s m e accuracy ≠ .notANumber := by
  unfold UnpackedFloat.roundWithAccuracy
  dsimp only
  split <;> nofun

theorem number_normalize (spec : Format) (m e : Int) (s : UnpackedFloat.Sign) :
    UnpackedFloat.normalize spec m e s ≠ .notANumber := by
  unfold UnpackedFloat.normalize
  split
  · exact number_roundWithAccuracy _ _ _ _ _
  · nofun
  · exact number_roundWithAccuracy _ _ _ _ _

end Packing

section Rules
variable {x y : Float} {s : UnpackedFloat.Sign} {p : UnpackedFloat}

theorem parts_result {q : UnpackedFloat} (result : q = p) (special : p.isFinite = false) :
    parts (.ofModel (.pack q)) = p := by
  subst result
  rcases q with s | _ | s | ⟨s, m, e, _⟩ <;> try cases s
  all_goals first | rfl | cases special

theorem parts_add (sum : UnpackedFloat.add Format.binary64 (parts x) (parts y) = p)
    (special : p.isFinite = false) : parts (x + y) = p := parts_result sum special

theorem parts_sub (difference : UnpackedFloat.sub Format.binary64 (parts x) (parts y) = p)
    (special : p.isFinite = false) : parts (x - y) = p := parts_result difference special

theorem nan_add (nan : parts x = .notANumber) (y : Float) : parts (x + y) = .notANumber :=
  parts_add (by rw [nan]; rfl) rfl

theorem add_nan (x : Float) (nan : parts y = .notANumber) : parts (x + y) = .notANumber :=
  parts_add (by rw [nan]; cases parts x <;> rfl) rfl

theorem nan_sub (nan : parts x = .notANumber) (y : Float) : parts (x - y) = .notANumber :=
  parts_sub (by rw [nan]; rfl) rfl

theorem sub_nan (x : Float) (nan : parts y = .notANumber) : parts (x - y) = .notANumber :=
  parts_sub (by rw [nan]; cases parts x <;> rfl) rfl

theorem nan_mul (nan : parts x = .notANumber) (y : Float) : parts (x * y) = .notANumber :=
  parts_result (q := UnpackedFloat.mul Format.binary64 (parts x) (parts y)) (by rw [nan]; rfl) rfl

theorem nan_div (nan : parts x = .notANumber) (y : Float) : parts (x / y) = .notANumber :=
  parts_result (q := UnpackedFloat.div Format.binary64 (parts x) (parts y)) (by rw [nan]; rfl) rfl

theorem sqrt_nan (nan : parts x = .notANumber) : parts x.sqrt = .notANumber :=
  parts_result (q := UnpackedFloat.sqrt Format.binary64 (parts x)) (by rw [nan]; rfl) rfl

theorem infinity_add (infinite : parts x = .infinity s) (number : parts y ≠ .notANumber)
    (fits : parts y ≠ .infinity (-s)) : parts (x + y) = .infinity s := by
  refine parts_add ?_ rfl
  rw [infinite]
  generalize parts y = q at number fits
  rcases q with t | _ | t | ⟨t, m, e, _⟩
  · cases s <;> cases t <;> first | rfl | exact absurd rfl fits
  · exact absurd rfl number
  · rfl
  · rfl

theorem add_comm_number (x y : Float) : x + y = y + x := by
  refine congrArg (fun p => Float.ofModel (.pack p)) (?_ : UnpackedFloat.add Format.binary64
    (parts x) (parts y) = UnpackedFloat.add Format.binary64 (parts y) (parts x))
  rcases parts x with s | _ | s | ⟨s, m, e, _⟩ <;> rcases parts y with t | _ | t | ⟨t, n, f, _⟩
  case infinity.infinity | zero.zero => cases s <;> cases t <;> rfl
  case finite.finite => simp only [UnpackedFloat.add, min_comm, add_comm]
  all_goals rfl

theorem infinity_sub_self (infinite : parts x = .infinity s) (like : parts y = .infinity s) :
    parts (x - y) = .notANumber := by
  refine parts_sub ?_ rfl
  rw [infinite, like]
  cases s <;> rfl

theorem infinity_add_opposite (infinite : parts x = .infinity s)
    (unlike : parts y = .infinity (-s)) : parts (x + y) = .notANumber := by
  refine parts_add ?_ rfl
  rw [infinite, unlike]
  cases s <;> rfl

theorem finite_sub_infinity (finite : (parts x).isFinite = true)
    (infinite : parts y = .infinity s) : parts (x - y) = .infinity (-s) := by
  refine parts_sub ?_ rfl
  rw [infinite]
  cases other : parts x <;> first | rfl | (rw [other] at finite; cases finite)

theorem add_number (numberX : parts x ≠ .notANumber) (numberY : parts y ≠ .notANumber)
    (fitsX : parts x ≠ .infinity s) (fitsY : parts y ≠ .infinity s) :
    parts (x + y) ≠ .notANumber := by
  refine parts_pack_number (p := UnpackedFloat.add Format.binary64 (parts x) (parts y)) ?_
  generalize parts x = p at numberX fitsX
  generalize parts y = q at numberY fitsY
  rcases p with t | _ | t | ⟨t, m, e, _⟩ <;> rcases q with u | _ | u | ⟨u, n, f, _⟩
  case finite.finite => exact number_normalize _ _ _ _
  case infinity.infinity =>
    cases s <;> cases t <;> cases u <;>
      first | exact absurd rfl fitsX | exact absurd rfl fitsY | nofun
  case zero.zero => cases t <;> cases u <;> nofun
  all_goals first | exact absurd rfl numberX | exact absurd rfl numberY | nofun

/-- What an addition of infinities or NaN is said to lose. -/
theorem lost_nan (special : (parts x).isFinite = false ∨ (parts y).isFinite = false) :
    parts ((x - (x + y)) + y) = .notANumber := by
  -- NaN goes through whatever is done to it. An infinity is the sum as well, and the sum is taken
  -- from it, or from the finite number with the infinity added back.
  by_cases nanX : parts x = .notANumber
  · exact nan_add (nan_sub nanX _) _
  by_cases nanY : parts y = .notANumber
  · exact add_nan _ nanY
  cases partsX : parts x with
  | notANumber => exact absurd partsX nanX
  | infinity s =>
    refine nan_add ?_ _
    by_cases opposite : parts y = .infinity (-s)
    · exact sub_nan _ (infinity_add_opposite partsX opposite)
    · exact infinity_sub_self partsX (infinity_add partsX nanY opposite)
  | _ =>
    have finite : (parts x).isFinite = true := by rw [partsX]; rfl
    cases partsY : parts y with
    | infinity s =>
      have sum : parts (x + y) = .infinity s := by
        rw [add_comm_number]
        exact infinity_add partsY nanX (by simp [partsX])
      refine infinity_add_opposite (finite_sub_infinity finite sum) ?_
      rw [partsY]
      cases s <;> rfl
    | notANumber => exact absurd partsY nanY
    | _ => simp [partsX, partsY, UnpackedFloat.isFinite] at special

end Rules

namespace CompensatedSum

variable {s : CompensatedSum} {x : Float} {xs : List Float}

theorem compensation_add_special
    (special : (parts s.sum).isFinite = false ∨ (parts x).isFinite = false) :
    parts (s.add x).compensation = .notANumber := by
  refine add_nan _ ?_
  split
  · exact lost_nan special
  · rw [add_comm_number s.sum x]
    exact lost_nan special.symm

/-- The compensation of a sum with a number that is not finite is NaN, wherever that stands. -/
theorem compensation_foldl (special : parts s.compensation = .notANumber ∨
    ∃ x ∈ xs, (parts x).isFinite = false) :
    parts (xs.foldl add s).compensation = .notANumber := by
  induction xs generalizing s with
  | nil => exact special.resolve_right nofun
  | cons x xs ih =>
    refine ih ?_
    rcases special with nan | ⟨y, member, special⟩
    · exact .inl (nan_add nan _)
    · rcases List.mem_cons.1 member with rfl | later
      · exact .inl (compensation_add_special (.inr special))
      · exact .inr ⟨y, later, special⟩

theorem sum_foldl (xs : List Float) (s : CompensatedSum) :
    (xs.foldl add s).sum = xs.foldl (· + ·) s.sum := by
  induction xs generalizing s with
  | nil => rfl
  | cons x xs ih => exact ih (s.add x)

end CompensatedSum

theorem foldl_add_infinity {s : UnpackedFloat.Sign} {xs : List Float} {start : Float}
    (numbers : ∀ y ∈ xs, parts y ≠ .notANumber ∧ parts y ≠ .infinity (-s))
    (room : ∀ before, before <+: xs → parts (before.foldl (· + ·) start) ≠ .infinity (-s))
    (number : parts start ≠ .notANumber)
    (reached : parts start = .infinity s ∨ ∃ y ∈ xs, parts y = .infinity s) :
    parts (xs.foldl (· + ·) start) = .infinity s := by
  induction xs generalizing start with
  | nil => exact reached.resolve_right nofun
  | cons y ys ih =>
    obtain ⟨⟨numberY, fitsY⟩, later⟩ := List.forall_mem_cons.1 numbers
    have fits : parts start ≠ .infinity (-s) := room [] List.nil_prefix
    refine ih later (fun before front => room (y :: before) (List.cons_prefix_cons.2 ⟨rfl, front⟩))
      (add_number number numberY fits fitsY) ?_
    rcases reached with infinite | ⟨z, member, infinite⟩
    · exact .inl (infinity_add infinite numberY fitsY)
    · rcases List.mem_cons.1 member with rfl | inside
      · exact .inl ((congrArg parts (add_comm_number start z)).trans
          (infinity_add infinite number fits))
      · exact .inr ⟨z, inside, infinite⟩

theorem eq_nan {x : Float} (nan : parts x = .notANumber) : x = 0 / 0 :=
  parts_injective (nan.trans rfl)

namespace Statistics

variable {xs : List Float}

theorem sum_nan (special : ∃ x ∈ xs, (parts x).isFinite = false) : parts (sum xs) = .notANumber :=
  add_nan _ (CompensatedSum.compensation_foldl (.inr special))

theorem mean_nan (special : ∃ x ∈ xs, (parts x).isFinite = false) :
    ∃ r, mean xs = .ok r ∧ parts r = .notANumber := by
  obtain ⟨x, member, _⟩ := id special
  have filled : ¬ xs.isEmpty = true := by simpa using List.ne_nil_of_mem member
  exact ⟨_, if_neg filled, nan_div (sum_nan special) _⟩

theorem variance_nan (special : ∃ x ∈ xs, (parts x).isFinite = false) :
    ∃ r, variance xs = .ok r ∧ parts r = .notANumber := by
  obtain ⟨center, found, nan⟩ := mean_nan special
  obtain ⟨x, member, _⟩ := special
  have square : parts ((x - center) * (x - center)) = .notANumber := nan_mul (sub_nan x nan) _
  rw [variance, found]
  exact ⟨_, rfl, nan_div (sum_nan ⟨_, List.mem_map_of_mem member, by rw [square]; rfl⟩) _⟩

theorem apply_nan (f : Statistic) (special : ∃ x ∈ xs, (parts x).isFinite = false) :
    ∃ r, f.apply xs = .ok r ∧ parts r = .notANumber := by
  cases f with
  | sum => exact ⟨_, rfl, sum_nan special⟩
  | mean => exact mean_nan special
  | variance => exact variance_nan special
  | deviation =>
    obtain ⟨r, found, nan⟩ := variance_nan special
    rw [Statistic.apply, deviation, found]
    exact ⟨_, rfl, sqrt_nan nan⟩
  | error =>
    obtain ⟨r, found, nan⟩ := variance_nan special
    rw [Statistic.apply, Statistics.error, found]
    exact ⟨_, rfl, sqrt_nan (nan_div nan _)⟩

end Statistics

/-- Sums lose infinities. Where a number of a vector is not finite, its sum and with it all
statistics are NaN. The running sum is the one of plain addition, which for an infinity, without NaN
and the opposite infinity among the numbers or the sums before, is that infinity. -/
theorem Statistics.nan_of_infinite {xs : List Float} {x : Float} (member : x ∈ xs)
    (special : x.isFinite = false) :
    (∀ f : Statistic, Builtin.call (.statistic f) [] (.vector (xs.map .number)) =
      .ok (.number (0 / 0))) ∧
    (CompensatedSum.ofList xs).sum = xs.foldl (· + ·) 0 ∧
    (x.isInf = true → (∀ y ∈ xs, y.isNaN = false ∧ y ≠ -x) →
      (∀ before, before <+: xs → before.foldl (· + ·) 0 ≠ -x) → xs.foldl (· + ·) 0 = x) := by
  refine ⟨fun f => ?_, CompensatedSum.sum_foldl xs .zero, fun infinite numbers room => ?_⟩
  · obtain ⟨r, found, nan⟩ := apply_nan f ⟨x, member, special⟩
    rw [Builtin.call, numbers_map, ← eq_nan nan]
    exact congrArg (· >>= fun r => pure (Value.number r)) found
  · obtain ⟨s, partsX⟩ := isInf_iff.1 infinite
    have opposite {y : Float} : parts y = .infinity (-s) ↔ y = -x := by
      rw [← UnpackedFloat.neg, ← partsX, ← parts_neg]
      exact ⟨parts_injective, congrArg parts⟩
    have zero : parts 0 = .zero .positive := rfl
    have sum : parts (xs.foldl (· + ·) 0) = .infinity s := by
      refine foldl_add_infinity (fun y inside => ?_) (fun before front => ?_) (by simp [zero])
        (.inr ⟨x, member, partsX⟩)
      · exact ⟨mt isNaN_iff.2 (Bool.eq_false_iff.1 (numbers y inside).1),
          mt opposite.1 (numbers y inside).2⟩
      · exact mt opposite.1 (room before front)
    exact parts_injective (sum.trans partsX.symm)

/-- An infinity after a number: plain addition finds it, the sum and the mean do not. -/
theorem Statistics.nan_of_infinite_second :
    let xs : List Float := [2, 1 / 0, -3]
    let x : Float := 1 / 0
    x ∈ xs ∧ x.isFinite = false ∧ x.isInf = true ∧ (∀ y ∈ xs, y.isNaN = false ∧ y ≠ -x) ∧
      (∀ before, before <+: xs → before.foldl (· + ·) 0 ≠ -x) ∧
      Builtin.call (.statistic .sum) [] (.vector (xs.map .number)) = .ok (.number (0 / 0)) ∧
      Builtin.call (.statistic .mean) [] (.vector (xs.map .number)) = .ok (.number (0 / 0)) ∧
      xs.foldl (· + ·) 0 = x := by
  intro xs x
  have member : x ∈ xs := List.mem_cons_of_mem _ List.mem_cons_self
  have special : x.isFinite = false := by decide
  have infinite : x.isInf = true := by decide
  have numbers : ∀ y ∈ xs, y.isNaN = false ∧ y ≠ -x := by decide
  have fronts : ∀ before ∈ xs.inits, before.foldl (· + ·) 0 ≠ -x := by decide
  have room (before : List Float) (front : before <+: xs) : before.foldl (· + ·) 0 ≠ -x :=
    fronts before ((List.mem_inits before xs).2 front)
  obtain ⟨statistics, _, plain⟩ := nan_of_infinite member special
  exact ⟨member, special, infinite, numbers, room, statistics .sum, statistics .mean,
    plain infinite numbers room⟩

end Formula
