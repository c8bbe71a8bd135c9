import Formula.Numeral
import Formula.Proofs.Doubles

/-! Numbers without a sign. Rounding, adding, multiplying and dividing make no sign where there was
none, so that no numeral denotes a negative number or the negative zero. -/
namespace Formula

open Float.Model

/-- NaN, or the positive sign. -/
def Unsigned : UnpackedFloat → Prop
  | .notANumber => True
  | .infinity s | .zero s | .finite s _ _ _ => s = .positive

section Parts

variable {p q : UnpackedFloat}

theorem unsigned_roundWithAccuracy (spec : Format) (m : Nat) (e : Int)
    (accuracy : UnpackedFloat.Accuracy) :
    Unsigned (UnpackedFloat.roundWithAccuracy spec .positive m e accuracy) := by
  unfold UnpackedFloat.roundWithAccuracy
  dsimp only
  split <;> rfl

theorem unsigned_normalize (spec : Format) {m : Int} (e : Int) (positive : 0 ≤ m) :
    Unsigned (UnpackedFloat.normalize spec m e .positive) := by
  unfold UnpackedFloat.normalize
  split
  · next negative => exact absurd (Int.compare_eq_lt.1 negative) (by omega)
  · rfl
  · exact unsigned_roundWithAccuracy _ _ _ _

theorem unsigned_ofNat (spec : Format) (n : Nat) : Unsigned (UnpackedFloat.ofNat spec n) :=
  unsigned_normalize spec 0 (Int.natCast_nonneg n)

theorem Unsigned.mul (spec : Format) (left : Unsigned p) (right : Unsigned q) :
    Unsigned (UnpackedFloat.mul spec p q) := by
  rcases p with s | _ | s | ⟨s, m, e, _⟩ <;> rcases q with t | _ | t | ⟨t, n, f, _⟩ <;>
    (try cases left) <;> (try cases right) <;>
    first | trivial | rfl | exact unsigned_roundWithAccuracy _ _ _ _

theorem Unsigned.div (spec : Format) (left : Unsigned p) (right : Unsigned q) :
    Unsigned (UnpackedFloat.div spec p q) := by
  rcases p with s | _ | s | ⟨s, m, e, _⟩ <;> rcases q with t | _ | t | ⟨t, n, f, _⟩ <;>
    (try cases left) <;> (try cases right) <;>
    first | trivial | rfl | exact unsigned_roundWithAccuracy _ _ _ _

theorem Unsigned.add (spec : Format) (left : Unsigned p) (right : Unsigned q) :
    Unsigned (UnpackedFloat.add spec p q) := by
  rcases p with s | _ | s | ⟨s, m, e, _⟩ <;> rcases q with t | _ | t | ⟨t, n, f, _⟩ <;>
    (try cases left) <;> (try cases right) <;>
    first
    | trivial
    | rfl
    | exact unsigned_normalize _ _ (Int.add_nonneg (Int.natCast_nonneg _) (Int.natCast_nonneg _))

theorem unsigned_ofScientific (spec : Format) (m : Nat) (e : Int) :
    Unsigned (UnpackedFloat.ofScientific spec m e) := by
  unfold UnpackedFloat.ofScientific
  split
  · rfl
  split
  · rfl
  split
  · rfl
  split
  · exact .mul _ rfl rfl
  · exact .div _ rfl rfl

end Parts

theorem Parts.unsigned {bits : Nat} {p : UnpackedFloat} (shape : Parts bits p)
    (positive : bits / 2 ^ 63 % 2 = 0) : Unsigned p := by
  have sign : signField bits = .positive := if_neg (by omega)
  cases shape <;> trivial

theorem isNegative_eq_false_iff {x : Float} :
    isNegative x = false ↔ x.toBits.toNat / 2 ^ 63 % 2 = 0 := by
  rw [isNegative, Nat.testBit_eq_decide_div_mod_eq, decide_eq_false_iff_not]
  omega

theorem parts_unsigned {x : Float} (positive : isNegative x = false) : Unsigned (parts x) :=
  (parts_of_bits x).unsigned (isNegative_eq_false_iff.1 positive)

theorem packComponents_positive_lt (e : BitVec 11) (m : BitVec 52) :
    (UnpackedFloat.packComponents Format.binary64 .positive e m).toNat < 2 ^ 63 := by
  change ((0#1 ++ e) ++ m).toNat < 2 ^ 63
  have low : (0#1 ++ e).toNat < 2 ^ 11 := by
    rw [BitVec.toNat_append]
    simpa using e.isLt
  rw [BitVec.toNat_append, ← Nat.shiftLeft_add_eq_or_of_lt m.isLt, Nat.shiftLeft_eq]
  have := m.isLt
  omega

theorem pack_lt {p : UnpackedFloat} (unsigned : Unsigned p) :
    (UnpackedFloat.pack Format.binary64 p).toNat < 2 ^ 63 := by
  rcases p with s | _ | s | ⟨s, m, e, _⟩
  · cases unsigned
    exact packComponents_positive_lt _ _
  · exact packComponents_positive_lt _ _
  · cases unsigned
    exact packComponents_positive_lt _ _
  · cases unsigned
    unfold UnpackedFloat.pack
    dsimp only
    split
    · exact packComponents_positive_lt _ _
    split <;> exact packComponents_positive_lt _ _

theorem isNegative_pack {p : UnpackedFloat} (unsigned : Unsigned p) :
    isNegative (.ofModel (.pack p)) = false := by
  have bound := pack_lt unsigned
  rw [isNegative_eq_false_iff]
  change (UnpackedFloat.pack Format.binary64 p).toNat / 2 ^ 63 % 2 = 0
  omega

theorem isNegative_mul {x y : Float} (left : isNegative x = false) (right : isNegative y = false) :
    isNegative (x * y) = false :=
  isNegative_pack (.mul _ (parts_unsigned left) (parts_unsigned right))

theorem isNegative_div {x y : Float} (left : isNegative x = false) (right : isNegative y = false) :
    isNegative (x / y) = false :=
  isNegative_pack (.div _ (parts_unsigned left) (parts_unsigned right))

theorem isNegative_add {x y : Float} (left : isNegative x = false) (right : isNegative y = false) :
    isNegative (x + y) = false :=
  isNegative_pack (.add _ (parts_unsigned left) (parts_unsigned right))

theorem isNegative_toFloat (n : UInt64) : isNegative n.toFloat = false :=
  isNegative_pack (unsigned_ofNat _ _)

theorem isNegative_powerOfTen :
    ∀ e : Fin 23, isNegative (Float.exactlyRepresentablePowersOfTen[e]) = false := by
  decide

theorem isNegative_ofScientific (m : Nat) (s : Bool) (e : Nat) :
    isNegative (Float.ofScientific m s e) = false := by
  unfold Float.ofScientific
  split
  · next small =>
    have power := isNegative_powerOfTen ⟨e, by omega⟩
    dsimp only
    split
    · exact isNegative_div (isNegative_toFloat _) power
    · exact isNegative_mul (isNegative_toFloat _) power
  · exact isNegative_pack (unsigned_ofScientific _ _ _)

theorem isNegative_ofNat (n : Nat) : isNegative (Float.ofNat n) = false :=
  isNegative_ofScientific n false 0

theorem Decimal.isNegative_toFloat (d : Decimal) : isNegative d.toFloat = false :=
  isNegative_pack (unsigned_ofScientific _ _ _)

theorem Numeral.isNegative_radixValue (radix : Nat) (digits : List Char) :
    isNegative (radixValue radix digits) = false := by
  have step (x : Float) (start : isNegative x = false) : isNegative (digits.foldl
      (fun x c => x * Float.ofNat radix + Float.ofNat (digitValue c)) x) = false := by
    induction digits generalizing x with
    | nil => exact start
    | cons c digits ih =>
      exact ih _ (isNegative_add (isNegative_mul start (isNegative_ofNat _)) (isNegative_ofNat _))
  exact step 0 (isNegative_ofNat 0)

/-- A numeral denotes no negative number, the negative zero included. -/
theorem Numeral.isNegative_value? {cs : List Char} {x : Float} (found : value? cs = some x) :
    isNegative x = false := by
  unfold value? at found
  split at found
  · cases found
    exact isNegative_radixValue _ _
  split at found
  · cases found
    exact isNegative_radixValue _ _
  · obtain ⟨d, _, rfl⟩ := Option.map_eq_some_iff.1 found
    exact d.isNegative_toFloat

theorem eq_of_sameNumber {x y : Float} (positiveX : isNegative x = false)
    (positiveY : isNegative y = false) (same : sameNumber x y = true) : x = y := by
  rcases sameNumber_iff.1 same with equal | ⟨⟨s, zeroX⟩, ⟨t, zeroY⟩⟩
  · exact equal
  · have signX := parts_unsigned positiveX
    have signY := parts_unsigned positiveY
    rw [zeroX] at signX
    rw [zeroY] at signY
    refine parts_injective ?_
    rw [zeroX, zeroY, show s = .positive from signX, show t = .positive from signY]

end Formula
