import Formula.Indexing.Steps
import Formula.Prelude
import Formula.Proofs.Differences

/-! Elements by their numbers. A number between one and the length of a vector has nothing behind the
point exactly if it is an integer, and is then converted to that integer. Main statement: an element is
found under its number as a rational number and nothing under any other double, and no step fails. -/
namespace Formula

open Float.Model

section Truncation

variable {x : Float} {a : ℚ}

theorem isNegative_iff : isNegative x = true ↔ signField x.toBits.toNat = .negative := by
  rw [isNegative, Nat.testBit_eq_decide_div_mod_eq, decide_eq_true_iff, signField]
  split <;> simp_all

theorem exists_dyadic (rational : rational? x = some a) : ∃ (s : UnpackedFloat.Sign) (m : Nat) (e : Int),
    Dyadic.ofFloat x = ⟨m, e⟩ ∧ (isNegative x = true ↔ s = .negative) ∧ m < 2 ^ 53 ∧
      a = s.apply m * 2 ^ e := by
  have shape := parts_of_bits x
  have denotes := rational?_eq_some_iff.1 rational
  have low : fractionField x.toBits.toNat < 2 ^ 52 := Nat.mod_lt _ (by decide)
  refine ⟨signField x.toBits.toNat, ?_⟩
  rw [Dyadic.ofFloat_fields, isNegative_iff]
  generalize x.toBits.toNat = bits at *
  generalize parts x = p at *
  cases shape with
  | infinity | notANumber => cases denotes
  | zero field fraction =>
    cases denotes
    refine ⟨_, _, if_pos field, Iff.rfl, by omega, ?_⟩
    rw [fraction, apply_cast]
    simp
  | subnormal field positive =>
    cases denotes
    exact ⟨_, _, if_pos field, Iff.rfl, by omega, rfl⟩
  | normal lowest highest positive =>
    cases denotes
    exact ⟨_, _, if_neg lowest.ne', Iff.rfl, by omega, rfl⟩

theorem floor_dyadic (m : Nat) (e : Int) :
    ⌊(m : ℚ) * 2 ^ e⌋₊ = m * 2 ^ e.toNat / 2 ^ (-e).toNat := by
  have quotient : (m : ℚ) * 2 ^ e = (m * 2 ^ e.toNat : Nat) / (2 ^ (-e).toNat : Nat) := by
    rcases le_total 0 e with whole | fraction
    · obtain ⟨k, rfl⟩ := Int.eq_ofNat_of_zero_le whole
      simp
    · obtain ⟨k, rfl⟩ : ∃ k : Nat, e = -k := ⟨(-e).toNat, by omega⟩
      simp [div_eq_mul_inv]
  rw [quotient, Nat.floor_div_eq_div]

theorem rational?_truncate (rational : rational? x = some a) :
    rational? (truncate x) = some ((if 0 ≤ a then ⌊a⌋ else ⌈a⌉ : Int) : ℚ) := by
  obtain ⟨s, m, e, dyadic, sign, small, value⟩ := exists_dyadic rational
  have whole : rational? (truncate x) = some ((s.apply ⌊(m : ℚ) * 2 ^ e⌋₊ : Int) : ℚ) := by
    unfold truncate
    simp only [dyadic]
    by_cases integral : 0 ≤ e
    · obtain ⟨k, rfl⟩ := Int.eq_ofNat_of_zero_le integral
      rw [if_pos integral, rational, value, floor_dyadic, apply_cast, apply_cast s (_ / _ : Nat)]
      simp [mul_assoc]
    · have none : e.toNat = 0 := by omega
      have bound : m >>> (-e).toNat < 2 ^ 53 := (Nat.shiftRight_le _ _).trans_lt small
      rw [if_neg integral, floor_dyadic, none, Nat.pow_zero, Nat.mul_one,
        ← Nat.shiftRight_eq_div_pow]
      cases s with
      | positive =>
        rw [if_neg (mt sign.1 nofun), rational?_ofNat bound, apply_positive]
      | negative =>
        rw [if_pos (sign.2 rfl), rational?_neg, rational?_ofNat bound, apply_negative]
        rfl
  have natural : (0 : ℚ) ≤ m * 2 ^ e := by positivity
  rw [whole]
  refine congrArg (fun k : Int => some (k : ℚ)) ?_
  cases s with
  | positive =>
    rw [apply_positive] at value
    rw [if_pos (value ▸ natural), value, ← Int.natCast_floor_eq_floor natural]
    rfl
  | negative =>
    rw [apply_negative, neg_mul] at value
    have ceil : -(⌊(m : ℚ) * 2 ^ e⌋₊ : Int) = ⌈a⌉ := by
      rw [value, Int.ceil_neg, Int.natCast_floor_eq_floor natural]
    split
    · next upward =>
      have zero : a = 0 := le_antisymm (value ▸ neg_nonpos.2 natural) upward
      have same : ⌈a⌉ = ⌊a⌋ := by rw [zero, Int.ceil_zero, Int.floor_zero]
      exact ceil.trans same
    · exact ceil

theorem toUInt64_eq_floor (rational : rational? x = some a) (natural : 0 ≤ a) (small : a < 2 ^ 64) :
    x.toUInt64.toNat = ⌊a⌋₊ := by
  have size : ⌊a⌋₊ < 2 ^ 64 := (Nat.floor_lt natural).2 (by exact_mod_cast small)
  have converted : ((parts x).toInt 0 (UInt64.size - 1)).toNat = ⌊a⌋₊ := by
    have denotes := rational?_eq_some_iff.1 rational
    generalize parts x = p at denotes
    cases denotes with
    | zero s => rw [Nat.floor_zero]; rfl
    | @finite s m e positive canonical high =>
      cases s with
      | positive =>
        have shifted : UnpackedFloat.roundToInt .positive m e =
            ((⟨m <<< (e - 0).toNat, false, false⟩ : UnpackedFloat.ExtendedMantissa) >>>
              (0 - (e - (e - 0).toNat)).toNat).mantissa := rfl
        have amount : (0 - (e - (e - 0).toNat)).toNat = (-e).toNat := by omega
        rw [apply_positive, floor_dyadic]
        change (UnpackedFloat.roundToInt .positive m e).toNat = _
        rw [shifted, shift_mantissa, amount, Nat.shiftLeft_eq, sub_zero]
        exact Int.toNat_natCast _
      | negative =>
        rw [apply_negative, neg_mul, neg_nonneg] at natural
        have above : (0 : ℚ) < m * 2 ^ e := by positivity
        exact absurd natural above.not_ge
  have clamped : x.toUInt64 = .ofNatClamp ((parts x).toInt 0 (UInt64.size - 1)).toNat := rfl
  rw [clamped, converted, UInt64.ofNatClamp_eq_ofNat _ size]
  exact UInt64.toNat_ofNat_of_lt size

theorem toUInt64_natural {n : Nat} (natural : rational? x = some (n : ℚ)) (small : n < 2 ^ 53) :
    x.toUInt64.toNat = n := by
  rw [toUInt64_eq_floor natural (Nat.cast_nonneg n) (by exact_mod_cast small.trans (by decide)),
    Nat.floor_natCast]

end Truncation

theorem fraction_special {x : Float} (special : rational? x = none) :
    parts (fraction x) = .notANumber := by
  have shape := parts_of_bits x
  have highest : exponentField x.toBits.toNat = 2047 := by
    unfold rational? at special
    generalize parts x = p at *
    cases shape with
    | infinity top clear | notANumber top set => exact top
    | zero | subnormal | normal => cases special
  have whole : truncate x = x := by
    unfold truncate
    rw [Dyadic.ofFloat_fields, highest]
    rfl
  unfold fraction
  rw [whole]
  unfold rational? at special
  rcases found : parts x with s | _ | s | ⟨s, m, e, positive⟩
  · exact infinity_sub_self found found
  · exact nan_sub found x
  · rw [found] at special
    cases special
  · rw [found] at special
    cases special

theorem fraction_beq_zero_iff {x : Float} :
    (fraction x == 0) = true ↔ ∃ k : Int, rational? x = some (k : ℚ) := by
  unfold fraction
  cases rational : rational? x with
  | none =>
    have nan : ¬ IsZero (fraction x) := by
      rintro ⟨s, zero⟩
      rw [fraction_special rational] at zero
      cases zero
    rw [beq_zero_iff]
    exact ⟨fun zero => absurd zero nan, nofun⟩
  | some a =>
    rw [sub_beq_zero_iff rational (rational?_truncate rational)]
    constructor
    · exact fun same => ⟨_, congrArg some same⟩
    · rintro ⟨k, ⟨⟩⟩
      rw [Int.floor_intCast, Int.ceil_intCast, ite_self]

namespace Indexing

variable {i : Float} {length k : Nat}

/-- An element is found exactly under its number, counted from one. -/
theorem offset?_eq_some_iff (small : length < 2 ^ 53) :
    offset? i length = some k ↔ k < length ∧ rational? i = some ((k + 1 : Nat) : ℚ) := by
  have last := rational?_ofNat small
  unfold offset?
  simp only [Option.ite_none_right_eq_some, Bool.and_eq_true, decide_eq_true_eq, Option.some.injEq]
  constructor
  · rintro ⟨⟨⟨above, below⟩, kept⟩, offset⟩
    obtain ⟨a, rational⟩ := rational?_of_between rational?_one last above below
    rw [le_iff_rational rational?_one rational] at above
    rw [le_iff_rational rational last] at below
    have bound : a < 2 ^ 53 := below.trans_lt (by exact_mod_cast small)
    have floor := toUInt64_eq_floor rational (zero_le_one.trans above) (bound.trans (by norm_num))
    have room : ⌊a⌋₊ < 2 ^ 53 :=
      (Nat.floor_lt (zero_le_one.trans above)).2 (by exact_mod_cast bound)
    rw [floor, beq_iff_rational (rational?_ofNat room) rational] at kept
    have positive : 1 ≤ ⌊a⌋₊ := (Nat.one_le_floor_iff a).2 above
    have number : ⌊a⌋₊ = k + 1 := by omega
    rw [number] at kept
    rw [← kept] at below
    exact ⟨by exact_mod_cast below, by rw [rational, kept]⟩
  · rintro ⟨bound, number⟩
    have word := toUInt64_natural number (by omega)
    rw [le_iff_rational rational?_one number, le_iff_rational number last, word,
      beq_iff_rational (rational?_ofNat (by omega)) number]
    exact ⟨⟨⟨by exact_mod_cast Nat.le_add_left 1 k, by exact_mod_cast bound⟩, rfl⟩, rfl⟩

/-- The steps find what is found at once, and none of them fails. -/
theorem offsetBySteps?_eq (small : length < 2 ^ 53) :
    offsetBySteps? i length = some (offset? i length) := by
  have last := rational?_ofNat small
  have missing (absent : ∀ k < length, rational? i ≠ some ((k + 1 : Nat) : ℚ)) :
      offset? i length = none :=
    Option.eq_none_iff_forall_ne_some.2 fun k found =>
      have ⟨bound, number⟩ := (offset?_eq_some_iff small).1 found
      absent k bound number
  unfold offsetBySteps?
  by_cases whole : ∃ k : Int, rational? i = some (k : ℚ)
  · obtain ⟨k, number⟩ := whole
    have behind : (fraction i != 0) = false := by
      rw [bne, fraction_beq_zero_iff.2 ⟨k, number⟩]
      rfl
    have guards : (fraction i != 0 || i < 1 || Float.ofNat length < i) = true ↔ k < 1 ∨ length < k := by
      rw [behind, Bool.false_or, Bool.or_eq_true, decide_eq_true_iff, decide_eq_true_iff,
        lt_iff_rational number rational?_one, lt_iff_rational last number]
      exact_mod_cast Iff.rfl
    by_cases out : k < 1 ∨ length < k
    · rw [if_pos (guards.2 out), missing fun n bound same => ?_]
      have equal : k = (n + 1 : Nat) := by exact_mod_cast Option.some.inj (number.symm.trans same)
      omega
    · obtain ⟨n, rfl⟩ : ∃ n : Nat, k = (n + 1 : Nat) := ⟨(k - 1).toNat, by omega⟩
      rw [Int.cast_natCast] at number
      rw [if_neg (mt guards.1 out), toUInt64_natural number (by omega),
        (offset?_eq_some_iff small).2 ⟨by omega, number⟩]
  · have behind : (fraction i != 0) = true := by
      rw [bne, Bool.eq_false_iff.2 (mt fraction_beq_zero_iff.1 whole)]
      rfl
    rw [behind, missing fun k _ number => whole ⟨(k + 1 : Nat), by exact_mod_cast number⟩]
    rfl

/-- What a value has under an index: a vector has the element with the number that the index is, counted
from one. Otherwise something is wrong with the operands, and the one that should be a vector is blamed
first. -/
inductive Indexes : Value → Value → Except Fault Value → Prop where
  | element {elems : List Value} {i : Float} {k : Nat} {elem : Value} (low : 1 ≤ k)
      (high : k ≤ elems.length) (number : rational? i = some (k : ℚ))
      (named : elems[k - 1]? = some elem) : Indexes (.vector elems) (.number i) (.ok elem)
  | outOfRange {elems : List Value} {i : Float}
      (absent : ∀ k, 1 ≤ k → k ≤ elems.length → rational? i ≠ some (k : ℚ)) :
    Indexes (.vector elems) (.number i) (.error (.of .indexOutOfRange))
  | noNumber {elems : List Value} {index : Value} (other : index.kind ≠ .number) :
    Indexes (.vector elems) index (.error (.mistyped (.just .number) index.kind))
  | noVector {x index : Value} (other : x.kind ≠ .vector) :
    Indexes x index (.error (.mistyped (.just .vector) x.kind))

variable {x index : Value} {first second : Except Fault Value}

theorem Indexes.unique (left : Indexes x index first) (right : Indexes x index second) :
    first = second := by
  cases left with
  | element low high number named =>
    cases right with
    | element _ _ number' named' =>
      have same := Option.some.inj (number.symm.trans number')
      rw [Nat.cast_inj] at same
      subst same
      exact congrArg _ (Option.some.inj (named.symm.trans named'))
    | outOfRange absent => exact absurd number (absent _ low high)
    | noNumber other | noVector other => exact absurd rfl other
  | outOfRange absent =>
    cases right with
    | element low high number => exact absurd number (absent _ low high)
    | outOfRange => rfl
    | noNumber other | noVector other => exact absurd rfl other
  | noNumber other =>
    cases right with
    | element | outOfRange => exact absurd rfl other
    | noNumber => rfl
    | noVector other => exact absurd rfl other
  | noVector other =>
    cases right with
    | element | outOfRange | noNumber => exact absurd rfl other
    | noVector => rfl

theorem get_vector (elems : List Value) (i : Float) : get (.vector elems) (.number i) =
    match (offset? i elems.length).bind (elems[·]?) with
    | some elem => .ok elem
    | none => .error (.of .indexOutOfRange) := rfl

/-- Both ways to the element come to the same, and to what should come. -/
theorem indexes_get (index : Value) (small : ∀ elems, x = .vector elems → elems.length < 2 ^ 53) :
    Indexes x index (get x index) ∧ getBySteps? x index = some (get x index) := by
  cases x with
  | vector elems =>
    have room := small elems rfl
    cases index with
    | number i =>
      have steps := offsetBySteps?_eq (i := i) room
      cases found : offset? i elems.length with
      | none =>
        have got : get (.vector elems) (.number i) = .error (.of .indexOutOfRange) := by
          rw [get_vector, found]
          rfl
        refine ⟨got ▸ .outOfRange fun k low high number => ?_, ?_⟩
        · obtain ⟨k, rfl⟩ := Nat.exists_eq_add_of_le' low
          rw [(offset?_eq_some_iff room).2 ⟨high, number⟩] at found
          cases found
        · simp only [getBySteps?, elements, steps, found, got]
      | some k =>
        obtain ⟨bound, number⟩ := (offset?_eq_some_iff room).1 found
        have named : elems[k]? = some elems[k] := List.getElem?_eq_getElem bound
        have got : get (.vector elems) (.number i) = .ok elems[k] := by
          rw [get_vector, found, Option.bind_some, named]
        refine ⟨got ▸ .element (Nat.le_add_left 1 k) bound number named, ?_⟩
        simp only [getBySteps?, elements, steps, found, got, named]
        rfl
    | string | bool | function | vector => exact ⟨.noNumber (by rintro ⟨⟩), rfl⟩
  | number | string | bool | function => exact ⟨.noVector (by rintro ⟨⟩), rfl⟩

end Indexing

/-- The predefined `!` is exact. A vector and an index give the element with the number that the index
is, and there is no element for any other double; operands of other types are refused, the one that
should be a vector first. The steps to the element come to the same, and so neither counting down nor
looking up fails. -/
theorem Builtin.index_exact (x index : Value) (result : Except Fault Value)
    (small : ∀ elems, x = .vector elems → elems.length < 2 ^ 53) :
    Prelude.lookup? "!" = some (.function (.builtin .index) []) ∧
      Builtin.index.call [] x = .ok (.function (.builtin .index) [x]) ∧
      (Builtin.index.call [x] index = result ↔ Indexing.Indexes x index result) ∧
      Indexing.getBySteps? x index = some (Builtin.index.call [x] index) := by
  obtain ⟨indexes, steps⟩ := Indexing.indexes_get index small
  exact ⟨rfl, rfl, ⟨fun same => same ▸ indexes, indexes.unique⟩, steps⟩

/-- Two elements have a second one and none that NaN names. -/
theorem Builtin.index_exact_second :
    Builtin.index.call [.vector [.string "a", .string "b"]] (.number 2) = .ok (.string "b") ∧
      Builtin.index.call [.vector [.string "a", .string "b"]] (.number (0 / 0)) =
        .error (.of .indexOutOfRange) := by
  have small : ∀ elems, Value.vector [.string "a", .string "b"] = .vector elems →
      elems.length < 2 ^ 53 := by
    rintro _ ⟨⟩
    decide
  have two : rational? 2 = some ((2 : Nat) : ℚ) := rational?_ofNat (by decide)
  have nan : rational? (0 / 0) = none := rfl
  refine ⟨(Builtin.index_exact _ _ _ small).2.2.1.2 (.element (by decide) (by decide) two rfl),
    (Builtin.index_exact _ _ _ small).2.2.1.2 (.outOfRange fun k _ _ => ?_)⟩
  rw [nan]
  nofun

end Formula
