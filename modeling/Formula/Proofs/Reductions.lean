import Formula.Builtin.Call
import Formula.Prelude
import Mathlib

/-! What the predefined reductions of vectors of numbers refuse. Main statement: they all refuse the
same values with the same error, whether they look at one element after the other or at all of them
first; of what they take, the empty vector is refused by the statistics that divide by the count. -/
namespace Formula

/-- What a reduction says of a value that it does not take: what it is ready for and what it finds,
in a vector at the first element that is no number. -/
inductive Refused : Value → Expected → Kind → Prop where
  | scalar {x : Value} (scalar : x.kind ≠ .vector) : Refused x (.just .vector) x.kind
  | element {numbers : List Float} {other : Value} {rest : List Value}
      (different : other.kind ≠ .number) :
    Refused (.vector (numbers.map .number ++ other :: rest)) (.just .number) other.kind

theorem numbers_or_other (elems : List Value) : (∃ xs : List Float, elems = xs.map .number) ∨
    ∃ (xs : List Float) (other : Value) (rest : List Value), other.kind ≠ .number ∧
      elems = xs.map .number ++ other :: rest := by
  induction elems with
  | nil => exact .inl ⟨[], rfl⟩
  | cons v vs ih =>
    cases v with
    | number x =>
      rcases ih with ⟨xs, rfl⟩ | ⟨xs, other, rest, different, rfl⟩
      · exact .inl ⟨x :: xs, rfl⟩
      · exact .inr ⟨x :: xs, other, rest, different, rfl⟩
    | _ =>
      refine .inr ⟨[], _, vs, ?_, rfl⟩
      nofun

theorem refused_or_numbers (x : Value) : (∃ expected actual, Refused x expected actual) ∨
    ∃ xs : List Float, x = .vector (xs.map .number) := by
  cases x with
  | vector elems =>
    rcases numbers_or_other elems with ⟨xs, rfl⟩ | ⟨xs, other, rest, different, rfl⟩
    · exact .inr ⟨xs, rfl⟩
    · exact .inl ⟨_, _, .element different⟩
  | _ => exact .inl ⟨_, _, .scalar nofun⟩

namespace Statistics

theorem numbers_append (xs : List Float) (rest : List Value) :
    numbers (.vector (xs.map .number ++ rest)) =
      (numbers (.vector rest)).map (xs ++ ·) := by
  induction xs with
  | nil => exact (id_map (numbers (.vector rest))).symm
  | cons x xs ih =>
    have first (elems : List Value) : numbers (.vector (.number x :: elems)) =
        do return x :: (← numbers (.vector elems)) := by
      dsimp only [numbers]
      rw [List.mapM_cons]
      rfl
    rw [List.map_cons, List.cons_append, first, ih]
    cases numbers (.vector rest) <;> rfl

theorem numbers_map (xs : List Float) : numbers (.vector (xs.map .number)) = .ok xs := by
  rw [← List.append_nil (xs.map Value.number), numbers_append]
  exact congrArg Except.ok xs.append_nil

theorem numbers_refused {x : Value} {expected : Expected} {actual : Kind}
    (refused : Refused x expected actual) : numbers x = .error (.mistyped expected actual) := by
  cases refused with
  | scalar scalar =>
    cases x with
    | vector => exact absurd rfl scalar
    | _ => rfl
  | @element xs other rest different =>
    rw [numbers_append]
    cases other with
    | number => exact absurd rfl different
    | _ => rfl

theorem apply_ok (f : Statistic) {xs : List Float} (filled : xs ≠ []) :
    ∃ r, f.apply xs = .ok r := by
  cases xs with
  | nil => exact absurd rfl filled
  | cons => cases f <;> exact ⟨_, rfl⟩

end Statistics

namespace Broadcast

variable {op : Float → Float → Float} {start : Float}

theorem reduce_append (xs : List Float) (rest : List Value) :
    (reduce .number (onNumbers op) (.number start) (.vector (xs.map .number ++ rest)) :
      Except Fault Value) =
        reduce .number (onNumbers op) (.number (xs.foldl op start)) (.vector rest) := by
  induction xs generalizing start with
  | nil => rfl
  | cons x xs ih => exact ih

theorem reduce_map (xs : List Float) :
    reduce .number (onNumbers op) (.number start) (.vector (xs.map .number)) =
      .ok (.number (xs.foldl op start)) := by
  rw [← List.append_nil (xs.map Value.number), reduce_append]
  rfl

theorem reduce_refused {x : Value} {expected : Expected} {actual : Kind}
    (refused : Refused x expected actual) :
    reduce .number (onNumbers op) (.number start) x = .error (.mistyped expected actual) := by
  cases refused with
  | scalar scalar =>
    cases x with
    | vector => exact absurd rfl scalar
    | _ => rfl
  | element different =>
    rw [reduce_append]
    exact congrArg (· >>= _) (if_neg different)

end Broadcast

/-- The operations that make one number of a vector of numbers. -/
inductive Builtin.Reduces : Builtin → Prop where
  | product : Reduces .product
  | statistic {f} : Reduces (.statistic f)

namespace Builtin.Reduces

variable {b : Builtin} {x : Value} {expected : Expected} {actual : Kind}

theorem call_refused (reduces : b.Reduces) (refused : Refused x expected actual) :
    b.call [] x = .error (.mistyped expected actual) := by
  cases reduces with
  | product => exact Broadcast.reduce_refused refused
  | statistic =>
    rw [call, Statistics.numbers_refused refused]
    rfl

theorem call_numbers (reduces : b.Reduces) (xs : List Float) :
    (∃ r, b.call [] (.vector (xs.map .number)) = .ok (.number r)) ∨
      xs = [] ∧ b.call [] (.vector []) = .error (.of .emptyVector) := by
  cases reduces with
  | product => exact .inl ⟨_, Broadcast.reduce_map xs⟩
  | @statistic f =>
    by_cases filled : xs = []
    · subst filled
      cases f with
      | sum => exact .inl ⟨_, rfl⟩
      | _ => exact .inr ⟨rfl, rfl⟩
    · obtain ⟨r, found⟩ := Statistics.apply_ok f filled
      rw [call, Statistics.numbers_map]
      exact .inl ⟨r, congrArg (· >>= fun r => pure (Value.number r)) found⟩

/-- A type error is what is said of a value that is refused, and of no other. -/
theorem call_mistyped_iff (reduces : b.Reduces) :
    b.call [] x = .error (.mistyped expected actual) ↔ Refused x expected actual := by
  refine ⟨fun failed => ?_, reduces.call_refused⟩
  rcases refused_or_numbers x with ⟨_, _, refused⟩ | ⟨xs, rfl⟩
  · cases failed.symm.trans (reduces.call_refused refused)
    exact refused
  · rcases reduces.call_numbers xs with ⟨r, found⟩ | ⟨rfl, empty⟩
    · cases failed.symm.trans found
    · cases failed.symm.trans empty

theorem call_of_empty_ok (reduces : b.Reduces) {r : Value} (empty : b.call [] (.vector []) = .ok r)
    (fits : ∀ expected actual, ¬ Refused x expected actual) :
    ∃ r, b.call [] x = .ok (.number r) := by
  rcases refused_or_numbers x with ⟨_, _, refused⟩ | ⟨xs, rfl⟩
  · exact absurd refused (fits _ _)
  · rcases reduces.call_numbers xs with found | ⟨_, failed⟩
    · exact found
    · cases empty.symm.trans failed

theorem call_of_empty_error (reduces : b.Reduces)
    (empty : b.call [] (.vector []) = .error (.of .emptyVector))
    (fits : ∀ expected actual, ¬ Refused x expected actual) :
    (b.call [] x = .error (.of .emptyVector) ↔ x = .vector []) ∧
      (x ≠ .vector [] → ∃ r, b.call [] x = .ok (.number r)) := by
  rcases refused_or_numbers x with ⟨_, _, refused⟩ | ⟨xs, rfl⟩
  · exact absurd refused (fits _ _)
  · rcases reduces.call_numbers xs with ⟨r, found⟩ | ⟨rfl, _⟩
    · refine ⟨⟨fun failed => ?_, fun none => none ▸ empty⟩, fun _ => ⟨r, found⟩⟩
      cases found.symm.trans failed
    · exact ⟨iff_of_true empty rfl, fun filled => absurd rfl filled⟩

end Builtin.Reduces

/-- The reductions of the prelude refuse alike. A value that is no vector, and a vector with an
element that is no number, is a type error, the same for all six; of the other values, sums and
products take all, and the statistics refuse the empty vector and nothing else. -/
theorem Prelude.reductions_refuse_alike (x : Value) :
    ∀ name ∈ ["sum", "prod", "avg", "var", "stddev", "stderr"], ∃ b,
      lookup? name = some (.ofBuiltin b) ∧
      (∀ expected actual,
        b.call [] x = .error (.mistyped expected actual) ↔ Refused x expected actual) ∧
      ((∀ expected actual, ¬ Refused x expected actual) →
        if name = "sum" ∨ name = "prod" then ∃ r, b.call [] x = .ok (.number r)
        else (b.call [] x = .error (.of .emptyVector) ↔ x = .vector []) ∧
          (x ≠ .vector [] → ∃ r, b.call [] x = .ok (.number r))) := by
  intro name member
  simp only [List.mem_cons, List.not_mem_nil, or_false] at member
  rcases member with rfl | rfl | rfl | rfl | rfl | rfl
  · exact ⟨.statistic .sum, rfl, fun _ _ => Builtin.Reduces.statistic.call_mistyped_iff,
      fun fits => (if_pos (.inl rfl)).mpr (Builtin.Reduces.statistic.call_of_empty_ok rfl fits)⟩
  · exact ⟨.product, rfl, fun _ _ => Builtin.Reduces.product.call_mistyped_iff,
      fun fits => (if_pos (.inr rfl)).mpr (Builtin.Reduces.product.call_of_empty_ok rfl fits)⟩
  all_goals
    refine ⟨.statistic _, rfl, fun _ _ => Builtin.Reduces.statistic.call_mistyped_iff,
      fun fits => (if_neg (by decide)).mpr ?_⟩
    exact Builtin.Reduces.statistic.call_of_empty_error rfl fits

/-- A vector with two elements that are no numbers, and an empty one. -/
theorem Prelude.reductions_refuse_alike_mixed :
    let names := ["sum", "prod", "avg", "var", "stddev", "stderr"]
    let mixed := Value.vector [.number 1, .string "a", .bool true]
    "prod" ∈ names ∧ "avg" ∈ names ∧ (∀ expected actual, ¬ Refused (.vector []) expected actual) ∧
      (∃ b, lookup? "prod" = some (.ofBuiltin b) ∧
        b.call [] mixed = .error (.mistyped (.just .number) .string)) ∧
      ∃ b, lookup? "avg" = some (.ofBuiltin b) ∧
        b.call [] (.vector []) = .error (.of .emptyVector) := by
  intro names mixed
  have named : "prod" ∈ names ∧ "avg" ∈ names := by decide
  have refused : Refused mixed (.just .number) .string :=
    @Refused.element [1] (.string "a") [.bool true] nofun
  have fits (expected : Expected) (actual : Kind) : ¬ Refused (.vector []) expected actual :=
    fun refused => nomatch Statistics.numbers_refused refused
  obtain ⟨b, found, refuses, _⟩ := reductions_refuse_alike mixed "prod" named.1
  obtain ⟨c, found', _, takes⟩ := reductions_refuse_alike (.vector []) "avg" named.2
  have empty := (if_neg (by decide)).mp (takes fits)
  exact ⟨named.1, named.2, fits, ⟨b, found, (refuses _ _).2 refused⟩, c, found', empty.1.2 rfl⟩

end Formula
