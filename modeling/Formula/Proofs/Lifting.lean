import Formula.Builtin.Call
import Formula.Proofs.Alignment
import Formula.Proofs.Equality

/-! Laws of functions that are lifted to vectors. Main statements: a function of two scalars with
one of them given is lifted as a function of one scalar; a commutative or associative function of
numbers stays so when it is lifted. -/
namespace Formula

namespace Value

variable {levels more : Nat} {v w : Value}

theorem Numeric.mono (numeric : v.Numeric levels) (le : levels ≤ more) : v.Numeric more := by
  induction numeric generalizing more with
  | number => exact .number
  | vector each ih =>
    obtain ⟨more, rfl⟩ := Nat.exists_eq_succ_of_ne_zero (Nat.ne_zero_of_lt le)
    exact .vector fun v member => ih v member (Nat.le_of_succ_le_succ le)

theorem Numeric.numbers_or_vector (numericV : v.Numeric levels) (numericW : w.Numeric levels) :
    (∃ a b, v = .number a ∧ w = .number b) ∨ v.kind = .vector ∨ w.kind = .vector := by
  cases numericV <;> cases numericW
  · exact .inl ⟨_, _, rfl, rfl⟩
  · exact .inr (.inr rfl)
  all_goals exact .inr (.inl rfl)

/-- An element has one level less, and a number stands for its elements on any level. -/
theorem Numeric.element (numeric : v.Numeric (levels + 1)) {i : Nat}
    (here : v.spread? [i] = some w) : w.Numeric levels := by
  cases numeric with
  | number =>
    cases here
    exact .number
  | vector each =>
    obtain ⟨u, found, same⟩ := Option.bind_eq_some_iff.1 here
    cases Option.some.inj same
    exact each w (List.mem_of_getElem? found)

/-- A comparison by which vectors are alike if their elements are. -/
def Elementwise (alike : Value → Value → Prop) : Prop :=
  ∀ vs ws, List.Forall₂ alike vs ws → alike (.vector vs) (.vector ws)

theorem elementwise_eq : Elementwise (· = ·) := by
  intro vs ws equal
  rw [List.forall₂_eq_eq_eq] at equal
  rw [equal]

theorem elementwise_same : Elementwise fun v w => v.same w = true :=
  fun _ _ alike => sameAll_iff.2 alike

theorem forall₂_of_rel_getElem? {alike : Value → Value → Prop} {vs ws : List Value}
    (each : ∀ i : Nat, Option.Rel alike vs[i]? ws[i]?) : List.Forall₂ alike vs ws := by
  induction vs generalizing ws with
  | nil =>
    cases ws with
    | nil => exact .nil
    | cons => cases each 0
  | cons v vs ih =>
    cases ws with
    | nil => cases each 0
    | cons w ws =>
      cases each 0 with
      | some head => exact .cons head (ih fun i => each (i + 1))

theorem Elementwise.vectors {alike : Value → Value → Prop} (elementwise : Elementwise alike)
    (vectorV : v.kind = .vector) (vectorW : w.kind = .vector)
    (each : ∀ i, Option.Rel alike (v.spread? [i]) (w.spread? [i])) : alike v w := by
  have elements (elems : List Value) (i : Nat) : (vector elems).spread? [i] = elems[i]? := by
    simp [spread?]
  rcases v.vector_or_scalar with ⟨vs, rfl⟩ | scalar
  · rcases w.vector_or_scalar with ⟨ws, rfl⟩ | scalar
    · simp only [elements] at each
      exact elementwise vs ws (forall₂_of_rel_getElem? each)
    · exact absurd vectorW scalar
  · exact absurd vectorV scalar

end Value

namespace Broadcast

section
variable {m : Type → Type} [Monad m] [MonadExceptOf Fault m] {left right : Kind}
  {f : Value → Value → m Value} {c : Value}

theorem binary_given_right (fits : c.kind = right) (v : Value) :
    binary left right f v c = unary left (fun z => f z c) v := by
  induction v with
  | vector vs ih =>
    have each : binaryEachLeft left right f vs c = unaryAll left (fun z => f z c) vs := by
      induction vs with
      | nil => rw [binaryEachLeft, unaryAll]
      | cons v vs later =>
        rw [binaryEachLeft, unaryAll, ih v List.mem_cons_self,
          later fun w member => ih w (List.mem_cons_of_mem _ member)]
    rw [binary.eq_def, unary.eq_def, if_pos fits]
    dsimp only
    rw [if_pos fits, each]
  | _ => rw [binary.eq_def, unary.eq_def, if_pos fits]

theorem binary_given_left (fits : c.kind = left) (v : Value) :
    binary left right f c v = unary right (fun z => f c z) v := by
  induction v with
  | vector vs ih =>
    have each : binaryEachRight left right f c vs = unaryAll right (fun z => f c z) vs := by
      induction vs with
      | nil => rw [binaryEachRight, unaryAll]
      | cons v vs later =>
        rw [binaryEachRight, unaryAll, ih v List.mem_cons_self,
          later fun w member => ih w (List.mem_cons_of_mem _ member)]
    rw [binary.eq_def, unary.eq_def, if_pos fits]
    dsimp only
    rw [each]
  | _ => rw [binary.eq_def, unary.eq_def, if_pos fits]

end

/-- What a function of numbers makes of two values when it is lifted. -/
def combine (op : Float → Float → Float) (x y : Value) : Value :=
  match found : aligned? .number .number x y with
  | some elems => .vector (elems.attach.map fun ⟨e, member⟩ =>
    have _smaller := aligned?_smaller found member
    combine op e.1 e.2)
  | none => match x, y with
    | .number a, .number b => .number (op a b)
    | x, _ => x
termination_by sizeOf x + sizeOf y

section
variable {op : Float → Float → Float} {levels : Nat} {x y : Value}

theorem combine_numbers (a b : Float) : combine op (.number a) (.number b) = .number (op a b) := by
  rw [combine]
  rfl

theorem combine_some {elems : List (Value × Value)}
    (found : aligned? .number .number x y = some elems) :
    combine op x y = .vector (elems.map fun e => combine op e.1 e.2) := by
  rw [combine]
  split
  · next found' =>
    cases found.symm.trans found'
    rw [List.map_subtype (g := fun e => combine op e.1 e.2) fun _ _ => rfl, List.unattach_attach]
  · next apart => simp [apart] at found

theorem aligned?_numeric (numericX : x.Numeric levels) (numericY : y.Numeric levels)
    (either : x.kind = .vector ∨ y.kind = .vector) :
    ∃ elems, aligned? .number .number x y = some elems := by
  cases numericX <;> cases numericY
  · exact either.elim nofun nofun
  all_goals exact ⟨_, rfl⟩

theorem spread?_of_mem_aligned {elems : List (Value × Value)}
    (found : aligned? .number .number x y = some elems) {e : Value × Value} (member : e ∈ elems) :
    ∃ i, x.spread? [i] = some e.1 ∧ y.spread? [i] = some e.2 := by
  obtain ⟨i, here⟩ := List.mem_iff_getElem?.1 member
  exact ⟨i, spread?_aligned found here []⟩

@[elab_as_elim]
theorem numeric_induct {motive : Nat → Value → Value → Prop}
    (numbers : ∀ levels a b, motive levels (.number a) (.number b))
    (vectors : ∀ levels x y, x.Numeric (levels + 1) → y.Numeric (levels + 1) →
      x.kind = .vector ∨ y.kind = .vector →
      (∀ i v w, x.spread? [i] = some v → y.spread? [i] = some w → motive levels v w) →
        motive (levels + 1) x y)
    (numericX : x.Numeric levels) (numericY : y.Numeric levels) : motive levels x y := by
  induction levels generalizing x y with
  | zero =>
    cases numericX
    cases numericY
    exact numbers _ _ _
  | succ levels ih =>
    rcases numericX.numbers_or_vector numericY with ⟨a, b, rfl, rfl⟩ | either
    · exact numbers _ a b
    · exact vectors levels x y numericX numericY either fun i v w first second =>
        ih (numericX.element first) (numericY.element second)

theorem kind_combine (numericX : x.Numeric levels) (numericY : y.Numeric levels) :
    (combine op x y).kind = .vector ↔ x.kind = .vector ∨ y.kind = .vector := by
  rcases numericX.numbers_or_vector numericY with ⟨a, b, rfl, rfl⟩ | either
  · rw [combine_numbers]
    exact ⟨nofun, fun either => either.elim nofun nofun⟩
  · obtain ⟨elems, found⟩ := aligned?_numeric numericX numericY either
    rw [combine_some found]
    exact iff_of_true rfl either

/-- The elements of what is made of two values are what is made of their elements. -/
theorem spread?_combine (numericX : x.Numeric levels) (numericY : y.Numeric levels) (i : Nat) :
    (combine op x y).spread? [i] = Option.map₂ (combine op) (x.spread? [i]) (y.spread? [i]) := by
  rcases numericX.numbers_or_vector numericY with ⟨a, b, rfl, rfl⟩ | either
  · have number (c : Float) : (Value.number c).spread? [i] = some (.number c) := rfl
    rw [number, number, Option.map₂_some_some, combine_numbers, number]
  · obtain ⟨elems, found⟩ := aligned?_numeric numericX numericY either
    rw [combine_some found]
    cases here : elems[i]? with
    | none =>
      have apart : Option.map₂ (combine op) (x.spread? [i]) (y.spread? [i]) = none := by
        rcases spread?_beyond found here [] with absent | absent <;> simp [absent]
      rw [apart]
      simp [Value.spread?, here]
    | some e =>
      obtain ⟨first, second⟩ := spread?_aligned found here []
      rw [first, second]
      simp [Value.spread?, here]

theorem numeric_combine (numericX : x.Numeric levels) (numericY : y.Numeric levels) :
    (combine op x y).Numeric levels := by
  refine numeric_induct (fun levels a b => ?_) (fun levels x y numericX numericY either ih => ?_)
    numericX numericY
  · rw [combine_numbers]
    exact .number
  · obtain ⟨elems, found⟩ := aligned?_numeric numericX numericY either
    rw [combine_some found]
    refine .vector (List.forall_mem_map.2 fun e member => ?_)
    obtain ⟨i, first, second⟩ := spread?_of_mem_aligned found member
    exact ih i e.1 e.2 first second

theorem mapM_ok {α β ε : Type} {g : α → Except ε β} {h : α → β} {l : List α}
    (each : ∀ a ∈ l, g a = .ok (h a)) : l.mapM g = .ok (l.map h) := by
  induction l with
  | nil => rfl
  | cons a l ih =>
    obtain ⟨head, tail⟩ := List.forall_mem_cons.1 each
    rw [List.mapM_cons, head, ih tail]
    rfl

/-- On numbers and vectors a function that always yields a number does not fail when lifted. -/
theorem binary_eq_combine {f : Value → Value → Except Fault Value}
    (total : ∀ a b, f (.number a) (.number b) = .ok (.number (op a b)))
    (numericX : x.Numeric levels) (numericY : y.Numeric levels) :
    binary .number .number f x y = .ok (combine op x y) := by
  have scalar : Kind.number ≠ .vector := nofun
  refine numeric_induct (fun levels a b => ?_) (fun levels x y numericX numericY either ih => ?_)
    numericX numericY
  · rw [binary.eq_def, combine_numbers]
    exact (if_pos rfl).trans ((if_pos rfl).trans (total a b))
  · obtain ⟨elems, found⟩ := aligned?_numeric numericX numericY either
    have each : ∀ e ∈ elems, binary .number .number f e.1 e.2 = .ok (combine op e.1 e.2) := by
      intro e member
      obtain ⟨i, first, second⟩ := spread?_of_mem_aligned found member
      exact ih i e.1 e.2 first second
    rw [binary_eq scalar scalar, found, combine_some found]
    simp only [mapM_ok each]
    rfl

variable {alike : Value → Value → Prop}

theorem combine_comm (elementwise : Value.Elementwise alike)
    (law : ∀ a b, alike (.number (op a b)) (.number (op b a))) (numericX : x.Numeric levels)
    (numericY : y.Numeric levels) : alike (combine op x y) (combine op y x) := by
  refine numeric_induct (fun levels a b => ?_) (fun levels x y numericX numericY either ih => ?_)
    numericX numericY
  · rw [combine_numbers, combine_numbers]
    exact law a b
  · refine elementwise.vectors ((kind_combine numericX numericY).2 either)
      ((kind_combine numericY numericX).2 either.symm) fun i => ?_
    rw [spread?_combine numericX numericY, spread?_combine numericY numericX]
    cases first : x.spread? [i] with
    | none =>
      rw [Option.map₂_none_left, Option.map₂_none_right]
      exact .none
    | some v =>
      cases second : y.spread? [i] with
      | none => exact .none
      | some w => exact .some (ih i v w first second)

theorem combine_assoc (elementwise : Value.Elementwise alike)
    (law : ∀ a b c, alike (.number (op (op a b) c)) (.number (op a (op b c)))) {z : Value}
    (numericX : x.Numeric levels) (numericY : y.Numeric levels) (numericZ : z.Numeric levels) :
    alike (combine op (combine op x y) z) (combine op x (combine op y z)) := by
  have numbers (a b c : Float) : alike (combine op (combine op (.number a) (.number b)) (.number c))
      (combine op (.number a) (combine op (.number b) (.number c))) := by
    simp only [combine_numbers]
    exact law a b c
  -- The three are taken apart together, whichever of them are vectors: on levels, not on one of them.
  induction levels generalizing x y z with
  | zero =>
    cases numericX
    cases numericY
    cases numericZ
    exact numbers _ _ _
  | succ levels ih =>
    have numericXY : (combine op x y).Numeric (levels + 1) := numeric_combine numericX numericY
    have numericYZ : (combine op y z).Numeric (levels + 1) := numeric_combine numericY numericZ
    have elements (some : (x.kind = .vector ∨ y.kind = .vector) ∨ z.kind = .vector) :
        alike (combine op (combine op x y) z) (combine op x (combine op y z)) := by
      refine elementwise.vectors
        ((kind_combine numericXY numericZ).2
          (some.imp_left (kind_combine numericX numericY).2))
        ((kind_combine numericX numericYZ).2
          ((or_assoc.1 some).imp_right (kind_combine numericY numericZ).2)) fun i => ?_
      rw [spread?_combine numericXY numericZ, spread?_combine numericX numericY,
        spread?_combine numericX numericYZ, spread?_combine numericY numericZ]
      cases first : x.spread? [i] with
      | none => exact .none
      | some u =>
        cases second : y.spread? [i] with
        | none => exact .none
        | some v =>
          cases third : z.spread? [i] with
          | none => exact .none
          | some w =>
            exact .some (ih (numericX.element first) (numericY.element second)
              (numericZ.element third))
    cases numericX with
    | vector => exact elements (.inl (.inl rfl))
    | number =>
      cases numericY with
      | vector => exact elements (.inl (.inr rfl))
      | number =>
        cases numericZ with
        | vector => exact elements (.inr rfl)
        | number => exact numbers _ _ _

end

/-- A function of two scalars with one of them given is lifted as the function of the other one
that is left: it answers and fails alike for all values, also where vectors are its scalars. -/
theorem binary_eq_unary {m : Type → Type} [Monad m] [MonadExceptOf Fault m] {left right : Kind}
    {f : Value → Value → m Value} (c v : Value) :
    (c.kind = right → binary left right f v c = unary left (fun z => f z c) v) ∧
      (c.kind = left → binary left right f c v = unary right (fun z => f c z) v) :=
  ⟨fun fits => binary_given_right fits v, fun fits => binary_given_left fits v⟩

theorem binary_eq_unary_nested :
    let pair (x y : Value) : Except Fault Value := .ok (.vector [x, y])
    let c := Value.bool true
    let v := Value.vector [.bool false, .vector [.bool true]]
    c.kind = .bool ∧ binary .bool .bool pair v c = unary .bool (fun z => pair z c) v ∧
      binary .bool .bool pair c v = unary .bool (fun z => pair c z) v ∧
      unary .bool (fun z => pair c z) v =
        .ok (.vector [.vector [c, .bool false], .vector [.vector [c, c]]]) :=
  ⟨rfl, (binary_eq_unary _ _).1 rfl, (binary_eq_unary _ _).2 rfl, rfl⟩

/-- A commutative or associative function of numbers that always yields a number stays so when it is
lifted: on values of numbers and vectors it never fails, and the order or the grouping does not
matter, whether results are compared for equality or as numbers are. -/
theorem binary_keeps_laws {op : Float → Float → Float} {f : Value → Value → Except Fault Value}
    (total : ∀ a b, f (.number a) (.number b) = .ok (.number (op a b))) {l m n : Nat}
    {x y z : Value} (numericX : x.Numeric l) (numericY : y.Numeric m) (numericZ : z.Numeric n) :
    let lifted := binary .number .number f
    ((∀ a b, op a b = op b a) → ∃ r, lifted x y = .ok r ∧ lifted y x = .ok r) ∧
    ((∀ a b, sameNumber (op a b) (op b a) = true) →
      ∃ r s, lifted x y = .ok r ∧ lifted y x = .ok s ∧ r.same s = true) ∧
    ((∀ a b c, op (op a b) c = op a (op b c)) → ∃ r,
      (do lifted (← lifted x y) z) = .ok r ∧ (do lifted x (← lifted y z)) = .ok r) ∧
    ((∀ a b c, sameNumber (op (op a b) c) (op a (op b c)) = true) → ∃ r s,
      (do lifted (← lifted x y) z) = .ok r ∧ (do lifted x (← lifted y z)) = .ok s ∧
        r.same s = true) := by
  intro lifted
  replace numericX := numericX.mono (le_max_left l (max m n))
  replace numericY := numericY.mono ((le_max_left m n).trans (le_max_right l _))
  replace numericZ := numericZ.mono ((le_max_right m n).trans (le_max_right l _))
  have run {v w : Value} : v.Numeric (max l (max m n)) → w.Numeric (max l (max m n)) →
      lifted v w = .ok (combine op v w) := binary_eq_combine total
  have groupings : (do lifted (← lifted x y) z) = .ok (combine op (combine op x y) z) ∧
      (do lifted x (← lifted y z)) = .ok (combine op x (combine op y z)) := by
    rw [run numericX numericY, run numericY numericZ]
    exact ⟨run (numeric_combine numericX numericY) numericZ,
      run numericX (numeric_combine numericY numericZ)⟩
  rw [groupings.1, groupings.2, run numericX numericY, run numericY numericX]
  refine ⟨fun law => ⟨_, rfl, ?_⟩, fun law => ⟨_, _, rfl, rfl, ?_⟩, fun law => ⟨_, rfl, ?_⟩,
    fun law => ⟨_, _, rfl, rfl, ?_⟩⟩
  · exact congrArg Except.ok (combine_comm Value.elementwise_eq
      (fun a b => congrArg Value.number (law a b)) numericY numericX)
  · exact combine_comm Value.elementwise_same law numericX numericY
  · exact congrArg Except.ok (combine_assoc Value.elementwise_eq
      (fun a b c => congrArg Value.number (law a b c)) numericX numericY numericZ).symm
  · exact combine_assoc Value.elementwise_same law numericX numericY numericZ

/-- Whether one of two numbers is not zero, as a number. -/
def eitherSet (a b : Float) : Float := if a == 0 && b == 0 then 0 else 1

/-- Vectors of different lengths and depths, an empty one among them. -/
theorem binary_keeps_laws_ragged :
    let lifted := binary .number .number (onNumbers eitherSet)
    let x := Value.vector [.number 0, .vector [.number 1, .number 0], .vector []]
    let y := Value.vector [.vector [.number 0, .number (0 / 0)], .number 0]
    let z := Value.number 0
    (∀ a b, onNumbers eitherSet (.number a) (.number b) = .ok (.number (eitherSet a b))) ∧
      x.Numeric 2 ∧ y.Numeric 2 ∧ z.Numeric 0 ∧ (∀ a b, eitherSet a b = eitherSet b a) ∧
      (∀ a b c, eitherSet (eitherSet a b) c = eitherSet a (eitherSet b c)) ∧
      (∃ r, lifted x y = .ok r ∧ lifted y x = .ok r) ∧
      ∃ r, (do lifted (← lifted x y) z) = .ok r ∧ (do lifted x (← lifted y z)) = .ok r := by
  intro lifted x y z
  have numericX : x.Numeric 2 := .vector (by
    simp only [List.forall_mem_cons]
    exact ⟨.number, .vector (by simp [Value.Numeric.number]), .vector nofun, nofun⟩)
  have numericY : y.Numeric 2 := .vector (by
    simp only [List.forall_mem_cons]
    exact ⟨.vector (by simp [Value.Numeric.number]), .number, nofun⟩)
  have numericZ : z.Numeric 0 := .number
  have total (a b : Float) : onNumbers eitherSet (.number a) (.number b) =
    .ok (.number (eitherSet a b)) := rfl
  have zero : (0 : Float) == 0 := by decide
  have one : ((1 : Float) == 0) = false := by decide
  have comm (a b : Float) : eitherSet a b = eitherSet b a := by
    simp only [eitherSet, Bool.and_comm]
  have assoc (a b c : Float) : eitherSet (eitherSet a b) c = eitherSet a (eitherSet b c) := by
    cases setA : a == 0 <;> cases setB : b == 0 <;> cases setC : c == 0 <;>
      simp [eitherSet, setA, setB, setC, zero, one]
  obtain ⟨commutes, _, associates, _⟩ := binary_keeps_laws total numericX numericY numericZ
  exact ⟨total, numericX, numericY, numericZ, comm, assoc, commutes comm, associates assoc⟩

end Broadcast

end Formula
