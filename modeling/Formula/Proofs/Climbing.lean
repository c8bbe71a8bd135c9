import Formula.Builder
import Mathlib

/-! Precedence climbing. Main statement: climbing over a row of operands and operators takes the row
apart at the rightmost of its loosest operators, and both sides in turn. -/
namespace Formula

/-- A table in which everything binds, signs more tightly than operators between operands. -/
structure TightTable (table : Rule → Option (Affix × Nat)) : Prop where
  binds : ∀ {r n}, table r = some (.between, n) → 0 < n
  signs : ∀ {r s n k}, table r = some (.between, n) → table s = some (.before, k) → n < k

theorem tightTable_operatorTable : TightTable operatorTable where
  binds {r n} found := by cases r <;> cases found <;> decide
  signs {r s n k} found sign := by cases r <;> cases found <;> cases s <;> cases sign <;> decide

section Rows

variable {T : Type} (table : Rule → Option (Affix × Nat)) (primary : Child → T)
  (sign : Child → T → T) (connective : T → Child → T → T)

/-- The operators between the operands of a row are of levels with a property. -/
def Levels (P : Nat → Prop) (row : List Child) : Prop :=
  ∀ c ∈ row, ∀ n, table c.part.rule = some (.between, n) → P n

/-- How a row is grouped: a sign applies to its own operand alone, and operators between operands group
by level and then to the left. -/
inductive Groups : List Child → T → Prop where
  | operand {c} (plain : table c.part.rule = none) : Groups [c] (primary c)
  | sign {s n row x} (ranked : table s.part.rule = some (.before, n))
    (alone : Levels table (fun _ => False) row) (inner : Groups row x) : Groups (s :: row) (sign s x)
  | connective {op n before after x y} (ranked : table op.part.rule = some (.between, n))
    (lower : Levels table (n ≤ ·) before) (higher : Levels table (n < ·) after)
    (left : Groups before x) (right : Groups after y) :
    Groups (before ++ op :: after) (connective x op y)

mutual

/-- Climbs over a row up to an operator that binds no more tightly than `bound`. Without a value an
operand or an operator is missing. -/
def climbFrom (fuel bound : Nat) (row : List Child) : Option (T × List Child) :=
  match fuel, row with
  | fuel + 1, c :: row =>
    match table c.part.rule with
    | none => climbOn fuel bound (primary c) row
    | some (.before, n) =>
      (climbFrom fuel (n - 1) row).bind fun (x, rest) => climbOn fuel bound (sign c x) rest
    | some (.between, _) => none
  | _, _ => none

/-- Climbs on with a left operand. -/
def climbOn (fuel bound : Nat) (left : T) (row : List Child) : Option (T × List Child) :=
  match fuel, row with
  | _, [] => some (left, [])
  | fuel + 1, c :: row =>
    match table c.part.rule with
    | some (affix, n) =>
      if bound < n then
        match affix with
        | .between =>
          (climbFrom fuel n row).bind fun (x, rest) => climbOn fuel bound (connective left c x) rest
        | .before => none
      else some (left, c :: row)
    | none => none
  | 0, _ => none

end

/-- What comes of a row by climbing over all of it. -/
def climbAll (row : List Child) : Option T :=
  (climbFrom table primary sign connective (row.length + 1) 0 row).map Prod.fst

variable {table primary sign connective} {row rest : List Child} {x : T} {fuel bound : Nat}

theorem climbOn_stops (room : rest.length < fuel)
    (loose : ∀ c ∈ rest.head?, ∃ n, table c.part.rule = some (.between, n) ∧ n ≤ bound) :
    climbOn table primary sign connective fuel bound x rest = some (x, rest) := by
  cases rest with
  | nil => rw [climbOn]
  | cons c rest =>
    obtain ⟨n, ranked, low⟩ := loose c rfl
    obtain ⟨fuel, rfl⟩ := Nat.exists_eq_add_of_lt room
    rw [climbOn, ranked]
    exact if_neg (Nat.not_lt.2 low)

/-- Climbing takes a row that stands in front of a looser operator for what it is grouped to. -/
theorem Groups.climbFrom (groups : Groups table primary sign connective row x)
    (tight : TightTable table) (room : (row ++ rest).length < fuel)
    (above : Levels table (bound < ·) row)
    (loose : ∀ c ∈ rest.head?, ∃ n, table c.part.rule = some (.between, n) ∧
      Levels table (n ≤ ·) row) :
    ∃ left, rest.length < left ∧ climbFrom table primary sign connective fuel bound (row ++ rest) =
      climbOn table primary sign connective left bound x rest := by
  induction groups generalizing fuel bound rest with
  | @operand c plain =>
    obtain ⟨fuel, rfl⟩ : ∃ f, fuel = f + 1 := ⟨fuel - 1, by omega⟩
    refine ⟨fuel, by simpa using room, ?_⟩
    rw [List.singleton_append, Formula.climbFrom, plain]
  | @sign s n row x ranked alone inner ih =>
    obtain ⟨fuel, rfl⟩ : ∃ f, fuel = f + 1 := ⟨fuel - 1, by omega⟩
    simp only [List.cons_append, List.length_cons, List.length_append] at room
    obtain ⟨left, enough, climbed⟩ := @ih rest fuel (n - 1) (by simp only [List.length_append]; omega)
      (fun c member k found => (alone c member k found).elim) fun c first => by
        obtain ⟨k, found, _⟩ := loose c first
        exact ⟨k, found, fun d member m between => (alone d member m between).elim⟩
    have stops := @climbOn_stops _ table primary sign connective rest x left (n - 1) enough
      fun c first => by
        obtain ⟨k, found, _⟩ := loose c first
        exact ⟨k, found, Nat.le_sub_one_of_lt (tight.signs found ranked)⟩
    refine ⟨fuel, by omega, ?_⟩
    rw [List.cons_append, Formula.climbFrom, ranked]
    simp only
    rw [climbed, stops, Option.bind_some]
  | @connective op n before after x y ranked lower higher _ _ ihLeft ihRight =>
    have between : bound < n := above op (by simp) n ranked
    have follows : ∀ c ∈ rest.head?, ∃ k, table c.part.rule = some (.between, k) ∧ k ≤ n ∧
        Levels table (k ≤ ·) after := fun c first => by
      obtain ⟨k, found, low⟩ := loose c first
      exact ⟨k, found, low op (by simp) n ranked, fun d member => low d (by simp [member])⟩
    rw [List.append_assoc, List.cons_append] at room ⊢
    obtain ⟨middle, enough, climbed⟩ := @ihLeft (op :: (after ++ rest)) fuel bound room
      (fun c member => above c (by simp [member])) fun c first => by
        cases first
        exact ⟨n, ranked, lower⟩
    obtain ⟨middle, rfl⟩ : ∃ f, middle = f + 1 := ⟨middle - 1, by omega⟩
    simp only [List.length_cons, List.length_append] at enough
    obtain ⟨left, others, climbedRight⟩ := @ihRight rest middle n
      (by simp only [List.length_append]; omega) higher fun c first => by
        obtain ⟨k, found, _, low⟩ := follows c first
        exact ⟨k, found, low⟩
    have stops := @climbOn_stops _ table primary sign connective rest y left n others
      fun c first => by
        obtain ⟨k, found, low, _⟩ := follows c first
        exact ⟨k, found, low⟩
    refine ⟨middle, by omega, ?_⟩
    rw [climbed, climbOn, ranked]
    simp only [if_pos between]
    rw [climbedRight, stops, Option.bind_some]

theorem Groups.climbAll (groups : Groups table primary sign connective row x)
    (tight : TightTable table) : climbAll table primary sign connective row = some x := by
  obtain ⟨left, _, climbed⟩ := @Groups.climbFrom _ table primary sign connective row [] x
    (row.length + 1) 0 groups tight (by simp) (fun c _ n found => tight.binds found) nofun
  rw [List.append_nil] at climbed
  rw [Formula.climbAll, climbed, climbOn]
  rfl

end Rows

end Formula
