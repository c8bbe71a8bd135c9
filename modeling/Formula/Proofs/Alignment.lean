import Formula.Broadcast
import Mathlib

/-! Which parts of two values belong together when a function of two scalars is lifted to vectors. Main
statement: the lifted function calls the function for the pairs that belong together, from left to
right and up to the first one that fails, and what it makes of them stands where the pairs stand. -/
namespace Formula

namespace Value

/-- The item of a value at an index path. -/
def item? : List Nat → Value → Option Value
  | [], v => some v
  | i :: path, .vector elems => elems[i]?.bind (item? path)
  | _ :: _, _ => none

/-- The item of a value at an index path, where what is no vector stands for all its elements. -/
def spread? : List Nat → Value → Option Value
  | i :: path, .vector elems => elems[i]?.bind (spread? path)
  | _, v => some v

theorem vector_or_scalar (v : Value) : (∃ elems, v = .vector elems) ∨ v.kind ≠ .vector := by
  cases v with
  | vector elems => exact .inl ⟨elems, rfl⟩
  | _ => exact .inr nofun

theorem item?_scalar {v : Value} (scalar : v.kind ≠ .vector) (i : Nat) (path : List Nat) :
    v.item? (i :: path) = none := by
  cases v with
  | vector => exact absurd rfl scalar
  | _ => rfl

theorem spread?_scalar {v : Value} (scalar : v.kind ≠ .vector) (path : List Nat) :
    v.spread? path = some v := by
  cases path with
  | nil => rfl
  | cons =>
    cases v with
    | vector => exact absurd rfl scalar
    | _ => rfl

end Value

namespace Broadcast

/-- The elements that belong together: those of two vectors up to the shorter length, or a scalar of the
right kind and every element of a vector. Other values are not taken apart. -/
def aligned? (left right : Kind) : Value → Value → Option (List (Value × Value))
  | .vector xs, .vector ys => some (xs.zip ys)
  | .vector xs, y => if y.kind = right then some (xs.map (·, y)) else none
  | x, .vector ys => if x.kind = left then some (ys.map (x, ·)) else none
  | _, _ => none

/-- Two values that belong together, and the index path that leads to them. -/
structure Pair where
  path : List Nat
  x : Value
  y : Value

def Pair.below (i : Nat) (p : Pair) : Pair := { p with path := i :: p.path }

theorem aligned?_scalars {left right : Kind} {x y : Value} (scalarX : x.kind ≠ .vector)
    (scalarY : y.kind ≠ .vector) : aligned? left right x y = none := by
  cases x <;> cases y <;> first | rfl | exact absurd rfl scalarX | exact absurd rfl scalarY

theorem aligned?_scalar_vector {left right : Kind} {x : Value} {ys : List Value}
    (scalarX : x.kind ≠ .vector) :
    aligned? left right x (.vector ys) = if x.kind = left then some (ys.map (x, ·)) else none := by
  cases x with
  | vector => exact absurd rfl scalarX
  | _ => rfl

theorem aligned?_vector_scalar {left right : Kind} {xs : List Value} {y : Value}
    (scalarY : y.kind ≠ .vector) :
    aligned? left right (.vector xs) y = if y.kind = right then some (xs.map (·, y)) else none := by
  cases y with
  | vector => exact absurd rfl scalarY
  | _ => rfl

theorem aligned?_stray {left right : Kind} {x y : Value}
    (stray : x.kind ≠ .vector ∧ x.kind ≠ left ∨ y.kind ≠ .vector ∧ y.kind ≠ right) :
    aligned? left right x y = none := by
  rcases x.vector_or_scalar with ⟨xs, rfl⟩ | scalarX <;>
    rcases y.vector_or_scalar with ⟨ys, rfl⟩ | scalarY
  · exact absurd stray (not_or.2 ⟨fun other => other.1 rfl, fun other => other.1 rfl⟩)
  · rw [aligned?_vector_scalar scalarY, if_neg (stray.resolve_left fun other => other.1 rfl).2]
  · rw [aligned?_scalar_vector scalarX, if_neg (stray.resolve_right fun other => other.1 rfl).2]
  · exact aligned?_scalars scalarX scalarY

theorem aligned?_cases {left right : Kind} {x y : Value} {elems : List (Value × Value)}
    (found : aligned? left right x y = some elems) :
    (∃ xs ys, x = .vector xs ∧ y = .vector ys ∧ elems = xs.zip ys) ∨
      (∃ xs, x = .vector xs ∧ y.kind ≠ .vector ∧ elems = xs.map (·, y)) ∨
        ∃ ys, x.kind ≠ .vector ∧ y = .vector ys ∧ elems = ys.map (x, ·) := by
  rcases x.vector_or_scalar with ⟨xs, rfl⟩ | scalarX <;>
    rcases y.vector_or_scalar with ⟨ys, rfl⟩ | scalarY
  · exact .inl ⟨xs, ys, rfl, rfl, (Option.some.inj found).symm⟩
  · rw [aligned?_vector_scalar scalarY] at found
    split at found <;> cases found
    exact .inr (.inl ⟨xs, rfl, scalarY, rfl⟩)
  · rw [aligned?_scalar_vector scalarX] at found
    split at found <;> cases found
    exact .inr (.inr ⟨ys, scalarX, rfl, rfl⟩)
  · rw [aligned?_scalars scalarX scalarY] at found
    cases found

theorem aligned?_smaller {left right : Kind} {x y : Value} {elems : List (Value × Value)}
    (found : aligned? left right x y = some elems) {e : Value × Value} (member : e ∈ elems) :
    sizeOf e.1 + sizeOf e.2 < sizeOf x + sizeOf y := by
  have below {v : Value} {vs : List Value} (inside : v ∈ vs) : sizeOf v < sizeOf (Value.vector vs) := by
    have := List.sizeOf_lt_of_mem inside
    simp only [Value.vector.sizeOf_spec]
    omega
  rcases aligned?_cases found with ⟨xs, ys, rfl, rfl, rfl⟩ | ⟨xs, rfl, _, rfl⟩ | ⟨ys, _, rfl, rfl⟩
  · obtain ⟨first, second⟩ := List.of_mem_zip member
    exact Nat.add_lt_add (below first) (below second)
  · obtain ⟨z, inside, rfl⟩ := List.mem_map.1 member
    exact Nat.add_lt_add_right (below inside) _
  · obtain ⟨z, inside, rfl⟩ := List.mem_map.1 member
    exact Nat.add_lt_add_left (below inside) _

/-- The pairs that belong together in two values, from left to right. -/
def pairs (left right : Kind) (x y : Value) : List Pair :=
  match found : aligned? left right x y with
  | none => [⟨[], x, y⟩]
  | some elems => elems.zipIdx.attach.flatMap fun ⟨(p, i), member⟩ =>
    have _smaller := aligned?_smaller found (List.fst_mem_of_mem_zipIdx member)
    (pairs left right p.1 p.2).map (Pair.below i)
termination_by sizeOf x + sizeOf y

section
variable {left right : Kind} {x y : Value} {elems : List (Value × Value)}

@[elab_as_elim]
theorem aligned_induct (left right : Kind) {motive : Value → Value → Prop}
    (step : ∀ x y, (∀ elems, aligned? left right x y = some elems → ∀ p ∈ elems, motive p.1 p.2) →
      motive x y) (x y : Value) : motive x y :=
  step x y fun _ found p member =>
    have _smaller := aligned?_smaller found member
    aligned_induct left right step p.1 p.2
termination_by sizeOf x + sizeOf y

theorem pairs_none (apart : aligned? left right x y = none) :
    pairs left right x y = [⟨[], x, y⟩] := by
  rw [pairs]
  split
  · rfl
  · next found => simp [apart] at found

theorem pairs_some (found : aligned? left right x y = some elems) :
    pairs left right x y =
      elems.zipIdx.flatMap fun e => (pairs left right e.1.1 e.1.2).map (Pair.below e.2) := by
  rw [pairs]
  split
  · next apart => simp [apart] at found
  · next found' =>
    cases found.symm.trans found'
    exact (List.flatMap_subtype fun _ _ => rfl).trans (by rw [List.unattach_attach])

/-- The items of two values are those of the elements that belong together. -/
theorem spread?_aligned (found : aligned? left right x y = some elems) {i : Nat} {e : Value × Value}
    (here : elems[i]? = some e) (path : List Nat) :
    x.spread? (i :: path) = e.1.spread? path ∧ y.spread? (i :: path) = e.2.spread? path := by
  rcases aligned?_cases found with ⟨xs, ys, rfl, rfl, rfl⟩ | ⟨xs, rfl, scalar, rfl⟩ | ⟨ys, scalar, rfl, rfl⟩
  · obtain ⟨first, second⟩ := List.getElem?_zip_eq_some.1 here
    simp [Value.spread?, first, second]
  · rw [List.getElem?_map] at here
    obtain ⟨z, first, rfl⟩ := Option.map_eq_some_iff.1 here
    simp [Value.spread?, first, Value.spread?_scalar scalar]
  · rw [List.getElem?_map] at here
    obtain ⟨z, second, rfl⟩ := Option.map_eq_some_iff.1 here
    simp [Value.spread?, second, Value.spread?_scalar scalar]

theorem spread?_beyond (found : aligned? left right x y = some elems) {i : Nat}
    (beyond : elems[i]? = none) (path : List Nat) :
    x.spread? (i :: path) = none ∨ y.spread? (i :: path) = none := by
  rcases aligned?_cases found with ⟨xs, ys, rfl, rfl, rfl⟩ | ⟨xs, rfl, _, rfl⟩ | ⟨ys, _, rfl, rfl⟩
  · rw [List.getElem?_eq_none_iff, List.length_zip, inf_le_iff] at beyond
    exact beyond.imp (fun short => by simp [Value.spread?, short]) fun short => by
      simp [Value.spread?, short]
  · rw [List.getElem?_eq_none_iff, List.length_map] at beyond
    exact .inl (by simp [Value.spread?, beyond])
  · rw [List.getElem?_eq_none_iff, List.length_map] at beyond
    exact .inr (by simp [Value.spread?, beyond])

/-- A path of one of the values goes on in the elements that belong together. -/
theorem item?_aligned (found : aligned? left right x y = some elems) {i : Nat} {e : Value × Value}
    (here : elems[i]? = some e) {path : List Nat}
    (inside : (x.item? (i :: path)).isSome ∨ (y.item? (i :: path)).isSome) :
    (e.1.item? path).isSome ∨ (e.2.item? path).isSome := by
  rcases aligned?_cases found with ⟨xs, ys, rfl, rfl, rfl⟩ | ⟨xs, rfl, scalar, rfl⟩ | ⟨ys, scalar, rfl, rfl⟩
  · obtain ⟨first, second⟩ := List.getElem?_zip_eq_some.1 here
    simpa [Value.item?, first, second] using inside
  · rw [List.getElem?_map] at here
    obtain ⟨z, first, rfl⟩ := Option.map_eq_some_iff.1 here
    rw [Value.item?_scalar scalar] at inside
    exact .inl (by simpa [Value.item?, first] using inside)
  · rw [List.getElem?_map] at here
    obtain ⟨z, second, rfl⟩ := Option.map_eq_some_iff.1 here
    rw [Value.item?_scalar scalar] at inside
    exact .inr (by simpa [Value.item?, second] using inside)

theorem vector_of_aligned (found : aligned? left right x y = some elems) :
    x.kind = .vector ∨ y.kind = .vector := by
  rcases aligned?_cases found with ⟨xs, ys, rfl, rfl, rfl⟩ | ⟨xs, rfl, _, rfl⟩ | ⟨ys, _, rfl, rfl⟩
  · exact .inl rfl
  · exact .inl rfl
  · exact .inr rfl

theorem spread?_of_mem_pairs {p : Pair} (member : p ∈ pairs left right x y) :
    x.spread? p.path = some p.x ∧ y.spread? p.path = some p.y := by
  induction x, y using aligned_induct left right generalizing p with
  | step x y ih =>
    cases found : aligned? left right x y with
    | none =>
      rw [pairs_none found] at member
      cases List.mem_singleton.1 member
      exact ⟨rfl, rfl⟩
    | some elems =>
      rw [pairs_some found] at member
      obtain ⟨⟨e, i⟩, here, inside⟩ := List.mem_flatMap.1 member
      obtain ⟨q, below, rfl⟩ := List.mem_map.1 inside
      obtain ⟨first, second⟩ := spread?_aligned found (List.mk_mem_zipIdx_iff_getElem?.1 here) q.path
      obtain ⟨left, right⟩ := ih elems found e (List.fst_mem_of_mem_zipIdx here) below
      exact ⟨first.trans left, second.trans right⟩

/-- The pairs come in the order of their paths, and no path comes twice. -/
theorem pairs_sorted (left right : Kind) (x y : Value) :
    ((pairs left right x y).map Pair.path).Pairwise (· < ·) := by
  rw [List.pairwise_map]
  induction x, y using aligned_induct left right with
  | step x y ih =>
    cases found : aligned? left right x y with
    | none =>
      rw [pairs_none found]
      exact List.pairwise_singleton _ _
    | some elems =>
      rw [pairs_some found, List.pairwise_flatMap]
      constructor
      · rintro ⟨e, i⟩ here
        rw [List.pairwise_map]
        exact (ih elems found e (List.fst_mem_of_mem_zipIdx here)).imp List.cons_lt_cons_self.2
      · have rising : elems.zipIdx.Pairwise fun e e' => e.2 < e'.2 := by
          rw [← List.pairwise_map (f := Prod.snd) (R := (· < ·)), List.zipIdx_map_snd]
          exact List.pairwise_lt_range'
        refine rising.imp fun {e e'} before p inside q inside' => ?_
        obtain ⟨p, _, rfl⟩ := List.mem_map.1 inside
        obtain ⟨q, _, rfl⟩ := List.mem_map.1 inside'
        exact List.cons_lt_cons_iff.2 (.inl before)

end

section
variable {m : Type → Type} [Monad m] [MonadExceptOf Fault m]

/-- What is wrong with a pair of values that are not taken apart: the left one if it is neither a vector nor
of the right kind, or else the right one. -/
def misfit (left right : Kind) (x y : Value) : Fault :=
  if x.kind = left ∨ x.kind = .vector then .mistyped (.orVector right) y.kind
  else .mistyped (.orVector left) x.kind

/-- The call that is made for a pair, if both values are of the right kind. -/
def meet (left right : Kind) (f : Value → Value → m Value) (x y : Value) : m Value :=
  if x.kind = left ∧ y.kind = right then f x y else throw (misfit left right x y)

variable [LawfulMonad m] {left right : Kind} {f : Value → Value → m Value} {x y : Value}

theorem binaryEachRight_eq (ys : List Value) : binaryEachRight left right f x ys =
    (ys.map (x, ·)).mapM fun p => binary left right f p.1 p.2 := by
  induction ys with
  | nil => rw [binaryEachRight, List.map_nil, List.mapM_nil]
  | cons y ys ih => rw [binaryEachRight, List.map_cons, List.mapM_cons, ih]

theorem binaryEachLeft_eq (xs : List Value) : binaryEachLeft left right f xs y =
    (xs.map (·, y)).mapM fun p => binary left right f p.1 p.2 := by
  induction xs with
  | nil => rw [binaryEachLeft, List.map_nil, List.mapM_nil]
  | cons x xs ih => rw [binaryEachLeft, List.map_cons, List.mapM_cons, ih]

theorem binaryPairs_eq (xs ys : List Value) : binaryPairs left right f xs ys =
    (xs.zip ys).mapM fun p => binary left right f p.1 p.2 := by
  induction xs generalizing ys with
  | nil => rw [binaryPairs, List.zip_nil_left, List.mapM_nil]; simp
  | cons x xs ih =>
    cases ys with
    | nil => rw [binaryPairs, List.zip_nil_right, List.mapM_nil]; simp
    | cons y ys => rw [binaryPairs, List.zip_cons_cons, List.mapM_cons, ih]

/-- Elements that belong together meet in turn; other values meet themselves. -/
theorem binary_eq (scalarL : left ≠ .vector) (scalarR : right ≠ .vector) :
    binary left right f x y = match aligned? left right x y with
      | some elems => return .vector (← elems.mapM fun p => binary left right f p.1 p.2)
      | none => meet left right f x y := by
  have otherL (elems : List Value) : (Value.vector elems).kind ≠ left := scalarL.symm
  have otherR (elems : List Value) : (Value.vector elems).kind ≠ right := scalarR.symm
  rw [binary.eq_def]
  -- Neither kind that is asked for is that of a vector, so what each side is decides alone.
  rcases x.vector_or_scalar with ⟨xs, rfl⟩ | scalarX <;>
    rcases y.vector_or_scalar with ⟨ys, rfl⟩ | scalarY
  · rw [if_neg (otherL xs)]
    dsimp only
    rw [if_neg (otherR ys), binaryPairs_eq]
    rfl
  · rw [if_neg (otherL xs), aligned?_vector_scalar scalarY]
    dsimp only
    by_cases fits : y.kind = right
    · rw [if_pos fits, if_pos fits, binaryEachLeft_eq]
    · rw [if_neg fits, if_neg fits, meet, if_neg (fits ·.2), misfit, if_pos (.inr rfl)]
      cases y with
      | vector => exact absurd rfl scalarY
      | _ => rfl
  · rw [aligned?_scalar_vector scalarX]
    by_cases fits : x.kind = left
    · rw [if_pos fits, if_neg (otherR ys), if_pos fits]
      dsimp only
      rw [binaryEachRight_eq]
    · rw [if_neg fits, if_neg fits, meet, if_neg (fits ·.1), misfit,
        if_neg (not_or.2 ⟨fits, scalarX⟩)]
      cases x with
      | vector => exact absurd rfl scalarX
      | _ => rfl
  · rw [aligned?_scalars scalarX scalarY, meet]
    by_cases fitsX : x.kind = left
    · rw [if_pos fitsX]
      by_cases fitsY : y.kind = right
      · rw [if_pos fitsY, if_pos ⟨fitsX, fitsY⟩]
      · rw [if_neg fitsY, if_neg (fitsY ·.2), misfit, if_pos (.inl fitsX)]
        cases y with
        | vector => exact absurd rfl scalarY
        | _ => rfl
    · rw [if_neg fitsX, if_neg (fitsX ·.1), misfit, if_neg (not_or.2 ⟨fitsX, scalarX⟩)]
      cases x with
      | vector => exact absurd rfl scalarX
      | _ => rfl

/-- A scalar of the wrong kind is an error against anything, also against an empty vector. -/
theorem binary_stray (scalarL : left ≠ .vector) (scalarR : right ≠ .vector)
    (stray : x.kind ≠ .vector ∧ x.kind ≠ left ∨ y.kind ≠ .vector ∧ y.kind ≠ right) :
    binary left right f x y = throw (misfit left right x y) := by
  have apart : ¬ (x.kind = left ∧ y.kind = right) := fun fits =>
    stray.elim (fun other => other.2 fits.1) fun other => other.2 fits.2
  rw [binary_eq scalarL scalarR, aligned?_stray stray, meet, if_neg apart]

omit [MonadExceptOf Fault m] in
theorem discard_eq {α : Type} (run : m α) : discard run = run >>= fun _ => pure ⟨⟩ := by
  rw [discard, LawfulFunctor.map_const, Function.comp, bind_pure_comp]

omit [MonadExceptOf Fault m] in
theorem discard_mapM {α β : Type} {g : α → m β} {k : α → m PUnit} {l : List α}
    (each : ∀ a ∈ l, discard (g a) = k a) : discard (l.mapM g) = forM l k := by
  induction l with
  | nil => rw [List.mapM_nil, List.forM_nil, discard_eq, pure_bind]
  | cons a l ih =>
    obtain ⟨head, tail⟩ := List.forall_mem_cons.1 each
    rw [List.mapM_cons, List.forM_cons, ← head, ← ih tail]
    simp only [discard_eq, bind_assoc, pure_bind]

omit [MonadExceptOf Fault m] in
theorem forM_flatMap {α β : Type} (g : α → List β) (k : β → m PUnit) (l : List α) :
    forM (l.flatMap g) k = forM l fun a => forM (g a) k := by
  induction l with
  | nil => rfl
  | cons a l ih => rw [List.flatMap_cons, List.forM_append, List.forM_cons, ih]

/-- The lifted function does what is done for the pairs that belong together, one after the other. -/
theorem discard_binary (scalarL : left ≠ .vector) (scalarR : right ≠ .vector) (x y : Value) :
    discard (binary left right f x y) =
      forM (pairs left right x y) fun p => discard (meet left right f p.x p.y) := by
  induction x, y using aligned_induct left right with
  | step x y ih =>
    rw [binary_eq scalarL scalarR]
    cases found : aligned? left right x y with
    | none =>
      rw [pairs_none found, List.forM_cons, List.forM_nil]
      simp only [discard_eq, bind_assoc, pure_bind]
    | some elems =>
      -- Paths play no part in what is done, so the positions of the elements may be forgotten.
      have inTurn : forM (pairs left right x y) (fun p => discard (meet left right f p.x p.y)) =
          forM elems fun e => forM (pairs left right e.1 e.2) fun p =>
            discard (meet left right f p.x p.y) := by
        rw [pairs_some found, forM_flatMap, ← List.zipIdx_map_fst 0 elems, List.forM_map]
        simp only [List.forM_map, Pair.below]
        rw [List.zipIdx_map_fst]
      rw [inTurn, ← discard_mapM (ih elems found)]
      simp only [discard_eq, bind_assoc, pure_bind]

end

section
variable {ε α β : Type}

theorem discard_ok {run : Except ε α} : discard run = .ok ⟨⟩ ↔ ∃ a, run = .ok a := by
  cases run <;> simp [discard_eq, bind, Except.bind, pure, Except.pure]

theorem discard_error {run : Except ε α} {e : ε} : discard run = .error e ↔ run = .error e := by
  cases run <;> simp [discard_eq, bind, Except.bind, pure, Except.pure]

theorem forM_error {k : α → Except ε PUnit} {l : List α} {e : ε} :
    forM l k = .error e ↔ ∃ before a after, l = before ++ a :: after ∧
      (∀ b ∈ before, k b = .ok ⟨⟩) ∧ k a = .error e := by
  induction l with
  | nil =>
    refine ⟨nofun, ?_⟩
    rintro ⟨before, a, after, split, _⟩
    cases before <;> cases split
  | cons a l ih =>
    rw [List.forM_cons]
    cases here : k a with
    | error e' =>
      constructor
      · rintro ⟨⟩
        exact ⟨[], a, l, rfl, nofun, here⟩
      · rintro ⟨_ | ⟨b, before⟩, a', after, split, fine, fails⟩ <;> cases split
        · exact here.symm.trans fails
        · exact absurd (here.symm.trans (fine a List.mem_cons_self)) nofun
    | ok u =>
      refine ih.trans ⟨?_, ?_⟩
      · rintro ⟨before, a', after, rfl, fine, fails⟩
        exact ⟨a :: before, a', after, rfl, List.forall_mem_cons.2 ⟨here, fine⟩, fails⟩
      · rintro ⟨_ | ⟨b, before⟩, a', after, split, fine, fails⟩ <;> cases split
        · exact absurd (here.symm.trans fails) nofun
        · exact ⟨before, a', after, rfl, (List.forall_mem_cons.1 fine).2, fails⟩

theorem forM_ok {k : α → Except ε PUnit} {l : List α} :
    forM l k = .ok ⟨⟩ ↔ ∀ a ∈ l, k a = .ok ⟨⟩ := by
  induction l with
  | nil => exact ⟨nofun, fun _ => rfl⟩
  | cons a l ih =>
    rw [List.forM_cons, List.forall_mem_cons, ← ih]
    cases here : k a with
    | error => exact ⟨nofun, fun both => nomatch both.1⟩
    | ok => exact ⟨fun rest => ⟨rfl, rest⟩, And.right⟩

theorem getElem?_of_mapM {g : α → Except ε β} {l : List α} {rs : List β} (done : l.mapM g = .ok rs)
    (i : Nat) : (∃ a r, l[i]? = some a ∧ rs[i]? = some r ∧ g a = .ok r) ∨
      l[i]? = none ∧ rs[i]? = none := by
  induction l generalizing rs i with
  | nil =>
    cases done
    exact .inr ⟨rfl, rfl⟩
  | cons a l ih =>
    rw [List.mapM_cons] at done
    cases here : g a with
    | error =>
      rw [here] at done
      cases done
    | ok r =>
      cases rest : l.mapM g with
      | error =>
        rw [here, rest] at done
        cases done
      | ok rs' =>
        rw [here, rest] at done
        cases done
        cases i with
        | zero => exact .inl ⟨a, r, rfl, rfl, here⟩
        | succ i => exact ih rest i

end

section
variable {left right : Kind} {f : Value → Value → Except Fault Value} {x y r : Value}

theorem meet_ok {w : Value} :
    meet left right f x y = .ok w ↔ x.kind = left ∧ y.kind = right ∧ f x y = .ok w := by
  rw [meet]
  split
  · next fits => simp [fits]
  · next apart => exact ⟨nofun, fun ⟨fitsX, fitsY, _⟩ => absurd ⟨fitsX, fitsY⟩ apart⟩

/-- The value found for two values has, at every path that leads to two scalars, what the function makes of
them; where a path leads to a vector it has a vector, and where it leads nowhere it has nothing. -/
structure FollowsPaths (f : Value → Value → Except Fault Value) (x y r : Value) : Prop where
  scalar : ∀ path a b, x.spread? path = some a → y.spread? path = some b →
    a.kind ≠ .vector → b.kind ≠ .vector → (x.item? path).isSome ∨ (y.item? path).isSome →
      ∃ w, f a b = .ok w ∧ ∀ below, r.item? (path ++ below) = w.item? below
  vector : ∀ path a b, x.spread? path = some a → y.spread? path = some b →
    a.kind = .vector ∨ b.kind = .vector → ∃ rs, r.item? path = some (.vector rs)
  absent : ∀ path, x.spread? path = none ∨ y.spread? path = none → r.item? path = none

theorem followsPaths_scalars (scalarX : x.kind ≠ .vector) (scalarY : y.kind ≠ .vector)
    (here : f x y = .ok r) : FollowsPaths f x y r where
  scalar path a b first second _ _ inside := by
    rw [Value.spread?_scalar scalarX] at first
    rw [Value.spread?_scalar scalarY] at second
    cases first
    cases second
    cases path with
    | nil => exact ⟨r, here, fun _ => rfl⟩
    | cons i path => simp [Value.item?_scalar scalarX, Value.item?_scalar scalarY] at inside
  vector path a b first second either := by
    rw [Value.spread?_scalar scalarX] at first
    rw [Value.spread?_scalar scalarY] at second
    cases first
    cases second
    exact absurd either (not_or.2 ⟨scalarX, scalarY⟩)
  absent path either := by
    rw [Value.spread?_scalar scalarX, Value.spread?_scalar scalarY] at either
    exact absurd either (by simp)

theorem followsPaths_vector {elems : List (Value × Value)} {rs : List Value}
    (found : aligned? left right x y = some elems)
    (each : ∀ i : Nat, (∃ (e : Value × Value) (r : Value), elems[i]? = some e ∧ rs[i]? = some r ∧
      FollowsPaths f e.1 e.2 r) ∨ elems[i]? = none ∧ rs[i]? = none) : FollowsPaths f x y (.vector rs) where
  scalar path a b first second scalarA scalarB inside := by
    cases path with
    | nil =>
      cases first
      cases second
      exact absurd (vector_of_aligned found) (not_or.2 ⟨scalarA, scalarB⟩)
    | cons i path =>
      rcases each i with ⟨e, r, here, result, follows⟩ | ⟨beyond, _⟩
      · obtain ⟨goX, goY⟩ := spread?_aligned found here path
        obtain ⟨w, value, entries⟩ := follows.scalar path a b (goX ▸ first) (goY ▸ second) scalarA
          scalarB (item?_aligned found here inside)
        exact ⟨w, value, fun below => by rw [← entries below]; simp [Value.item?, result]⟩
      · simpa [first, second] using spread?_beyond found beyond path
  vector path a b first second either := by
    cases path with
    | nil => exact ⟨rs, rfl⟩
    | cons i path =>
      rcases each i with ⟨e, r, here, result, follows⟩ | ⟨beyond, _⟩
      · obtain ⟨goX, goY⟩ := spread?_aligned found here path
        obtain ⟨ws, entry⟩ := follows.vector path a b (goX ▸ first) (goY ▸ second) either
        exact ⟨ws, by simpa [Value.item?, result] using entry⟩
      · simpa [first, second] using spread?_beyond found beyond path
  absent path either := by
    cases path with
    | nil => simp [Value.spread?] at either
    | cons i path =>
      rcases each i with ⟨e, r, here, result, follows⟩ | ⟨_, beyond⟩
      · obtain ⟨goX, goY⟩ := spread?_aligned found here path
        have entry := follows.absent path (goX ▸ goY ▸ either)
        simpa [Value.item?, result] using entry
      · simp [Value.item?, beyond]

theorem binary_followsPaths (scalarL : left ≠ .vector) (scalarR : right ≠ .vector)
    (done : binary left right f x y = .ok r) : FollowsPaths f x y r := by
  induction x, y using aligned_induct left right generalizing r with
  | step x y ih =>
    rw [binary_eq scalarL scalarR] at done
    cases found : aligned? left right x y with
    | none =>
      rw [found] at done
      obtain ⟨rfl, rfl, here⟩ := meet_ok.1 done
      exact followsPaths_scalars scalarL scalarR here
    | some elems =>
      rw [found] at done
      cases all : elems.mapM fun p => binary left right f p.1 p.2 with
      | error =>
        simp only [all] at done
        cases done
      | ok rs =>
        simp only [all] at done
        cases done
        refine followsPaths_vector found fun i => (getElem?_of_mapM all i).imp_left ?_
        rintro ⟨e, r, here, result, run⟩
        exact ⟨e, r, here, result, ih elems found e (List.mem_of_getElem? here) run⟩

end

/-- A function of two scalars, lifted to vectors, follows the paths. It is called for the pairs that belong
together, one after the other, and only if both are of the right kind; it succeeds if all these calls
do, with what they make of the items at every path, and else fails as the first one does. A scalar
of the wrong kind is an error against anything. -/
theorem binary_follows_paths {left right : Kind} (scalarL : left ≠ .vector) (scalarR : right ≠ .vector)
    (x y : Value) :
    (∀ (m : Type → Type) [Monad m] [MonadExceptOf Fault m] [LawfulMonad m]
      (f : Value → Value → m Value), discard (binary left right f x y) =
        forM (pairs left right x y) fun p => discard (meet left right f p.x p.y)) ∧
    ((pairs left right x y).map Pair.path).Pairwise (· < ·) ∧
    (∀ p ∈ pairs left right x y, x.spread? p.path = some p.x ∧ y.spread? p.path = some p.y) ∧
    ∀ f : Value → Value → Except Fault Value,
      (x.kind ≠ .vector ∧ x.kind ≠ left ∨ y.kind ≠ .vector ∧ y.kind ≠ right →
        binary left right f x y = .error (misfit left right x y)) ∧
      ((∃ r, binary left right f x y = .ok r) ↔ ∀ p ∈ pairs left right x y,
        p.x.kind = left ∧ p.y.kind = right ∧ ∃ w, f p.x p.y = .ok w) ∧
      (∀ r, binary left right f x y = .ok r → FollowsPaths f x y r) ∧
      ∀ e, binary left right f x y = .error e ↔ ∃ before p after,
        pairs left right x y = before ++ p :: after ∧
          (∀ q ∈ before, ∃ w, meet left right f q.x q.y = .ok w) ∧
          meet left right f p.x p.y = .error e := by
  refine ⟨fun _ _ _ _ _ => discard_binary scalarL scalarR x y, pairs_sorted left right x y,
    fun _ => spread?_of_mem_pairs, fun f =>
      ⟨binary_stray scalarL scalarR, ?_, fun _ => binary_followsPaths scalarL scalarR, ?_⟩⟩
  · rw [← discard_ok, discard_binary scalarL scalarR, forM_ok]
    refine forall₂_congr fun p _ => discard_ok.trans ?_
    simp only [meet_ok, exists_and_left]
  · intro e
    rw [← discard_error, discard_binary scalarL scalarR, forM_error]
    simp only [discard_ok, discard_error]

/-- A ragged pair of vectors, in which scalars meet vectors on both sides. -/
theorem binary_follows_paths_ragged : Kind.bool ≠ .vector ∧ Kind.string ≠ .vector ∧
    ∃ r, binary .bool .string (fun x y => (.ok (.vector [x, y]) : Except Fault Value))
        (.vector [.bool true, .vector [.bool false]])
        (.vector [.vector [.string "a", .string "b"], .string "c", .string "d"]) = .ok r ∧
      r.item? [0, 1] = some (.vector [.bool true, .string "b"]) ∧ r.item? [2] = none := by
  have scalars (b : Bool) (s : String) : pairs .bool .string (.bool b) (.string s) =
      [⟨[], .bool b, .string s⟩] := pairs_none rfl
  have across (b : Bool) (ys : List Value) : pairs .bool .string (.bool b) (.vector ys) = _ :=
    pairs_some rfl
  have along (xs : List Value) (s : String) : pairs .bool .string (.vector xs) (.string s) = _ :=
    pairs_some rfl
  have law := (@binary_follows_paths .bool .string nofun nofun
    (.vector [.bool true, .vector [.bool false]])
    (.vector [.vector [.string "a", .string "b"], .string "c", .string "d"])).2.2.2
      fun x y => .ok (.vector [x, y])
  obtain ⟨r, done⟩ := law.2.1.2 (by
    rw [pairs_some rfl]
    simp [scalars, across, along, Pair.below, Value.kind])
  have follows := law.2.2.1 r done
  obtain ⟨_, ⟨⟩, entries⟩ := follows.scalar [0, 1] (.bool true) (.string "b") rfl rfl nofun nofun
    (.inr rfl)
  exact ⟨nofun, nofun, r, done, entries [], follows.absent [2] (.inl rfl)⟩

end Broadcast

end Formula
