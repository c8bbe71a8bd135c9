import Formula.Proofs.Equality
import Formula.Proofs.Negation

/-! Canonical forms. Values are the same exactly when they are one value after every zero has been made
positive, since there is one NaN; and trees exactly when they are one tree after their tags have been
dropped, too. Main statement: structural equality is an equivalence that discerns canonical forms and
nothing else, so neither positions nor the identities under which nodes are shared and keep values. -/
namespace Formula

/-- The number, with a positive sign if it is zero. -/
def canonicalNumber (x : Float) : Float := if x == 0 then 0 else x

theorem sameNumber_iff_canonical {x y : Float} :
    sameNumber x y = true ↔ canonicalNumber x = canonicalNumber y := by
  have zero : IsZero 0 := ⟨.positive, rfl⟩
  rw [sameNumber_iff]
  unfold canonicalNumber
  by_cases zeroX : IsZero x <;> by_cases zeroY : IsZero y <;>
    simp only [beq_zero_iff, zeroX, zeroY, if_true, if_false, and_self, and_false, or_true, or_false,
      false_and]
  · exact ⟨fun same => absurd (same ▸ zeroX) zeroY, fun same => absurd (same ▸ zero) zeroY⟩
  · exact ⟨fun same => absurd (same ▸ zeroY) zeroX, fun same => absurd (same ▸ zero) zeroX⟩

namespace Value

mutual

/-- The value with every zero in it positive. -/
def canonical : Value → Value
  | .number x => .number (canonicalNumber x)
  | .string s => .string s
  | .bool b => .bool b
  | .function c vs => .function c (canonicalAll vs)
  | .vector vs => .vector (canonicalAll vs)

def canonicalAll : List Value → List Value
  | [] => []
  | v :: vs => canonical v :: canonicalAll vs

end

theorem sameAll_iff_canonicalAll {vs ws : List Value}
    (each : ∀ v ∈ vs, ∀ w : Value, v.same w = true ↔ v.canonical = w.canonical) :
    sameAll vs ws = true ↔ canonicalAll vs = canonicalAll ws := by
  induction vs generalizing ws with
  | nil => cases ws <;> simp [sameAll, canonicalAll]
  | cons v vs ih =>
    obtain ⟨head, tail⟩ := List.forall_mem_cons.1 each
    cases ws with
    | nil => simp [sameAll, canonicalAll]
    | cons w ws => rw [sameAll, canonicalAll, canonicalAll, Bool.and_eq_true, head, ih tail, List.cons.injEq]

theorem same_iff_canonical {v w : Value} : v.same w = true ↔ v.canonical = w.canonical := by
  induction v generalizing w with
  | number x => cases w <;> simp [same, canonical, sameNumber_iff_canonical]
  | string | bool => cases w <;> simp [same, canonical]
  | function c vs ih =>
    have arguments (ws : List Value) : sameAll vs ws = true ↔ canonicalAll vs = canonicalAll ws :=
      sameAll_iff_canonicalAll fun v member w => ih v member
    cases w <;> simp [same, canonical, arguments]
  | vector vs ih =>
    have elements (ws : List Value) : sameAll vs ws = true ↔ canonicalAll vs = canonicalAll ws :=
      sameAll_iff_canonicalAll fun v member w => ih v member
    cases w <;> simp [same, canonical, elements]

end Value

namespace Expr

variable {α β γ δ : Type}

mutual

/-- The tree without tags, with every zero in it positive. -/
def canonical : Expr α → Expr Unit
  | .literal _ v => .literal () v.canonical
  | .vector _ es => .vector () (canonicalAll es)
  | .var _ x => .var () x
  | .apply _ f x => .apply () (canonical f) (canonical x)
  | .letIn _ x b e => .letIn () x (canonical b) (canonical e)

def canonicalAll : List (Expr α) → List (Expr Unit)
  | [] => []
  | e :: es => canonical e :: canonicalAll es

end

theorem sameAll_iff_canonicalAll {ds : List (Expr α)} {es : List (Expr β)}
    (each : ∀ d ∈ ds, ∀ e : Expr β, d.same e = true ↔ d.canonical = e.canonical) :
    sameAll ds es = true ↔ canonicalAll ds = canonicalAll es := by
  induction ds generalizing es with
  | nil => cases es <;> simp [sameAll, canonicalAll]
  | cons d ds ih =>
    obtain ⟨head, tail⟩ := List.forall_mem_cons.1 each
    cases es with
    | nil => simp [sameAll, canonicalAll]
    | cons e es => rw [sameAll, canonicalAll, canonicalAll, Bool.and_eq_true, head, ih tail, List.cons.injEq]

theorem same_iff_canonical {d : Expr α} {e : Expr β} :
    d.same e = true ↔ d.canonical = e.canonical := by
  induction d generalizing e with
  | literal t v => cases e <;> simp [same, canonical, Value.same_iff_canonical]
  | vector t ds ih =>
    have elements (es : List (Expr β)) : sameAll ds es = true ↔ canonicalAll ds = canonicalAll es :=
      sameAll_iff_canonicalAll fun d member e => ih d member
    cases e <;> simp [same, canonical, elements]
  | var t x => cases e <;> simp [same, canonical]
  | apply t f x ihf ihx => cases e <;> simp [same, canonical, ihf, ihx]
  | letIn t x b c ihb ihc => cases e <;> simp [same, canonical, ihb, ihc, and_assoc]

theorem canonical_map (f : α → γ) (e : Expr α) : (e.map f).canonical = e.canonical :=
  same_iff_canonical.1 (map_same f e)

end Expr

/-- Structural equality of values and of trees is an equivalence. Values are equal exactly when they are
one value once their zeros are positive, and trees when they are one tree once, besides, the tags are
dropped; so other positions and other identities, by which nodes are shared and keep values, change
nothing. -/
theorem same_equivalence {α β γ δ : Type} :
    (Equivalence fun v w : Value => v.same w = true) ∧
      (Equivalence fun d e : Expr α => d.same e = true) ∧
      (∀ v w : Value, v.same w = true ↔ v.canonical = w.canonical) ∧
      (∀ (d : Expr α) (e : Expr β), d.same e = true ↔ d.canonical = e.canonical) ∧
      ∀ (f : α → γ) (g : β → δ) (d : Expr α) (e : Expr β), (d.map f).same (e.map g) = d.same e := by
  refine ⟨⟨Value.same_refl, Value.same_symm, Value.same_trans⟩,
    ⟨Expr.same_refl, Expr.same_symm, Expr.same_trans⟩, fun v w => Value.same_iff_canonical,
    fun d e => Expr.same_iff_canonical, fun f g d e => ?_⟩
  rw [Bool.eq_iff_iff, Expr.same_iff_canonical, Expr.same_iff_canonical, Expr.canonical_map,
    Expr.canonical_map]

end Formula
