import Formula.Proofs.Doubles
import Formula.Proofs.Trees

/-! Structural equality of values and of trees: whatever is compared, a thing is the same as itself,
and sameness can be turned round and chained. -/
namespace Formula

section Lists

open List (Forall₂)

variable {α β γ : Type} {R : α → β → Prop} {S : β → γ → Prop}

theorem forall₂_symm_of {Q : β → α → Prop} {as : List α} {bs : List β}
    (related : Forall₂ R as bs) (each : ∀ a ∈ as, ∀ b, R a b → Q b a) : Forall₂ Q bs as := by
  induction related with
  | nil => exact .nil
  | cons head _ ih =>
    exact .cons (each _ List.mem_cons_self _ head)
      (ih fun a member => each a (List.mem_cons_of_mem _ member))

theorem forall₂_trans_of {Q : α → γ → Prop} {as : List α} {bs : List β} {cs : List γ}
    (first : Forall₂ R as bs) (second : Forall₂ S bs cs)
    (each : ∀ a ∈ as, ∀ b c, R a b → S b c → Q a c) : Forall₂ Q as cs := by
  induction first generalizing cs with
  | nil => cases second; exact .nil
  | cons head _ ih =>
    cases second with
    | cons next rest =>
      exact .cons (each _ List.mem_cons_self _ _ head next)
        (ih rest fun a member => each a (List.mem_cons_of_mem _ member))

end Lists

theorem sameNumber_refl (x : Float) : sameNumber x x = true := sameNumber_iff.2 (.inl rfl)

theorem sameNumber_symm {x y : Float} (same : sameNumber x y = true) : sameNumber y x = true :=
  sameNumber_iff.2 ((sameNumber_iff.1 same).imp Eq.symm And.symm)

theorem sameNumber_trans {x y z : Float} (first : sameNumber x y = true)
    (second : sameNumber y z = true) : sameNumber x z = true := by
  rcases sameNumber_iff.1 first with rfl | ⟨zeroX, _⟩
  · exact second
  rcases sameNumber_iff.1 second with rfl | ⟨_, zeroZ⟩
  · exact first
  · exact sameNumber_iff.2 (.inr ⟨zeroX, zeroZ⟩)

/-- A value that is made of numbers and vectors which nest at most `levels` deep. -/
inductive Value.Numeric : Nat → Value → Prop where
  | number {levels x} : Numeric levels (.number x)
  | vector {levels elems} (each : ∀ v ∈ elems, Numeric levels v) :
    Numeric (levels + 1) (.vector elems)

namespace Value

/-- Induction over values; what a function captured and the elements of a vector bring their
hypotheses along. -/
@[elab_as_elim, induction_eliminator]
theorem induct {motive : Value → Prop} (number : ∀ x, motive (.number x))
    (string : ∀ s, motive (.string s)) (bool : ∀ b, motive (.bool b))
    (function : ∀ c vs, (∀ v ∈ vs, motive v) → motive (.function c vs))
    (vector : ∀ vs, (∀ v ∈ vs, motive v) → motive (.vector vs)) (v : Value) : motive v :=
  @Value.rec motive (fun vs => ∀ v ∈ vs, motive v) number string bool function vector
    (fun _ member => absurd member List.not_mem_nil)
    (fun _ _ head tail _ member => (List.mem_cons.1 member).elim (· ▸ head) (tail _)) v

theorem sameAll_iff {vs ws : List Value} :
    sameAll vs ws = true ↔ List.Forall₂ (fun v w => v.same w = true) vs ws := by
  induction vs generalizing ws with
  | nil => cases ws <;> simp [sameAll]
  | cons v vs ih => cases ws <;> simp [sameAll, ih]

theorem same_refl (v : Value) : v.same v = true := by
  induction v with
  | number x => exact sameNumber_refl x
  | string | bool => simp [same]
  | function c vs ih => rw [same, sameAll_iff.2 (List.forall₂_same.2 ih), beq_self_eq_true]; rfl
  | vector vs ih => exact sameAll_iff.2 (List.forall₂_same.2 ih)

theorem same_symm {v w : Value} (alike : v.same w = true) : w.same v = true := by
  induction v generalizing w with
  | number x => cases w <;> simp_all [same, sameNumber_symm]
  | string | bool => cases w <;> simp_all [same]
  | function c vs ih =>
    cases w with
    | function d ws =>
      rw [same, Bool.and_eq_true, beq_iff_eq] at alike ⊢
      exact ⟨alike.1.symm, sameAll_iff.2
        (forall₂_symm_of (sameAll_iff.1 alike.2) fun v member _ => ih v member)⟩
    | _ => simp [same] at alike
  | vector vs ih =>
    cases w with
    | vector ws =>
      exact sameAll_iff.2 (forall₂_symm_of (sameAll_iff.1 alike) fun v member _ => ih v member)
    | _ => simp [same] at alike

theorem same_trans {u v w : Value} (first : u.same v = true) (second : v.same w = true) :
    u.same w = true := by
  induction u generalizing v w with
  | number x =>
    cases v <;> cases w <;> simp only [same, Bool.false_eq_true] at first second ⊢
    exact sameNumber_trans first second
  | string | bool => cases v <;> cases w <;> simp_all [same]
  | function c us ih =>
    cases v <;> cases w <;>
      simp only [same, Bool.false_eq_true, Bool.and_eq_true, beq_iff_eq] at first second ⊢
    exact ⟨first.1.trans second.1, sameAll_iff.2 (forall₂_trans_of (sameAll_iff.1 first.2)
      (sameAll_iff.1 second.2) fun u member _ _ => ih u member)⟩
  | vector us ih =>
    cases v <;> cases w <;> simp only [same, Bool.false_eq_true] at first second ⊢
    exact sameAll_iff.2 (forall₂_trans_of (sameAll_iff.1 first) (sameAll_iff.1 second)
      fun u member _ _ => ih u member)

end Value

namespace Expr

variable {α β γ : Type}

theorem sameAll_iff {es : List (Expr α)} {fs : List (Expr β)} :
    sameAll es fs = true ↔ List.Forall₂ (fun e f => e.same f = true) es fs := by
  induction es generalizing fs with
  | nil => cases fs <;> simp [sameAll]
  | cons e es ih => cases fs <;> simp [sameAll, ih]

theorem same_refl (e : Expr α) : e.same e = true := by
  induction e with
  | literal t v => exact v.same_refl
  | vector t es ih => exact sameAll_iff.2 (List.forall₂_same.2 ih)
  | var t x => simp [same]
  | apply t f x ihf ihx => rw [same, ihf, ihx]; rfl
  | letIn t x b e ihb ihe => rw [same, ihb, ihe, beq_self_eq_true]; rfl

theorem same_symm {e : Expr α} {f : Expr β} (alike : e.same f = true) : f.same e = true := by
  induction e generalizing f with
  | literal t v =>
    cases f <;> simp only [same, Bool.false_eq_true] at alike ⊢
    exact Value.same_symm alike
  | vector t es ih =>
    cases f <;> simp only [same, Bool.false_eq_true] at alike ⊢
    exact sameAll_iff.2 (forall₂_symm_of (sameAll_iff.1 alike) fun e member _ => ih e member)
  | var t x => cases f <;> simp_all [same]
  | apply t g x ihg ihx =>
    cases f <;> simp only [same, Bool.false_eq_true, Bool.and_eq_true] at alike ⊢
    exact ⟨ihg alike.1, ihx alike.2⟩
  | letIn t x b e ihb ihe =>
    cases f <;> simp only [same, Bool.false_eq_true, Bool.and_eq_true, beq_iff_eq] at alike ⊢
    exact ⟨⟨alike.1.1.symm, ihb alike.1.2⟩, ihe alike.2⟩

theorem same_trans {e : Expr α} {f : Expr β} {g : Expr γ} (first : e.same f = true)
    (second : f.same g = true) : e.same g = true := by
  induction e generalizing f g with
  | literal t v =>
    cases f <;> cases g <;> simp only [same, Bool.false_eq_true] at first second ⊢
    exact Value.same_trans first second
  | vector t es ih =>
    cases f <;> cases g <;> simp only [same, Bool.false_eq_true] at first second ⊢
    exact sameAll_iff.2 (forall₂_trans_of (sameAll_iff.1 first) (sameAll_iff.1 second)
      fun e member _ _ => ih e member)
  | var t x => cases f <;> cases g <;> simp_all [same]
  | apply t h x ihh ihx =>
    cases f <;> cases g <;>
      simp only [same, Bool.false_eq_true, Bool.and_eq_true] at first second ⊢
    exact ⟨ihh first.1 second.1, ihx first.2 second.2⟩
  | letIn t x b e ihb ihe =>
    cases f <;> cases g <;>
      simp only [same, Bool.false_eq_true, Bool.and_eq_true, beq_iff_eq] at first second ⊢
    exact ⟨⟨first.1.1.trans second.1.1, ihb first.1.2 second.1.2⟩, ihe first.2 second.2⟩

theorem map_same (f : α → β) (e : Expr α) : (e.map f).same e = true := by
  induction e with
  | literal t v => exact v.same_refl
  | vector t es ih =>
    refine sameAll_iff.2 ?_
    induction es with
    | nil => exact .nil
    | cons e es elems =>
      exact .cons (ih e List.mem_cons_self) (elems fun c member => ih c (List.mem_cons_of_mem _ member))
  | var t x => simp [map, same]
  | apply t g x ihg ihx => rw [map, same, ihg, ihx]; rfl
  | letIn t x b e ihb ihe => rw [map, same, ihb, ihe, beq_self_eq_true]; rfl

end Expr

end Formula
