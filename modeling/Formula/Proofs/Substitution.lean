import Formula.Proofs.Inlining

/-! Inlining as substitution. The innermost `let` is taken away first: its bound expression is put in the
place of its name, in a body that has no `let` any more, so that nothing there can capture a name of
it. Main statement: inlining from the outside, with a scope, is this substitution from the inside. -/
namespace Formula.Expr

variable {α : Type}

mutual

/-- The tree with an expression in the place of a name, except where a `let` of the tree binds it. -/
def replace (x : String) (b : Expr α) : Expr α → Expr α
  | .literal t v => .literal t v
  | .vector t es => .vector t (replaceAll x b es)
  | .var t y => if y = x then b else .var t y
  | .apply t f a => .apply t (replace x b f) (replace x b a)
  | .letIn t y c e => .letIn t y (replace x b c) (if y = x then e else replace x b e)

def replaceAll (x : String) (b : Expr α) : List (Expr α) → List (Expr α)
  | [] => []
  | e :: es => replace x b e :: replaceAll x b es

end

mutual

/-- The tree without its `let`s, the innermost taken away first. -/
def unfoldLets : Expr α → Expr α
  | .literal t v => .literal t v
  | .vector t es => .vector t (unfoldLetsAll es)
  | .var t x => .var t x
  | .apply t f x => .apply t (unfoldLets f) (unfoldLets x)
  | .letIn _ x b e => replace x (unfoldLets b) (unfoldLets e)

def unfoldLetsAll : List (Expr α) → List (Expr α)
  | [] => []
  | e :: es => unfoldLets e :: unfoldLetsAll es

end

/-- A scope in which one more name stands for an expression, outside all others. -/
def outside (x : String) (b : Expr α) (scope : List (String × Expr α)) : List (String × Expr α) :=
  scope.map (fun p => (p.1, replace x b p.2)) ++ [(x, b)]

theorem lookup_outside (x : String) (b : Expr α) (scope : List (String × Expr α)) (y : String) :
    (outside x b scope).lookup y =
      ((scope.lookup y).map (replace x b)).or (if y = x then some b else none) := by
  induction scope with
  | nil =>
    by_cases same : y = x
    · simp [outside, same]
    · simp [outside, List.lookup_cons, same, beq_eq_false_iff_ne.2 same]
  | cons p scope ih =>
    obtain ⟨z, c⟩ := p
    by_cases here : y = z
    · simp [outside, here]
    · simpa [outside, List.lookup_cons, beq_eq_false_iff_ne.2 here] using ih

/-- What the names of the scope stand for is inlined already, so a `let` inside captures none of it. -/
theorem replace_inline (x : String) (b e : Expr α) (scope : List (String × Expr α)) :
    replace x b (e.inline scope) = e.inline (outside x b scope) := by
  induction e generalizing scope with
  | literal t v => rfl
  | vector t es ih =>
    simp only [inline, replace, vector.injEq, true_and]
    induction es with
    | nil => rfl
    | cons e es rest =>
      rw [inlineAll, replaceAll, inlineAll, ih e List.mem_cons_self,
        rest fun c member => ih c (List.mem_cons_of_mem _ member)]
  | var t y =>
    rw [inline, inline, lookup_outside]
    cases scope.lookup y with
    | some c => rfl
    | none => by_cases same : y = x <;> simp [replace, same]
  | apply t f a ihf iha => rw [inline, replace, ihf, iha, inline]
  | letIn t y c e ihc ihe =>
    rw [inline, ihe, inline, ← ihc]
    rfl

/-- Inlining is substitution from the innermost `let` outwards. -/
theorem inline_eq_unfoldLets (e : Expr α) : e.inline [] = e.unfoldLets := by
  induction e with
  | literal | var => rfl
  | vector t es ih =>
    simp only [inline, unfoldLets, vector.injEq, true_and]
    induction es with
    | nil => rfl
    | cons e es rest =>
      rw [inlineAll, unfoldLetsAll, ih e List.mem_cons_self,
        rest fun c member => ih c (List.mem_cons_of_mem _ member)]
  | apply t f x ihf ihx => rw [inline, unfoldLets, ihf, ihx]
  | letIn t x b e ihb ihe =>
    rw [unfoldLets, ← ihb, ← ihe, replace_inline]
    rfl

end Formula.Expr
