import Formula.Proofs.Equality
import Formula.Proofs.Meaning

/-! Inlining of every `let`: a name stands for the expression its innermost `let` binds it to, which is
inlined where the `let` stands, so that no name of it is captured. Main statement: a value of a
tree is a value of the inlined tree. -/
namespace Formula

namespace Expr

variable {α β : Type}

mutual

/-- The tree without its `let`s, in which names stand for the given expressions. -/
def inline (scope : List (String × Expr α)) : Expr α → Expr α
  | .literal t v => .literal t v
  | .vector t es => .vector t (inlineAll scope es)
  | .var t x => (scope.lookup x).getD (.var t x)
  | .apply t f x => .apply t (inline scope f) (inline scope x)
  | .letIn _ x b e => inline ((x, inline scope b) :: scope) e

def inlineAll (scope : List (String × Expr α)) : List (Expr α) → List (Expr α)
  | [] => []
  | e :: es => inline scope e :: inlineAll scope es

end

mutual

/-- The literals of a tree, and its variables outside the `let`s that bind them. -/
def leaves (bound : List String) : Expr α → List (Expr α)
  | .literal t v => [.literal t v]
  | .vector _ es => leavesAll bound es
  | .var t x => if x ∈ bound then [] else [.var t x]
  | .apply _ f x => leaves bound f ++ leaves bound x
  | .letIn _ x b e => leaves bound b ++ leaves (x :: bound) e

def leavesAll (bound : List String) : List (Expr α) → List (Expr α)
  | [] => []
  | e :: es => leaves bound e ++ leavesAll bound es

end

/-- Whether a node has nothing below it whatever it is, as a literal or a variable has. -/
def isLeaf : Expr α → Bool
  | .literal _ _ | .var _ _ => true
  | _ => false

theorem leaves_subset (bound : List String) (e : Expr α) : e.leaves bound ⊆ e.preorder := by
  induction e generalizing bound with
  | literal => exact List.Subset.refl _
  | vector t es ih =>
    refine List.subset_cons_of_subset _ ?_
    induction es with
    | nil => exact List.Subset.refl _
    | cons e es rest =>
      exact List.append_subset.2 ⟨List.subset_append_of_subset_left _ (ih e List.mem_cons_self bound),
        List.subset_append_of_subset_right _ (rest fun c member => ih c (List.mem_cons_of_mem _ member))⟩
  | var t x =>
    unfold leaves
    split
    · exact List.nil_subset _
    · exact List.Subset.refl _
  | apply t f x ihf ihx =>
    exact List.subset_cons_of_subset _ (List.append_subset.2
      ⟨List.subset_append_of_subset_left _ (ihf bound), List.subset_append_of_subset_right _ (ihx bound)⟩)
  | letIn t x b e ihb ihe =>
    exact List.subset_cons_of_subset _ (List.append_subset.2
      ⟨List.subset_append_of_subset_left _ (ihb bound),
        List.subset_append_of_subset_right _ (ihe (x :: bound))⟩)

theorem leavesAll_subset (bound : List String) (es : List (Expr α)) :
    leavesAll bound es ⊆ preorderAll es := by
  induction es with
  | nil => exact List.Subset.refl _
  | cons e es rest =>
    exact List.append_subset.2 ⟨List.subset_append_of_subset_left _ (leaves_subset bound e),
      List.subset_append_of_subset_right _ rest⟩

/-- What the names of a scope mean: an expression that has the value of the name, or, for a free
name, what it means outside. -/
def Resolves (f : Functions) (place : α → Position) (scope : List (String × Expr α))
    (outside names : Names) : Prop :=
  ∀ x, match scope.lookup x with
    | some b => ∃ v, names x = some v ∧ b.meaning f place outside = .ok v
    | none => names x = outside x

variable {f : Functions} {place : α → Position} {scope : List (String × Expr α)}
  {outside names : Names}

theorem Resolves.nil : Resolves f place [] outside outside := fun _ => rfl

theorem Resolves.bind (resolves : Resolves f place scope outside names) {x : String} {b : Expr α}
    {v : Value} (value : b.meaning f place outside = .ok v) :
    Resolves f place ((x, b) :: scope) outside (names.bind x v) := by
  intro y
  by_cases same : y = x
  · subst same
    simp [Names.bind, value]
  · have other := resolves y
    simpa [Names.bind, List.lookup_cons, same, beq_eq_false_iff_ne.2 same] using other

theorem Resolves.bound (resolves : Resolves f place scope outside names) {x : String} {b : Expr α}
    {v : Value} (found : scope.lookup x = some b) (value : names x = some v) :
    b.meaning f place outside = .ok v := by
  have known := resolves x
  rw [found] at known
  obtain ⟨w, named, meant⟩ := known
  rw [named] at value
  cases value
  exact meant

theorem Resolves.free (resolves : Resolves f place scope outside names) {x : String}
    (absent : scope.lookup x = none) : names x = outside x := by
  have known := resolves x
  rwa [absent] at known

/-- A value of a tree is a value of the inlined tree. -/
theorem meaning_inline {e : Expr α} {v : Value} (resolves : Resolves f place scope outside names)
    (value : e.meaning f place names = .ok v) :
    (e.inline scope).meaning f place outside = .ok v := by
  induction e generalizing scope names v with
  | literal t w => exact value
  | vector t es ih =>
    obtain ⟨vs, values, rfl⟩ := meaning_vector_ok.1 value
    refine meaning_vector_ok.2 ⟨vs, ?_, rfl⟩
    clear value
    induction es generalizing vs with
    | nil => exact values
    | cons e es elems =>
      obtain ⟨w, ws, head, tail, rfl⟩ := meanings_cons_ok.1 values
      exact meanings_cons_ok.2 ⟨w, ws, ih e List.mem_cons_self resolves head,
        elems (fun c member => ih c (List.mem_cons_of_mem _ member)) ws tail, rfl⟩
  | var t x =>
    rw [meaning_var_ok] at value
    rw [inline]
    cases found : scope.lookup x with
    | some b => exact resolves.bound found value
    | none => exact meaning_var_ok.2 ((resolves.free found).symm.trans value)
  | apply t g x ihg ihx =>
    obtain ⟨callee, captured, arg, function, argument, answer⟩ := meaning_apply_ok.1 value
    exact meaning_apply_ok.2
      ⟨callee, captured, arg, ihg resolves function, ihx resolves argument, answer⟩
  | letIn t x b e ihb ihe =>
    obtain ⟨w, bound, body⟩ := meaning_letIn_ok.1 value
    exact ihe (resolves.bind (ihb resolves bound)) body

/-- Scopes that bind the same names to the same expressions. -/
def SameScopes (scope : List (String × Expr α)) (other : List (String × Expr β)) : Prop :=
  List.Forall₂ (fun p q => p.1 = q.1 ∧ p.2.same q.2 = true) scope other

theorem SameScopes.refl (scope : List (String × Expr α)) : SameScopes scope scope :=
  List.forall₂_same.2 fun p _ => ⟨rfl, p.2.same_refl⟩

theorem SameScopes.lookup {scope : List (String × Expr α)} {other : List (String × Expr β)}
    (same : SameScopes scope other) (x : String) :
    (∃ b c, scope.lookup x = some b ∧ other.lookup x = some c ∧ b.same c = true) ∨
      (scope.lookup x = none ∧ other.lookup x = none) := by
  induction same with
  | nil => exact .inr ⟨rfl, rfl⟩
  | @cons p q scope other head _ ih =>
    obtain ⟨y, b⟩ := p
    obtain ⟨z, c⟩ := q
    obtain ⟨rfl, alike⟩ := head
    by_cases here : x = y
    · subst here
      exact .inl ⟨b, c, by simp, by simp, alike⟩
    · simpa [List.lookup_cons, here, beq_eq_false_iff_ne.2 here] using ih

end Expr

end Formula
