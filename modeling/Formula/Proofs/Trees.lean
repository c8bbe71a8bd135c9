import Formula.Expr
import Mathlib

/-! Trees as sets of nodes: induction, what lies below a node, and height. The elements of a vector
come into an induction one by one, so that a vector is treated like any other node. -/
namespace Formula.Expr

variable {α β : Type}

@[elab_as_elim, induction_eliminator]
theorem induct {motive : Expr α → Prop} (literal : ∀ t v, motive (.literal t v))
    (vector : ∀ t es, (∀ e ∈ es, motive e) → motive (.vector t es))
    (var : ∀ t x, motive (.var t x))
    (apply : ∀ t f x, motive f → motive x → motive (.apply t f x))
    (letIn : ∀ t x b e, motive b → motive e → motive (.letIn t x b e)) (e : Expr α) : motive e :=
  @Expr.rec α motive (fun es => ∀ e ∈ es, motive e) literal vector var apply letIn
    (fun _ member => absurd member List.not_mem_nil)
    (fun _ _ head tail _ member => (List.mem_cons.1 member).elim (· ▸ head) (tail _)) e

/-- Induction from the children of a node to the node, whatever its kind. -/
theorem induct_children {motive : Expr α → Prop}
    (node : ∀ e, (∀ c ∈ e.children, motive c) → motive e) (e : Expr α) : motive e := by
  induction e with
  | literal | var => exact node _ (by simp [children])
  | vector t es ih => exact node _ ih
  | apply t f x ihf ihx => exact node _ (by simp [children, ihf, ihx])
  | letIn t x b e ihb ihe => exact node _ (by simp [children, ihb, ihe])

theorem preorderAll_eq_flatMap (es : List (Expr α)) : preorderAll es = es.flatMap preorder := by
  induction es with
  | nil => rfl
  | cons e es ih => rw [preorderAll, ih, List.flatMap_cons]

theorem preorder_eq (e : Expr α) : e.preorder = e :: e.children.flatMap preorder := by
  cases e <;> simp [preorder, children, preorderAll_eq_flatMap]

theorem mem_preorder {m e : Expr α} :
    m ∈ e.preorder ↔ m = e ∨ ∃ c ∈ e.children, m ∈ c.preorder := by
  rw [preorder_eq, List.mem_cons, List.mem_flatMap]

theorem mem_preorder_self (e : Expr α) : e ∈ e.preorder := mem_preorder.2 (.inl rfl)

theorem preorder_subset_of_child {c e : Expr α} (child : c ∈ e.children) :
    c.preorder ⊆ e.preorder := fun _ below => mem_preorder.2 (.inr ⟨c, child, below⟩)

theorem preorder_length_pos (e : Expr α) : 0 < e.preorder.length :=
  List.length_pos_of_mem (mem_preorder_self e)

theorem preorder_length_le {c e : Expr α} (child : c ∈ e.children) :
    c.preorder.length + 1 ≤ e.preorder.length := by
  have part : c.preorder.Sublist (e.children.flatMap preorder) :=
    List.sublist_flatten_of_mem (List.mem_map_of_mem child)
  rw [preorder_eq e, List.length_cons]
  exact Nat.succ_le_succ part.length_le

/-- No node lies below itself. -/
theorem not_mem_preorder_of_child {c e : Expr α} (child : c ∈ e.children) : e ∉ c.preorder := by
  have shrinks {m n : Expr α} (below : m ∈ n.preorder) : m.preorder.length ≤ n.preorder.length := by
    induction n using induct_children with
    | node n ih =>
      rcases mem_preorder.1 below with rfl | ⟨d, parent, deeper⟩
      · exact Nat.le_refl _
      · exact Nat.le_of_succ_le (Nat.le_trans (Nat.succ_le_succ (ih d parent deeper))
          (preorder_length_le parent))
  intro below
  exact absurd (shrinks below) (Nat.not_le_of_lt (preorder_length_le child))

theorem child_mem_preorder {c m e : Expr α} (child : c ∈ m.children) (below : m ∈ e.preorder) :
    c ∈ e.preorder := by
  induction e using induct_children with
  | node e ih =>
    rcases mem_preorder.1 below with rfl | ⟨d, parent, deeper⟩
    · exact preorder_subset_of_child child (mem_preorder_self c)
    · exact preorder_subset_of_child parent (ih d parent deeper)

theorem preorder_subset_of_closed {ns : List (Expr α)}
    (closed : ∀ n ∈ ns, ∀ c ∈ n.children, c ∈ ns) {m : Expr α} (member : m ∈ ns) :
    m.preorder ⊆ ns := by
  induction m using induct_children with
  | node m ih =>
    intro k below
    rcases mem_preorder.1 below with rfl | ⟨c, child, deeper⟩
    · exact member
    · exact ih c child (closed m member c child) deeper

theorem mapAll_eq_map (f : α → β) (es : List (Expr α)) : mapAll f es = es.map (map f) := by
  induction es with
  | nil => rfl
  | cons e es ih => rw [mapAll, ih, List.map_cons]

mutual

/-- The number of nodes on the longest way down. -/
def height : Expr α → Nat
  | .literal _ _ | .var _ _ => 1
  | .vector _ es => heights es + 1
  | .apply _ f x => max (height f) (height x) + 1
  | .letIn _ _ b e => max (height b) (height e) + 1

def heights : List (Expr α) → Nat
  | [] => 0
  | e :: es => max (height e) (heights es)

end

end Formula.Expr
