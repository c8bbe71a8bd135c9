import Formula.Node
import Formula.Proofs.Trees

/-! Nodes of their own for a tree. Main statement: identities are given out in a row, in the order in
which the nodes stand, so that no node stands twice. -/
namespace Formula.Node

/-- Labelling gives out identities in a row and changes nothing else. -/
structure Labelled (tree : Expr Position) (next : Nat) (result : Node × Nat) : Prop where
  mapped : Expr.map Tag.position result.1 = tree
  identities : result.1.preorder.map identity = List.range' next tree.preorder.length
  next : result.2 = next + tree.preorder.length

theorem labelled (tree : Expr Position) (next : Nat) : Labelled tree next (label next tree) := by
  induction tree generalizing next with
  | literal p v => exact ⟨rfl, rfl, rfl⟩
  | var p x => exact ⟨rfl, rfl, rfl⟩
  | vector p es ih =>
    have each : ∀ next, Expr.mapAll Tag.position (labelAll next es).1 = es ∧
        (Expr.preorderAll (labelAll next es).1).map identity =
          List.range' next (Expr.preorderAll es).length ∧
        (labelAll next es).2 = next + (Expr.preorderAll es).length := by
      induction es with
      | nil => exact fun next => ⟨rfl, rfl, rfl⟩
      | cons e es elems =>
        intro next
        have head := ih e List.mem_cons_self next
        have tail := elems (fun c member => ih c (List.mem_cons_of_mem _ member)) (label next e).2
        simp only [labelAll, Expr.mapAll, Expr.preorderAll, List.map_append, List.length_append]
        refine ⟨by rw [head.mapped, tail.1], ?_, by rw [tail.2.2, head.next, Nat.add_assoc]⟩
        rw [head.identities, tail.2.1, head.next, List.range'_append_1]
    obtain ⟨mapped, identities, after⟩ := each (next + 1)
    refine ⟨by simp only [label, Expr.map, mapped], ?_, ?_⟩
    · simp only [label, Expr.preorder, List.map_cons, identities, List.length_cons, List.range'_succ]
      rfl
    · simp only [label, after, Expr.preorder, List.length_cons]
      omega
  | apply p f x ihf ihx =>
    have function := ihf (next + 1)
    have argument := ihx (next + 1 + f.preorder.length)
    refine ⟨by simp only [label, Expr.map, function.mapped, function.next, argument.mapped], ?_, ?_⟩
    · simp only [label, Expr.preorder, List.map_cons, List.map_append, function.identities,
        argument.identities, function.next, List.range'_append_1, List.length_cons,
        List.length_append, List.range'_succ]
      rfl
    · simp only [label, function.next, argument.next, Expr.preorder, List.length_cons,
        List.length_append]
      omega
  | letIn p x b e ihb ihe =>
    have bound := ihb (next + 1)
    have body := ihe (next + 1 + b.preorder.length)
    refine ⟨by simp only [label, Expr.map, bound.mapped, bound.next, body.mapped], ?_, ?_⟩
    · simp only [label, Expr.preorder, List.map_cons, List.map_append, bound.identities,
        body.identities, bound.next, List.range'_append_1, List.length_cons,
        List.length_append, List.range'_succ]
      rfl
    · simp only [label, bound.next, body.next, Expr.preorder, List.length_cons, List.length_append]
      omega

/-- No node of a tree with nodes of its own stands twice. -/
theorem label_once (tree : Expr Position) (next : Nat) :
    ((label next tree).1.preorder.map identity).Nodup := by
  rw [(labelled tree next).identities]
  exact List.nodup_range'

theorem identity_of_label {tree : Expr Position} {next : Nat} {m : Node}
    (member : m ∈ (label next tree).1.preorder) :
    next ≤ identity m ∧ identity m < (label next tree).2 := by
  have given := List.mem_map_of_mem (f := identity) member
  rw [(labelled tree next).identities, List.mem_range'_1] at given
  rwa [(labelled tree next).next]

end Formula.Node
