import Formula.Proofs.NestingWritten
import Formula.Proofs.Optimised
import Formula.Proofs.Rereading

/-! Written forms that are parsed again. The trees that are parsed, and what optimising makes of them,
are printable. Main statement: the written form of a printable tree parses as a tree that is the
same, in every limit that is at least the number of its nodes. -/
namespace Formula

theorem Session.printable_optimise {σ : Type} (s : Session σ) {tree : Expr Position}
    (printable : tree.Printable) :
    Expr.Printable ((s.build tree).2.optimise (s.build tree).1).1 := by
  have optimised := s.optimised tree
  exact optimised.shares.shared.printable (s.printable_build printable) optimised.keeps
    optimised.shares.member

/-- Printed trees parse back. -/
theorem parseWithin_text :
    (∀ {limit : Nat} {source text : String} {tree : Expr Position},
      parseWithin limit source text = .ok tree → tree.Printable) ∧
    (∀ {σ : Type} (s : Session σ) {tree : Expr Position}, tree.Printable →
      let (n, built) := s.build tree
      Expr.Printable (built.optimise n).1) ∧
    ∀ {α : Type} {e : Expr α}, e.Printable → ∀ {limit : Nat}, e.preorder.length ≤ limit →
      ∀ source : String, ∃ tree, parseWithin limit source e.text = .ok tree ∧ tree.same e = true := by
  refine ⟨parseWithin_printable, fun s _ => s.printable_optimise, ?_⟩
  intro α e printable limit room source
  obtain ⟨draft, read, same⟩ := printable.readText
  refine ⟨_, parseWithin_ok.2 ⟨printable.nestingExcess?_eq_none room, draft, read, rfl⟩, ?_⟩
  exact Expr.same_trans (Expr.map_same _ draft) same

/-- The tree of `let f = -x in f op + [y]`. -/
def applied : Expr Position :=
  .letIn ⟨"s", 1, 1, 0⟩ "f" (.apply ⟨"s", 1, 9, 8⟩ (.var ⟨"s", 1, 9, 8⟩ "-_") (.var ⟨"s", 1, 10, 9⟩ "x"))
    (.apply ⟨"s", 1, 22, 21⟩
      (.apply ⟨"s", 1, 17, 16⟩ (.var ⟨"s", 1, 15, 14⟩ "f") (.var ⟨"s", 1, 17, 16⟩ "+"))
      (.vector ⟨"s", 1, 22, 21⟩ [.var ⟨"s", 1, 23, 22⟩ "y"]))

theorem parseWithin_text_applied :
    applied.Printable ∧
    Expr.Printable (((Session.initial ()).build applied).2.optimise
      ((Session.initial ()).build applied).1).1 ∧
    ∃ tree, parseWithin 10 "t" applied.text = .ok tree ∧ tree.same applied = true := by
  have parsed : parseWithin 3 "s" "let f = -x in f op + [y]" = .ok applied := by
    with_unfolding_all rfl
  have printable := parseWithin_text.1 parsed
  exact ⟨printable, parseWithin_text.2.1 _ printable,
    parseWithin_text.2.2 printable (by decide) "t"⟩

end Formula
