import Formula.Proofs.Kept
import Formula.Proofs.Visits

/-! How deep evaluation goes where a tree has a value. The whole tree is visited then, and evaluation
finds the value unless the first place of some node is too deep. Main statement: this tells, for the
optimised tree, when a limit that is enough for the tree as it was read is enough. -/
namespace Formula

open Place

theorem Memo.Consistent.closed {f : Functions} {memo : Memo} {nodes : List Node}
    (consistent : memo.Consistent f nodes) : memo.Closed nodes :=
  fun n member v kept => (consistent.justified n member v kept).children

namespace Node

variable {σ : Type} {call : Caller σ} {f : Functions} {nodes : List Node}

theorem eval_once_measured (pure : call.Answers f) (limit : Nat) (forest : Forest nodes) {n : Node}
    (member : n ∈ nodes) (once : ((Expr.preorder n).map Node.identity).Nodup) {env : Env}
    {s : Machine σ} (empty : ∀ m ∈ Expr.preorder n, s.memo[Node.identity m]? = none)
    (consistent : s.memo.Consistent f nodes) {v : Value} (value : n.meaning f env.lookup? = .ok v) :
    (n.eval call limit env s).1 = orTooDeep limit (Expr.placed s.depth n) v := by
  have guarded : n.GuardedIn call limit f (n.occurrences f env.lookup?) nodes :=
    eval_guarded pure (settled_of_once once env.lookup?) forest member
  have run := guarded env s (List.Subset.refl _) ⟨agrees_of_empty empty _, consistent.closed⟩
  rw [run.outcome, firstMet_visits once empty, visits_eq_placed value, value, ← orTooDeep_bind]

end Node

namespace Session.Optimised

variable {σ : Type} {call : Caller σ} {f : Functions} {n : Node} {next : Nat}
  {result : Node × Register} {env : Env} {s : Machine σ} {limit : Nat} {v : Value}

theorem forest (optimised : Optimised n next result) :
    Forest (Expr.preorder n ++ result.2.nodes) where
  children := by
    intro k member c child
    rcases List.mem_append.1 member with used | seen
    · exact List.mem_append_left _ (Expr.child_mem_preorder child used)
    · exact List.mem_append_right _ (optimised.shares.shared.children k seen c child)
  coherent := optimised.shares.shared.coherent

/-- Where the shared tree has a value, evaluation finds it unless a node is met too deep. -/
theorem eval_measured (pure : call.Answers f) (optimised : Optimised n next result)
    (value : result.1.meaning f env.lookup? = .ok v)
    (agrees : s.memo.Agrees f (result.1.occurrences f env.lookup?))
    (consistent : s.memo.Consistent f (Expr.preorder n ++ result.2.nodes)) (ground : s.depth = 0) :
    (result.1.eval call limit env s).1 =
      orTooDeep limit (firstMet s.memo.contains (Expr.placed 0 result.1)) v := by
  have shares := optimised.shares
  have guarded : result.1.GuardedIn call limit f (result.1.occurrences f env.lookup?)
      (Expr.preorder n ++ result.2.nodes) :=
    Node.eval_guarded pure (shares.shared.settled shares.member env.lookup?) optimised.forest
      (List.mem_append_right _ shares.member)
  have run := guarded env s (List.Subset.refl _) ⟨agrees, consistent.closed⟩
  rw [run.outcome, Node.visits_eq_placed value, value, ← orTooDeep_bind, ground]

end Session.Optimised

/-- What optimising does to the depth: if a tree that was parsed has a value within a limit, then
within the same limit the optimised tree has that value unless a node without a value is first met
too deep, which then is the failure, whether the tree has been evaluated before or not. An optimised
tree that is no higher than the tree has the value. -/
theorem Session.eval_optimise_within {σ : Type} (call : Caller σ) (f : Functions)
    (pure : call.Answers f) (env : Env) (world : σ) {depth limit : Nat} {source text : String}
    {tree : Expr Position} (parsed : parseWithin depth source text = .ok tree) {v : Value}
    (value : (((initial world).build tree).2.eval call limit ((initial world).build tree).1 env).1 =
      .ok v) :
    let (n, built) := (initial world).build tree
    let (_, evaluated) := built.eval call limit n env
    ∀ s ∈ [built, evaluated],
      let (m, _, shared) := s.optimise n
      (shared.eval call limit m env).1 =
          orTooDeep limit (firstMet shared.machine.memo.contains (Expr.placed 0 m)) v ∧
        (Expr.height m ≤ Expr.height n → (shared.eval call limit m env).1 = .ok v) := by
  have optimised := (initial world).optimised tree
  have printable := (initial world).printable_build (parseWithin_printable parsed)
  have run := build_faithful pure world tree limit env
  have meant := run.sound v value
  have means := optimised.meaning printable meant
  have room : Expr.height ((initial world).build tree).1 ≤ limit := by
    have measured := Node.eval_once_measured pure limit (.of_once optimised.once)
      (Expr.mem_preorder_self _) optimised.once (s := ((initial world).build tree).2.machine)
      (fun _ _ => Std.HashMap.getElem?_empty) (.empty _ _) meant
    have found := orTooDeep_ok.1 (measured.symm.trans value)
    exact Nat.zero_add (Expr.height _) ▸ Expr.placed_lt_iff.1 found.1
  intro s member
  rcases List.mem_cons.1 member with rfl | rest
  · have agrees := optimised.agrees (.refl _ (Node.occurrences f _ env.lookup?))
    exact ⟨optimised.eval_measured pure means agrees (.empty _ _) rfl,
      fun low => optimised.eval pure means agrees rfl (low.trans room)⟩
  · cases List.mem_singleton.1 rest
    have agrees := optimised.agrees run.grows
    have keeps : Node.KeepsIn call limit f _ _ := Node.eval_keeps pure optimised.forest
      (List.mem_append_left _ (Expr.mem_preorder_self _))
    have kept := keeps env ((initial world).build tree).2.machine (.empty _ _)
    exact ⟨optimised.eval_measured pure means agrees kept.consistent run.depth,
      fun low => optimised.eval pure means agrees run.depth (low.trans room)⟩

/-- The tree of `let x = a in [[x], x]`, in which `x` stands deeper than `a` and in which the optimised
tree is lower all the same. -/
def lowering : Expr Position :=
  .letIn ⟨"s", 1, 1, 0⟩ "x" (.var ⟨"s", 1, 9, 8⟩ "a")
    (.vector ⟨"s", 1, 14, 13⟩ [.vector ⟨"s", 1, 15, 14⟩ [.var ⟨"s", 1, 16, 15⟩ "x"],
      .var ⟨"s", 1, 20, 19⟩ "x"])

theorem Session.eval_optimise_within_lowering :
    let (n, built) := (initial ()).build lowering
    let (_, evaluated) := built.eval Node.giveBack 4 n (Env.empty.register "a" (.bool true))
    let (m, _, shared) := evaluated.optimise n
    (shared.eval Node.giveBack 4 m (Env.empty.register "a" (.bool true))).1 =
      .ok (.vector [.vector [.bool true], .bool true]) := by
  have parsed : parseWithin 3 "s" "let x = a in [[x], x]" = .ok lowering := by
    with_unfolding_all rfl
  have run := build_faithful Node.giveBack_answers () lowering 4 (Env.empty.register "a" (.bool true))
  have within := eval_optimise_within _ _ Node.giveBack_answers _ () parsed
    ((run.exact (by decide)).trans rfl)
  exact (within _ (List.mem_cons_of_mem _ List.mem_cons_self)).2 (by decide)

/-- The tree of `let x = [[[]]] in [[x]]`, in which `x` stands deeper than what it stands for. -/
def deepening : Expr Position :=
  .letIn ⟨"s", 1, 1, 0⟩ "x"
    (.vector ⟨"s", 1, 9, 8⟩ [.vector ⟨"s", 1, 10, 9⟩ [.vector ⟨"s", 1, 11, 10⟩ []]])
    (.vector ⟨"s", 1, 19, 18⟩ [.vector ⟨"s", 1, 20, 19⟩ [.var ⟨"s", 1, 21, 20⟩ "x"]])

/-- The optimised tree: five vectors, one in another. -/
def deepened : Node :=
  .vector ⟨11, ⟨"s", 1, 19, 18⟩⟩ [.vector ⟨10, ⟨"s", 1, 20, 19⟩⟩ [.vector ⟨9, ⟨"s", 1, 9, 8⟩⟩
    [.vector ⟨8, ⟨"s", 1, 10, 9⟩⟩ [.vector ⟨7, ⟨"s", 1, 11, 10⟩⟩ []]]]]

theorem Session.optimise_deepening :
    ((initial ()).build deepening).2.optimise ((initial ()).build deepening).1 =
      (deepened, 5, ⟨12, .initial ()⟩) := by
  cbv

/-- Optimising may take more depth: a limit of 4 is enough for the tree as it was read, and not for the
optimised tree. -/
theorem Session.eval_optimise_deepening :
    let built := (initial ()).build deepening
    parseWithin 4 "s" "let x = [[[]]] in [[x]]" = .ok deepening ∧
      (built.2.eval Node.giveBack 4 built.1 .empty).1 =
        .ok (.vector [.vector [.vector [.vector [.vector []]]]]) ∧
      let (m, _, shared) := built.2.optimise built.1
      (shared.eval Node.giveBack 4 m .empty).1 = .error ⟨[⟨"s", 1, 11, 10⟩], .tooDeep 4 4⟩ := by
  have run := build_faithful Node.giveBack_answers () deepening 4 .empty
  refine ⟨by with_unfolding_all rfl, (run.exact (by decide)).trans rfl, ?_⟩
  rw [optimise_deepening]
  simp [deepened, Session.eval, Node.eval, Node.evalAll, Machine.enter, Machine.initial]

end Formula
