import Formula.Proofs.Filling

/-! How an evaluation fails. A failure arises at one node, at which the evaluation stops; the nodes
around it pass it on as it is. Main statements: an evaluation fails with an error exactly if it comes
to a node that raises the error, and the trace of the error ends at that node. -/
namespace Formula

/-- A machine one level deeper. -/
abbrev Machine.deeper {σ : Type} (s : Machine σ) : Machine σ := { s with depth := s.depth + 1 }

/-- A node that is evaluated, the frames in which it is, and the machine on which it is. -/
structure Point (σ : Type) where
  node : Node
  env : Env
  machine : Machine σ

namespace Point

variable {σ : Type} (call : Caller σ) (limit : Nat)

def outcome (p : Point σ) : Outcome := (p.node.eval call limit p.env p.machine).1

/-- A node that keeps no value and lies within the limit is entered. -/
structure Entered (p : Point σ) : Prop where
  unknown : p.machine.memo.kept? p.node = none
  room : ¬ limit ≤ p.machine.depth

/-- The evaluation of a node asks for the value of a child: of an element after those before it, of a
function and then of its argument, of a bound expression and then of the body. -/
inductive Asks : Point σ → Point σ → Prop where
  | element {t before n after env s vs s'}
    (entered : Entered limit ⟨.vector t (before ++ n :: after), env, s⟩)
    (earlier : Node.evalAll call limit before env s.deeper = (.ok vs, s')) :
    Asks ⟨.vector t (before ++ n :: after), env, s⟩ ⟨n, env, s'⟩
  | function {t g x env s} (entered : Entered limit ⟨.apply t g x, env, s⟩) :
    Asks ⟨.apply t g x, env, s⟩ ⟨g, env, s.deeper⟩
  | argument {t g x env s callee captured s'} (entered : Entered limit ⟨.apply t g x, env, s⟩)
    (function : Node.eval call limit g env s.deeper = (.ok (.function callee captured), s')) :
    Asks ⟨.apply t g x, env, s⟩ ⟨x, env, s'⟩
  | bound {t x b e env s} (entered : Entered limit ⟨.letIn t x b e, env, s⟩) :
    Asks ⟨.letIn t x b e, env, s⟩ ⟨b, env, s.deeper⟩
  | body {t x b e env s v s'} (entered : Entered limit ⟨.letIn t x b e, env, s⟩)
    (bound : Node.eval call limit b env s.deeper = (.ok v, s')) :
    Asks ⟨.letIn t x b e, env, s⟩ ⟨e, env.child.register x v, s'⟩

/-- The node is an application of a function to an argument, and the call fails. -/
inductive CallFails : Point σ → Fault → Prop where
  | mk {t g x env s callee captured s' arg s'' fault}
    (entered : Entered limit ⟨.apply t g x, env, s⟩)
    (function : Node.eval call limit g env s.deeper = (.ok (.function callee captured), s'))
    (argument : Node.eval call limit x env s' = (.ok arg, s''))
    (failed : (call callee captured arg s''.world).1 = .error fault) :
    CallFails ⟨.apply t g x, env, s⟩ fault

/-- The node itself raises an error. -/
inductive Raises : Point σ → RuntimeError → Prop where
  | tooDeep {p : Point σ} (unknown : p.machine.memo.kept? p.node = none)
    (deep : limit ≤ p.machine.depth) :
    Raises p ⟨[p.node.position], .tooDeep p.machine.depth limit⟩
  | unbound {t x env s} (entered : Entered limit ⟨.var t x, env, s⟩)
    (absent : env.lookup? x = none) : Raises ⟨.var t x, env, s⟩ ⟨[t.position], .unbound x⟩
  | mistyped {t g x env s v s'} (entered : Entered limit ⟨.apply t g x, env, s⟩)
    (function : Node.eval call limit g env s.deeper = (.ok v, s')) (other : v.kind ≠ .function) :
    Raises ⟨.apply t g x, env, s⟩ ⟨[t.position], .mistyped (.just .function) v.kind⟩
  | call {p fault} (failed : CallFails call limit p fault) :
    Raises p (fault.locate p.node.position)

/-- The evaluation of the first node comes to the second one. -/
def Reaches : Point σ → Point σ → Prop := Relation.ReflTransGen (Asks call limit)

end Point

namespace Machine

variable {σ α β : Type} {e : RuntimeError} {run : Except RuntimeError α × Machine σ}
  {k : α → Machine σ → Except RuntimeError β × Machine σ}

theorem andThen_error_iff : (andThen run k).1 = .error e ↔
    run.1 = .error e ∨ ∃ v s, run = (.ok v, s) ∧ (k v s).1 = .error e := by
  obtain ⟨_ | v, s⟩ := run
  · simp [andThen]
  · constructor
    · exact fun failed => .inr ⟨v, s, rfl, failed⟩
    · rintro (failed | ⟨w, s', same, failed⟩)
      · cases failed
      · cases same
        exact failed

end Machine

namespace Point

variable {σ : Type} {call : Caller σ} {limit : Nat} {p q : Point σ} {e : RuntimeError}

theorem Entered.outcome (entered : p.Entered limit) : p.outcome call limit =
    (p.node.body call limit p.env p.machine.deeper).1 := by
  rw [Point.outcome, Node.eval_eq_enter]
  rcases found : p.node.body call limit p.env p.machine.deeper with ⟨_ | v, s⟩
  · rw [Machine.enter_failed entered.unknown entered.room found]
  · rw [Machine.enter_found entered.unknown entered.room found]

theorem Asks.entered (asks : p.Asks call limit q) : p.Entered limit := by
  cases asks <;> assumption

theorem Asks.child (asks : p.Asks call limit q) : q.node ∈ Expr.children p.node := by
  cases asks <;> simp [Expr.children]

theorem Raises.unknown (raises : p.Raises call limit e) : p.machine.memo.kept? p.node = none := by
  cases raises with
  | tooDeep unknown deep => exact unknown
  | unbound entered | mistyped entered => exact entered.unknown
  | call failed =>
    cases failed with
    | mk entered => exact entered.unknown

theorem evalAll_error_iff {ns : List Node} {env : Env} {s : Machine σ} :
    (Node.evalAll call limit ns env s).1 = .error e ↔ ∃ before n after vs s',
      ns = before ++ n :: after ∧ Node.evalAll call limit before env s = (.ok vs, s') ∧
        (n.eval call limit env s').1 = .error e := by
  induction ns generalizing s with
  | nil => simp [Node.evalAll]
  | cons n ns ih =>
    rw [Node.evalAll_cons, Machine.andThen_error_iff]
    constructor
    · rintro (failed | ⟨v, s', found, later⟩)
      · exact ⟨[], n, ns, [], s, rfl, rfl, failed⟩
      · rcases Machine.andThen_error_iff.1 later with failed | ⟨vs, s'', _, none⟩
        · obtain ⟨before, m, after, vs, s'', rfl, earlier, failed⟩ := ih.1 failed
          refine ⟨n :: before, m, after, v :: vs, s'', rfl, ?_, failed⟩
          rw [Node.evalAll_cons, found]
          show Machine.andThen (Node.evalAll call limit before env s') _ = _
          rw [earlier]
          rfl
        · cases none
    · rintro ⟨before, m, after, vs, s', split, earlier, failed⟩
      cases before with
      | nil =>
        cases split
        cases earlier
        exact .inl failed
      | cons k before =>
        cases split
        rw [Node.evalAll_cons] at earlier
        rcases found : n.eval call limit env s with ⟨_ | v, middle⟩ <;> rw [found] at earlier
        · cases earlier
        refine .inr ⟨v, middle, rfl, Machine.andThen_error_iff.2 (.inl (ih.2 ?_))⟩
        rcases others : Node.evalAll call limit before env middle with ⟨_ | ws, last⟩ <;>
          simp only [Machine.andThen, others] at earlier <;> cases earlier
        exact ⟨before, m, after, ws, s', rfl, others, failed⟩

theorem outcome_error_iff_of_not_entered (outside : ¬ p.Entered limit) :
    p.outcome call limit = .error e ↔ p.Raises call limit e := by
  cases unknown : p.machine.memo.kept? p.node with
  | some v =>
    rw [outcome, Node.eval_kept unknown]
    refine iff_of_false nofun fun raises => ?_
    rw [raises.unknown] at unknown
    contradiction
  | none =>
    have deep : limit ≤ p.machine.depth := by
      by_contra room
      exact outside ⟨unknown, room⟩
    rw [outcome, Node.eval_eq_enter, Machine.enter_deep unknown deep]
    constructor
    · rintro ⟨⟩
      exact .tooDeep unknown deep
    · intro raises
      cases raises with
      | tooDeep => rfl
      | unbound entered | mistyped entered => exact absurd entered outside
      | call failed =>
        cases failed with
        | mk entered => exact absurd entered outside

/-- A node that is entered fails where its children do not give it what it needs. -/
theorem Entered.outcome_error_iff (entered : p.Entered limit) : p.outcome call limit = .error e ↔
    p.Raises call limit e ∨ ∃ q, p.Asks call limit q ∧ q.outcome call limit = .error e := by
  rw [entered.outcome]
  obtain ⟨n, env, s⟩ := p
  constructor
  · intro failed
    cases n with
    | literal => cases failed
    | var t x =>
      cases absent : env.lookup? x <;> simp only [Node.body, absent] at failed <;> cases failed
      exact .inl (.unbound entered absent)
    | vector t es =>
      rcases Machine.andThen_error_iff.1 failed with failed | ⟨vs, s', _, none⟩
      · obtain ⟨before, n, after, vs, s', rfl, earlier, failed⟩ := evalAll_error_iff.1 failed
        exact .inr ⟨_, .element entered earlier, failed⟩
      · cases none
    | apply t g x =>
      rcases Machine.andThen_error_iff.1 failed with failed | ⟨v, s', function, failed⟩
      · exact .inr ⟨_, .function entered, failed⟩
      cases v with
      | function callee captured =>
        rcases Machine.andThen_error_iff.1 failed with failed | ⟨arg, s'', argument, failed⟩
        · exact .inr ⟨_, .argument entered function, failed⟩
        unfold applyAt at failed
        rcases answer : call callee captured arg s''.world with ⟨fault | v, world⟩ <;>
          rw [answer] at failed <;> cases failed
        exact .inl (.call (.mk entered function argument (congrArg Prod.fst answer)))
      | _ =>
        cases failed
        exact .inl (.mistyped entered function (by simp [Value.kind]))
    | letIn t x b e =>
      rcases Machine.andThen_error_iff.1 failed with failed | ⟨v, s', bound, failed⟩
      · exact .inr ⟨_, .bound entered, failed⟩
      · exact .inr ⟨_, .body entered bound, failed⟩
  · rintro (raises | ⟨q, asks, failed⟩)
    · cases raises with
      | tooDeep unknown deep => exact absurd deep entered.room
      | unbound entered absent => simp [Node.body, absent]
      | @mistyped t g x _ _ v s' entered function other =>
        refine Machine.andThen_error_iff.2 (.inr ⟨v, s', function, ?_⟩)
        cases v with
        | function => exact absurd rfl other
        | _ => rfl
      | call failed =>
        cases failed with
        | mk entered function argument failed =>
          refine Machine.andThen_error_iff.2 (.inr ⟨_, _, function, ?_⟩)
          refine Machine.andThen_error_iff.2 (.inr ⟨_, _, argument, ?_⟩)
          unfold applyAt
          rcases answer : call _ _ _ _ with ⟨fault | v, world⟩ <;> rw [answer] at failed <;> cases failed
          rfl
    · cases asks with
      | element entered earlier =>
        exact Machine.andThen_error_iff.2
          (.inl (evalAll_error_iff.2 ⟨_, _, _, _, _, rfl, earlier, failed⟩))
      | function | bound => exact Machine.andThen_error_iff.2 (.inl failed)
      | argument entered function =>
        exact Machine.andThen_error_iff.2
          (.inr ⟨_, _, function, Machine.andThen_error_iff.2 (.inl failed)⟩)
      | body entered bound => exact Machine.andThen_error_iff.2 (.inr ⟨_, _, bound, failed⟩)

theorem outcome_error_iff : p.outcome call limit = .error e ↔
    p.Raises call limit e ∨ ∃ q, p.Asks call limit q ∧ q.outcome call limit = .error e := by
  by_cases entered : p.Entered limit
  · exact entered.outcome_error_iff
  · rw [outcome_error_iff_of_not_entered entered]
    exact ⟨.inl, fun either => either.resolve_right fun ⟨q, asks, _⟩ => entered asks.entered⟩

/-- An evaluation fails with an error exactly if it comes to a node that raises it. -/
theorem outcome_error_iff_reaches : p.outcome call limit = .error e ↔
    ∃ q, p.Reaches call limit q ∧ q.Raises call limit e := by
  -- Down the tree to the node that raises the error, and back up along the path to it.
  constructor
  · obtain ⟨n, env, s⟩ := p
    induction n using Expr.induct_children generalizing env s with
    | node n ih =>
      intro failed
      rcases outcome_error_iff.1 failed with raises | ⟨q, asks, failed⟩
      · exact ⟨_, .refl, raises⟩
      · obtain ⟨r, reaches, raises⟩ := ih q.node asks.child q.env q.machine failed
        exact ⟨r, .head asks reaches, raises⟩
  · rintro ⟨q, reaches, raises⟩
    induction reaches using Relation.ReflTransGen.head_induction_on with
    | refl => exact outcome_error_iff.2 (.inl raises)
    | head asks _ failed => exact outcome_error_iff.2 (.inr ⟨_, asks, failed⟩)

theorem Reaches.mem_preorder (reaches : p.Reaches call limit q) :
    q.node ∈ Expr.preorder p.node := by
  induction reaches with
  | refl => exact Expr.mem_preorder_self _
  | tail _ asks member => exact Expr.child_mem_preorder asks.child member

/-- Where a call fails, nothing but the call fails. -/
theorem Raises.trace (raises : p.Raises call limit e) :
    (∀ fault, ¬ p.CallFails call limit fault) ∧ e.trace = [p.node.position] ∨
      (∃ text, p.CallFails call limit (.host text) ∧ e = ⟨[p.node.position], .host text⟩) ∨
      ∃ inner, p.CallFails call limit (.runtime inner) ∧
        e = ⟨inner.trace ++ [p.node.position], inner.cause⟩ := by
  cases raises with
  | tooDeep unknown deep =>
    refine .inl ⟨fun fault failed => ?_, rfl⟩
    cases failed with
    | mk entered => exact entered.room deep
  | unbound entered absent => exact .inl ⟨nofun, rfl⟩
  | mistyped entered function other =>
    refine .inl ⟨fun fault failed => ?_, rfl⟩
    cases failed with
    | mk _ found =>
      cases function.symm.trans found
      exact other rfl
  | @call _ fault failed =>
    cases fault with
    | host text => exact .inr (.inl ⟨text, failed, rfl⟩)
    | runtime inner => exact .inr (.inr ⟨inner, failed, rfl⟩)

end Point

namespace Node

variable {σ : Type}

/-- An evaluation that fails stopped at a node of its tree. If the node is an application whose call
failed with an error, then that error is passed on with the position of the node behind its trace;
a fault of the host is described, with the position of the node alone; and every other error has
the position of the node alone. No node around it adds anything, so the trace ends at the node. -/
theorem eval_error_trace (call : Caller σ) (limit : Nat) {n : Node} {env : Env} {s : Machine σ}
    {e : RuntimeError} (failed : (n.eval call limit env s).1 = .error e) :
    ∃ p : Point σ, Point.Reaches call limit ⟨n, env, s⟩ p ∧ p.Raises call limit e ∧
      p.node ∈ Expr.preorder n ∧ e.trace.getLast? = some p.node.position ∧
      ((∀ fault, ¬ p.CallFails call limit fault) ∧ e.trace = [p.node.position] ∨
        (∃ text, p.CallFails call limit (.host text) ∧ e = ⟨[p.node.position], .host text⟩) ∨
        ∃ inner, p.CallFails call limit (.runtime inner) ∧
          e = ⟨inner.trace ++ [p.node.position], inner.cause⟩) := by
  obtain ⟨p, reaches, raises⟩ :=
    (Point.outcome_error_iff_reaches (p := ⟨n, env, s⟩)).1 failed
  refine ⟨p, reaches, raises, reaches.mem_preorder, ?_, raises.trace⟩
  rcases raises.trace with ⟨_, alone⟩ | ⟨text, _, rfl⟩ | ⟨inner, _, rfl⟩
  · rw [alone]
    rfl
  · rfl
  · exact List.getLast?_concat

namespace Relaying

/-- Every function runs a formula of its own, in which `+` is unbound. -/
def call : Caller Unit := fun _ _ _ world =>
  (.error (.runtime ⟨[⟨"inner", 1, 3, 2⟩], .unbound "+"⟩), world)

/-- `let x = [run true] in y`. -/
def node : Node :=
  .letIn ⟨0, ⟨"s", 1, 1, 0⟩⟩ "x" (.vector ⟨1, ⟨"s", 1, 9, 8⟩⟩ [.apply ⟨2, ⟨"s", 1, 14, 13⟩⟩
    (.var ⟨3, ⟨"s", 1, 10, 9⟩⟩ "run") (.literal ⟨4, ⟨"s", 1, 14, 13⟩⟩ (.bool true))])
    (.var ⟨5, ⟨"s", 1, 23, 22⟩⟩ "y")

def env : Env := Env.empty.register "run" (.function (.host 0) [])

theorem failed : (node.eval call 9 env (.initial ())).1 =
    .error ⟨[⟨"inner", 1, 3, 2⟩, ⟨"s", 1, 14, 13⟩], .unbound "+"⟩ := by
  simp [node, call, env, Machine.initial, Machine.enter, Machine.keep, Node.eval, Node.evalAll, applyAt,
    Fault.locate, RuntimeError.addPosition, Env.empty, Env.lookup?, Env.lookupIn, Env.register]

end Relaying

/-- The vector and the `let` around the application are not in the trace. -/
theorem eval_error_trace_relaying : ∃ p : Point Unit, p.node ∈ Expr.preorder Relaying.node ∧
    p.node.position = ⟨"s", 1, 14, 13⟩ ∧ p.Raises Relaying.call 9
      ⟨[⟨"inner", 1, 3, 2⟩, ⟨"s", 1, 14, 13⟩], .unbound "+"⟩ := by
  obtain ⟨p, _, raises, member, last, _⟩ := eval_error_trace Relaying.call 9 Relaying.failed
  exact ⟨p, member, (Option.some.inj last).symm, raises⟩

end Node

end Formula
