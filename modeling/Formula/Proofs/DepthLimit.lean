import Formula.Proofs.Depth
import Formula.Proofs.Failures

/-! What a limit on the depth does. Every evaluation leaves the depth as it found it, and asks for the
same nodes within a larger limit until it comes to a node that is too deep. Main statements: a tree
with a value has it within exactly the limits that its height keeps to; and a limit changes nothing
but that an evaluation may stop, with a failure of its own, after which the machine is as good as new. -/
namespace Formula

/-- The first place from which too many nodes lie above has just as many as there may be: the node right
above it was not too deep. -/
theorem Expr.depth_of_find?_placed {α : Type} {e : Expr α} {depth limit : Nat} {p : Nat × Expr α}
    (within : depth ≤ limit) (found : (e.placed depth).find? (fun p => limit ≤ p.1) = some p) :
    p.1 = limit := by
  induction e using induct_children generalizing depth with
  | node e ih =>
    rw [placed_eq, List.find?_cons] at found
    split at found
    · next deep =>
      cases found
      exact Nat.le_antisymm within (of_decide_eq_true deep)
    · next room =>
      rw [List.find?_flatMap] at found
      obtain ⟨c, child, below⟩ := List.exists_of_findSome?_eq_some found
      exact ih c child (Nat.lt_of_not_le (of_decide_eq_false room)) below

namespace Machine

variable {σ α β : Type} {limit : Nat} {t : Tag} {s : Machine σ}

theorem andThen_depth {run : Except RuntimeError α × Machine σ}
    {k : α → Machine σ → Except RuntimeError β × Machine σ}
    (rest : ∀ v s, (k v s).2.depth = s.depth) : (andThen run k).2.depth = run.2.depth := by
  obtain ⟨_ | v, s⟩ := run
  · rfl
  · exact rest v s

theorem enter_depth {body : Machine σ → Outcome × Machine σ}
    (run : ∀ s, (body s).2.depth = s.depth) : (enter limit t body s).2.depth = s.depth := by
  cases known : s.memo[t.identity]? with
  | some v => rw [enter_known known]
  | none =>
    by_cases deep : limit ≤ s.depth
    · rw [enter_deep known deep]
    have inside := run { s with depth := s.depth + 1 }
    rcases found : body { s with depth := s.depth + 1 } with ⟨_ | v, s'⟩ <;> rw [found] at inside
    · rw [enter_failed known deep found]
      exact Nat.sub_eq_of_eq_add inside
    · rw [enter_found known deep found]
      exact Nat.sub_eq_of_eq_add inside

theorem andThen_congr {run run' : Except RuntimeError α × Machine σ}
    {k k' : α → Machine σ → Except RuntimeError β × Machine σ} (first : run' = run)
    (rest : ∀ v s, run = (.ok v, s) → k' v s = k v s) : andThen run' k' = andThen run k := by
  subst first
  obtain ⟨_ | v, s⟩ := run'
  · rfl
  · exact rest v s rfl

theorem enter_larger {larger : Nat} {body body' : Machine σ → Outcome × Machine σ}
    (more : limit ≤ larger) (room : ¬ limit ≤ s.depth)
    (same : body' { s with depth := s.depth + 1 } = body { s with depth := s.depth + 1 }) :
    enter larger t body' s = enter limit t body s := by
  have room' : ¬ larger ≤ s.depth := fun deep => room (more.trans deep)
  simp only [enter, if_neg room, if_neg room', same]

/-- The same values and the same world for an evaluator that has just been made. -/
def renewed (s : Machine σ) : Machine σ := { s with depth := 0 }

theorem renewed_of_depth (ground : s.depth = 0) : s.renewed = s := by
  rw [renewed, ← ground]

end Machine

section
variable {σ : Type} {call : Caller σ} {limit : Nat}

namespace Node

theorem evalAll_depth {ns : List Node}
    (each : ∀ n ∈ ns, ∀ env (s : Machine σ), (n.eval call limit env s).2.depth = s.depth) (env : Env)
    (s : Machine σ) : (evalAll call limit ns env s).2.depth = s.depth := by
  induction ns generalizing s with
  | nil => rfl
  | cons n ns ih =>
    have tail := ih fun m member => each m (List.mem_cons_of_mem _ member)
    rw [evalAll_cons, Machine.andThen_depth fun v s => ?_]
    · exact each n List.mem_cons_self env s
    · exact (Machine.andThen_depth fun _ _ => rfl).trans (tail s)

theorem applyAt_depth (t : Tag) (callee : Callee) (captured : List Value) (arg : Value)
    (s : Machine σ) : (applyAt call t callee captured arg s).2.depth = s.depth := by
  unfold applyAt
  rcases call callee captured arg s.world with ⟨_ | v, world⟩ <;> rfl

/-- Every evaluation leaves the depth as it found it, also one that fails. -/
theorem eval_depth (n : Node) (env : Env) (s : Machine σ) :
    (n.eval call limit env s).2.depth = s.depth := by
  induction n using Expr.induct_children generalizing env s with
  | node n ih =>
    rw [eval_eq_enter]
    refine Machine.enter_depth fun s => ?_
    cases n with
    | literal | var => rfl
    | vector t es => exact (Machine.andThen_depth fun _ _ => rfl).trans (evalAll_depth ih env s)
    | apply t g x =>
      refine (Machine.andThen_depth fun v s => ?_).trans (ih g List.mem_cons_self env s)
      cases v with
      | function callee captured =>
        refine (Machine.andThen_depth fun arg s => ?_).trans (ih x (by simp [Expr.children]) env s)
        exact applyAt_depth t callee captured arg s
      | _ => rfl
    | letIn t x b e =>
      exact (Machine.andThen_depth fun v s => ih e (by simp [Expr.children]) _ s).trans
        (ih b List.mem_cons_self env s)

end Node

namespace Point

variable {p q : Point σ}

theorem Asks.depth (asks : p.Asks call limit q) : q.machine.depth = p.machine.depth + 1 := by
  cases asks with
  | @element t before n after env s vs s' entered earlier =>
    have stays : (Node.evalAll call limit before env s.deeper).2.depth = s.deeper.depth :=
      Node.evalAll_depth (fun n _ => n.eval_depth) env s.deeper
    rwa [earlier] at stays
  | function | bound => rfl
  | @argument t g x env s callee captured s' entered function =>
    have stays : (Node.eval call limit g env s.deeper).2.depth = s.deeper.depth :=
      Node.eval_depth g env s.deeper
    rwa [function] at stays
  | @body t x b e env s v s' entered bound =>
    have stays : (Node.eval call limit b env s.deeper).2.depth = s.deeper.depth :=
      Node.eval_depth b env s.deeper
    rwa [bound] at stays

/-- No evaluation goes deeper than the limit. -/
theorem Reaches.depth_le (reaches : p.Reaches call limit q) (within : p.machine.depth ≤ limit) :
    q.machine.depth ≤ limit := by
  induction reaches with
  | refl => exact within
  | tail _ asks _ =>
    rw [asks.depth]
    exact Nat.lt_of_not_le asks.entered.room

/-- The evaluation comes to a node that keeps no value and lies too deep. -/
def GoesTooDeep (call : Caller σ) (limit : Nat) (p : Point σ) : Prop :=
  ∃ q, p.Reaches call limit q ∧ q.machine.memo.kept? q.node = none ∧ limit ≤ q.machine.depth

theorem GoesTooDeep.of_asks (asks : p.Asks call limit q) (deep : q.GoesTooDeep call limit) :
    p.GoesTooDeep call limit := by
  obtain ⟨r, reaches, lies⟩ := deep
  exact ⟨r, .head asks reaches, lies⟩

end Point

namespace Node

variable {larger : Nat}

theorem evalAll_larger {ns : List Node} {env : Env} {s : Machine σ}
    (each : ∀ before n after vs s', ns = before ++ n :: after →
      evalAll call limit before env s = (.ok vs, s') →
      n.eval call larger env s' = n.eval call limit env s') :
    evalAll call larger ns env s = evalAll call limit ns env s := by
  induction ns generalizing s with
  | nil => rfl
  | cons n ns ih =>
    rw [evalAll_cons, evalAll_cons]
    refine Machine.andThen_congr (each [] n ns [] s rfl rfl) fun v s' found => ?_
    refine Machine.andThen_congr (ih fun before m after vs s'' split earlier => ?_) fun _ _ _ => rfl
    refine each (n :: before) m after (v :: vs) s'' (congrArg (n :: ·) split) ?_
    rw [evalAll_cons, found]
    show Machine.andThen (evalAll call limit before env s') _ = _
    rw [earlier]
    rfl

/-- An evaluation that does not go too deep does the same within every larger limit. -/
theorem eval_larger (more : limit ≤ larger) {n : Node} {env : Env} {s : Machine σ}
    (within : ¬ Point.GoesTooDeep call limit ⟨n, env, s⟩) :
    n.eval call larger env s = n.eval call limit env s := by
  induction n using Expr.induct_children generalizing env s with
  | node n ih =>
    cases unknown : s.memo.kept? n with
    | some v => rw [eval_kept unknown, eval_kept unknown]
    | none =>
      have room : ¬ limit ≤ s.depth := fun deep => within ⟨_, .refl, unknown, deep⟩
      have entered : Point.Entered limit ⟨n, env, s⟩ := ⟨unknown, room⟩
      have child {q : Point σ} (asks : Point.Asks call limit ⟨n, env, s⟩ q) :
          q.node.eval call larger q.env q.machine = q.node.eval call limit q.env q.machine :=
        ih q.node asks.child fun deep => within (.of_asks asks deep)
      rw [eval_eq_enter, eval_eq_enter]
      refine Machine.enter_larger more room ?_
      cases n with
      | literal | var => rfl
      | vector t es =>
        refine Machine.andThen_congr (evalAll_larger fun before n after vs s' split earlier => ?_)
          fun _ _ _ => rfl
        subst split
        exact child (.element entered earlier)
      | apply t g x =>
        refine Machine.andThen_congr (child (.function entered)) fun v s' function => ?_
        cases v with
        | function callee captured =>
          exact Machine.andThen_congr (child (.argument entered function)) fun _ _ _ => rfl
        | _ => rfl
      | letIn t x b e =>
        exact Machine.andThen_congr (child (.bound entered)) fun v s' bound => child (.body entered bound)

/-- Evaluations made one after the other, whatever comes of them; `prepare` is what is done to the machine
before each of them. -/
def evalInTurn (call : Caller σ) (limit : Nat) (prepare : Machine σ → Machine σ) :
    List (Node × Env) → Machine σ → List Outcome × Machine σ
  | [], s => ([], s)
  | (n, env) :: later, s =>
    let run := n.eval call limit env (prepare s)
    let rest := evalInTurn call limit prepare later run.2
    (run.1 :: rest.1, rest.2)

theorem evalInTurn_renewed (runs : List (Node × Env)) {s : Machine σ} (ground : s.depth = 0) :
    evalInTurn call limit Machine.renewed runs s = evalInTurn call limit id runs s := by
  induction runs generalizing s with
  | nil => rfl
  | cons run later ih =>
    obtain ⟨n, env⟩ := run
    have left : (n.eval call limit env s).2.depth = 0 := (n.eval_depth env s).trans ground
    simp only [evalInTurn, Machine.renewed_of_depth ground, id, ih left]

/-- The limit is only a guard, and leaves the evaluator as good as new. Whatever nodes are shared and
whatever they keep, an evaluation comes to a node without a value that lies below the last level,
and fails because of that node, or it comes to the same outcome, the same kept values and the same
world within every larger limit. In both cases, and from any depth, the depth is in the end what it
was; so evaluations made in turn on one evaluator come to what they come to if each of them has an
evaluator of its own. -/
theorem eval_guarded_by_limit (call : Caller σ) (limit : Nat) (n : Node) (env : Env) (memo : Memo)
    (world : σ) :
    ((∃ p, Point.Reaches call limit ⟨n, env, 0, memo, world⟩ p ∧ p.machine.memo.kept? p.node = none ∧
          p.machine.depth = limit ∧ (n.eval call limit env ⟨0, memo, world⟩).1 =
            .error ⟨[p.node.position], .tooDeep limit limit⟩) ∨
        ∀ more, n.eval call (limit + more) env ⟨0, memo, world⟩ =
          n.eval call limit env ⟨0, memo, world⟩) ∧
      (∀ s : Machine σ, (n.eval call limit env s).2.depth = s.depth) ∧
      ∀ runs, evalInTurn call limit id runs ⟨0, memo, world⟩ =
        evalInTurn call limit Machine.renewed runs ⟨0, memo, world⟩ := by
  refine ⟨?_, n.eval_depth env, fun runs => (evalInTurn_renewed runs rfl).symm⟩
  by_cases overflows : Point.GoesTooDeep call limit ⟨n, env, 0, memo, world⟩
  · obtain ⟨p, reaches, unknown, deep⟩ := overflows
    have level : p.machine.depth = limit :=
      Nat.le_antisymm (reaches.depth_le (Nat.zero_le limit)) deep
    refine .inl ⟨p, reaches, unknown, level, ?_⟩
    have fails := Point.outcome_error_iff_reaches.2 ⟨p, reaches, .tooDeep unknown deep⟩
    rwa [level] at fails
  · exact .inr fun more => eval_larger (Nat.le_add_right limit more) overflows

variable {f : Functions} {n : Node}

/-- Evaluation of a tree in which no node stands twice and none has a value yet finds the value that it
finds within some limit, unless some node lies too deep. -/
theorem eval_once_placed (pure : call.Answers f) {env : Env} {s : Machine σ}
    (once : ((Expr.preorder n).map Node.identity).Nodup)
    (empty : ∀ m ∈ Expr.preorder n, s.memo.kept? m = none) {enough : Nat} {v : Value}
    (found : (n.eval call enough env s).1 = .ok v) (limit : Nat) :
    (n.eval call limit env s).1 = Place.orTooDeep limit (Expr.placed s.depth n) v := by
  have value := (eval_once_faithful pure env enough once empty).sound v found
  have guarded : n.GuardedIn call limit f (n.occurrences f env.lookup?) (Expr.preorder n) :=
    eval_guarded pure (settled_of_once once _) (.of_once once) (Expr.mem_preorder_self n)
  have run := guarded env s (List.Subset.refl _) ⟨agrees_of_empty empty _, .of_empty empty⟩
  rw [run.outcome, firstMet_visits once empty, visits_eq_placed value, value, ← Place.orTooDeep_bind]

/-- The depth limit is exact. If evaluating a tree, in which no node stands twice and none has a value yet,
finds a value within some limit, then it finds it within the limits from the height of the tree on;
and within every other limit it fails at the first node, in the order of evaluation, that lies below
the last level. -/
theorem eval_ok_iff_height_le (call : Caller σ) (f : Functions) (pure : call.Answers f) (n : Node)
    (env : Env) (memo : Memo) (world : σ) (once : ((Expr.preorder n).map Node.identity).Nodup)
    (empty : ∀ m ∈ Expr.preorder n, memo.kept? m = none) {enough : Nat} {v : Value}
    (found : (n.eval call enough env ⟨0, memo, world⟩).1 = .ok v) (limit : Nat) :
    ((n.eval call limit env ⟨0, memo, world⟩).1 = .ok v ↔ Expr.height n ≤ limit) ∧
      (¬ Expr.height n ≤ limit → ∃ m : Node,
        (Expr.placed 0 n).find? (fun p => limit ≤ p.1) = some (limit, m) ∧
          (n.eval call limit env ⟨0, memo, world⟩).1 =
            .error ⟨[m.position], .tooDeep limit limit⟩) := by
  have measured := eval_once_placed pure once empty found limit
  have low : (∀ p ∈ Expr.placed 0 n, p.1 < limit) ↔ Expr.height n ≤ limit := by
    rw [Expr.placed_lt_iff, Nat.zero_add]
  rw [measured, Place.orTooDeep_ok, low]
  refine ⟨and_iff_left rfl, fun high => ?_⟩
  cases first : (Expr.placed 0 n).find? fun p => limit ≤ p.1 with
  | none =>
    refine absurd (low.1 fun p member => ?_) high
    simpa using List.find?_eq_none.1 first p member
  | some p =>
    have level := Expr.depth_of_find?_placed (Nat.zero_le limit) first
    obtain ⟨depth, m⟩ := p
    obtain rfl : depth = limit := level
    exact ⟨m, rfl, by rw [Place.orTooDeep, first]⟩

namespace Outgrowing

def g : Node := .var ⟨2, ⟨"s", 1, 2, 1⟩⟩ "g"

/-- `[g [a], b]`, of height four. -/
def node : Node :=
  .vector ⟨0, ⟨"s", 1, 1, 0⟩⟩ [
    .apply ⟨1, ⟨"s", 1, 4, 3⟩⟩ g (.vector ⟨3, ⟨"s", 1, 4, 3⟩⟩ [.var ⟨4, ⟨"s", 1, 5, 4⟩⟩ "a"]),
    .var ⟨5, ⟨"s", 1, 9, 8⟩⟩ "b"]

def env : Env :=
  ((Env.empty.register "g" (.function (.host 0) [])).register "a" (.bool true)).register "b" (.bool false)

theorem once : ((Expr.preorder node).map Node.identity).Nodup := by decide

theorem empty : ∀ m ∈ Expr.preorder node, Memo.kept? ∅ m = none :=
  fun _ _ => Std.HashMap.getElem?_empty

theorem found : (node.eval giveBack 9 env ⟨0, ∅, ()⟩).1 =
    .ok (.vector [.vector [.bool true], .bool false]) :=
  ((eval_once_faithful giveBack_answers env 9 (s := ⟨0, ∅, ()⟩) once empty).exact (by decide)).trans rfl

end Outgrowing

/-- Four levels are enough for the tree; of two levels the function is the first node that lies below. -/
theorem eval_ok_iff_height_le_outgrowing :
    (Outgrowing.node.eval giveBack 4 Outgrowing.env ⟨0, ∅, ()⟩).1 =
        .ok (.vector [.vector [.bool true], .bool false]) ∧
      (Outgrowing.node.eval giveBack 2 Outgrowing.env ⟨0, ∅, ()⟩).1 =
        .error ⟨[⟨"s", 1, 2, 1⟩], .tooDeep 2 2⟩ := by
  have exact := eval_ok_iff_height_le giveBack _ giveBack_answers Outgrowing.node Outgrowing.env ∅ ()
    Outgrowing.once Outgrowing.empty Outgrowing.found
  obtain ⟨m, first, failed⟩ := (exact 2).2 (by decide)
  have here : (Expr.placed 0 Outgrowing.node).find? (fun p => 2 ≤ p.1) = some (2, Outgrowing.g) := rfl
  cases here.symm.trans first
  exact ⟨(exact 4).1.2 (by decide), failed⟩

end Node

end

end Formula
