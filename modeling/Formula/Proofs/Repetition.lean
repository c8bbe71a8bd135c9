import Formula.Proofs.Filling

/-! Evaluating a tree once more. What the first evaluation found is kept, so that the second one takes
another way through the tree; where the first one failed, the second one comes to the same node,
in the same frames and at the same depth. Main statement: in every session, running again gives the
same outcome and keeps nothing new. -/
namespace Formula

/-- What may be kept when a run is made once more: after a failure what the run left, and after a value
perhaps more than that. -/
def Memo.After {σ α : Type} (memo : Memo) (run : Except RuntimeError α × Machine σ) : Prop :=
  run.2.memo.Extends memo ∧ ∀ e, run.1 = .error e → memo = run.2.memo

/-- A run from `s` that finds `outcome` and keeps nothing. -/
structure Steady {σ α : Type} (outcome : Except RuntimeError α) (s : Machine σ)
    (run : Except RuntimeError α × Machine σ) : Prop where
  outcome : run.1 = outcome
  memo : run.2.memo = s.memo
  depth : run.2.depth = s.depth

/-- A run of `k` from `s` that takes nothing back and can be made once more: at the same depth, whatever
has happened in the world, it finds the same and keeps nothing new. -/
structure Repeats {σ α : Type} (k : Machine σ → Except RuntimeError α × Machine σ)
    (s : Machine σ) : Prop where
  depth : (k s).2.depth = s.depth
  grows : s.memo.Extends (k s).2.memo
  again : ∀ s' : Machine σ, s'.depth = s.depth → s'.memo.After (k s) → Steady (k s).1 s' (k s')

namespace Repeats

variable {σ α β : Type} {limit : Nat} {s : Machine σ}
  {k : Machine σ → Except RuntimeError α × Machine σ}

theorem pure (outcome : Except RuntimeError α) (s : Machine σ) : Repeats (fun s => (outcome, s)) s :=
  ⟨rfl, .refl _, fun _ _ _ => ⟨rfl, rfl, rfl⟩⟩

theorem andThen {next : α → Machine σ → Except RuntimeError β × Machine σ} (first : Repeats k s)
    (rest : ∀ v, (k s).1 = .ok v → Repeats (next v) (k s).2) :
    Repeats (fun s => Machine.andThen (k s) next) s := by
  obtain ⟨depth, grows, again⟩ := first
  cases run : k s with
  | mk outcome middle =>
    rw [run] at depth grows again rest
    cases outcome with
    | error e =>
      refine ⟨by simpa [run, Machine.andThen] using depth, by simpa [run, Machine.andThen] using grows, ?_⟩
      intro s' level after
      simp only [run, Machine.andThen] at after ⊢
      obtain ⟨found, memo, depth'⟩ := again s' level ⟨after.1, fun _ _ => after.2 e rfl⟩
      generalize k s' = run' at found memo depth'
      obtain ⟨outcome', middle'⟩ := run'
      cases found
      exact ⟨rfl, memo, depth'⟩
    | ok v =>
      have later := rest v rfl
      refine ⟨by simpa [run, Machine.andThen] using later.depth.trans depth,
        by simpa [run, Machine.andThen] using grows.trans later.grows, ?_⟩
      intro s' level after
      simp only [run, Machine.andThen] at after ⊢
      obtain ⟨found, memo, depth'⟩ := again s' level ⟨later.grows.trans after.1, fun _ no => by cases no⟩
      generalize k s' = run' at found memo depth'
      obtain ⟨outcome', middle'⟩ := run'
      cases found
      have second := later.again middle' (depth'.trans (level.trans depth.symm)) (memo ▸ after)
      exact ⟨second.outcome, second.memo.trans memo, second.depth.trans depth'⟩

/-- A node that kept a value gives it again. One that kept none is entered again, and fails again. -/
theorem enter {n : Node} {nodes below : List Node} {body : Machine σ → Outcome × Machine σ}
    (fills : Fills nodes below n.Holds s (Machine.enter limit n.tag body s))
    (run : Repeats body { s with depth := s.depth + 1 }) :
    Repeats (Machine.enter limit n.tag body) s := by
  refine ⟨fills.depth, fills.grows, fun s' level after => ?_⟩
  have holds := fills.found
  cases outcome : (Machine.enter limit n.tag body s).1 with
  | ok v =>
    rw [outcome] at holds
    rw [Machine.enter_known (after.1 _ _ holds)]
    exact ⟨rfl, rfl, rfl⟩
  | error e =>
    have left := after.2 e outcome
    rw [outcome] at holds
    have unknown : s'.memo.kept? n = none := left ▸ holds
    have first : s.memo.kept? n = none := by
      refine Option.eq_none_iff_forall_ne_some.2 fun v kept => ?_
      exact absurd (holds.symm.trans (fills.grows _ _ kept)) nofun
    by_cases deep : limit ≤ s.depth
    · rw [Machine.enter_deep first deep] at outcome
      rw [Machine.enter_deep unknown (level.symm ▸ deep), level]
      exact ⟨outcome, rfl, rfl⟩
    · have room : ¬ limit ≤ s'.depth := level.symm ▸ deep
      have again := run.again { s' with depth := s'.depth + 1 } (congrArg (· + 1) level)
      rcases found : body { s with depth := s.depth + 1 } with ⟨_ | v, m⟩
      · next f =>
        rw [Machine.enter_failed first deep found] at outcome left
        rw [found] at again
        obtain ⟨fails, memo, depth⟩ := again ⟨left ▸ .refl _, fun _ _ => left⟩
        rcases found' : body { s' with depth := s'.depth + 1 } with ⟨answer, m'⟩
        rw [found'] at fails memo depth
        obtain rfl : answer = .error f := fails
        rw [Machine.enter_failed unknown room found']
        exact ⟨outcome, memo, Nat.sub_eq_of_eq_add depth⟩
      · rw [Machine.enter_found first deep found] at outcome
        cases outcome

end Repeats

namespace Node

variable {σ : Type} {call : Caller σ} {limit : Nat} {f : Functions} {nodes : List Node} {n : Node}

theorem applyAt_repeats (pure : call.Answers f) (t : Tag) (callee : Callee) (captured : List Value)
    (arg : Value) (s : Machine σ) : Repeats (applyAt call t callee captured arg) s := by
  have steady (s : Machine σ) : Steady ((f callee captured arg).mapError (Fault.locate t.position)) s
      (applyAt call t callee captured arg s) := by
    rw [← pure callee captured arg s.world, applyAt]
    rcases call callee captured arg s.world with ⟨_ | v, world⟩ <;> exact ⟨rfl, rfl, rfl⟩
  refine ⟨(steady s).depth, (steady s).memo ▸ .refl _, fun s' _ _ => ?_⟩
  exact (steady s).outcome ▸ steady s'

/-- Whether evaluating a node, in whatever frames and from whatever machine, can be made once more. -/
def RepeatsIn (call : Caller σ) (limit : Nat) (n : Node) : Prop :=
  ∀ (env : Env) (s : Machine σ), Repeats (n.eval call limit env) s

theorem evalAll_repeats {ns : List Node} (each : ∀ n ∈ ns, n.RepeatsIn call limit) (env : Env)
    (s : Machine σ) : Repeats (evalAll call limit ns env) s := by
  induction ns generalizing s with
  | nil => exact .pure _ s
  | cons n ns ih =>
    rw [funext (evalAll_cons n ns env)]
    refine (each n List.mem_cons_self env s).andThen fun v _ => ?_
    exact (ih (fun m below => each m (List.mem_cons_of_mem _ below)) _).andThen fun vs _ => .pure _ _

theorem body_repeats (pure : call.Answers f) (each : ∀ c ∈ Expr.children n, RepeatsIn call limit c)
    (env : Env) (s : Machine σ) : Repeats (n.body call limit env) s := by
  cases n with
  | literal | var => exact .pure _ s
  | vector t es => exact (evalAll_repeats each env s).andThen fun vs _ => .pure _ _
  | apply t g x =>
    obtain ⟨eachG, eachX⟩ := List.forall_mem_cons.1 each
    refine (eachG env s).andThen fun v _ => ?_
    cases v with
    | function callee captured =>
      exact (List.forall_mem_singleton.1 eachX env _).andThen fun arg _ =>
        applyAt_repeats pure t callee captured arg _
    | _ => exact .pure _ _
  | letIn t x b e =>
    obtain ⟨eachB, eachE⟩ := List.forall_mem_cons.1 each
    exact (eachB env s).andThen fun v _ => List.forall_mem_singleton.1 eachE _ _

/-- Every evaluation can be made once more. -/
theorem eval_repeats (pure : call.Answers f) (forest : Forest nodes) (member : n ∈ nodes) :
    n.RepeatsIn call limit := by
  induction n using Expr.induct_children with
  | node n ih =>
    intro env s
    have fills : FillsIn call limit nodes n := eval_fills forest member
    have here := fills env s
    rw [eval_eq_enter] at here
    rw [funext (eval_eq_enter n env)]
    exact .enter here
      (body_repeats pure (fun c child => ih c child (forest.children n member c child)) env _)

end Node

namespace Workspace

/-- Running again changes nothing: whatever was built, shared and evaluated before, by whatever
functions, evaluating a tree twice in the same frames and within the same limit gives the same
outcome both times, failures and their traces included, and the second time nothing more is kept. -/
theorem eval_again {σ : Type} (before call : Caller σ) (f : Functions) (pure : call.Answers f)
    (world : σ) {w : Workspace σ} (reached : (initial world).Reaches before w) {n : Node}
    (atHand : n ∈ w.nodes) (limit : Nat) (env : Env) :
    let (outcome, once) := w.session.eval call limit n env
    let (outcome', twice) := once.eval call limit n env
    outcome' = outcome ∧ twice.machine.memo = once.machine.memo := by
  have repeats : n.RepeatsIn call limit := Node.eval_repeats pure reached.wellFormed.forest atHand
  have first := repeats env w.session.machine
  have second := first.again _ first.depth ⟨.refl _, fun _ _ => rfl⟩
  exact ⟨second.outcome, second.memo⟩

namespace Overflowing

def x : Node := .var ⟨3, ⟨"s", 1, 15, 14⟩⟩ "x"

/-- `let x = y in [x, [[x]]]`. -/
def node : Node :=
  .letIn ⟨0, ⟨"s", 1, 1, 0⟩⟩ "x" (.var ⟨1, ⟨"s", 1, 9, 8⟩⟩ "y")
    (.vector ⟨2, ⟨"s", 1, 14, 13⟩⟩ [x, .vector ⟨4, ⟨"s", 1, 18, 17⟩⟩
      [.vector ⟨5, ⟨"s", 1, 19, 18⟩⟩ [.var ⟨6, ⟨"s", 1, 20, 19⟩⟩ "x"]]])

def workspace : Workspace Unit := (initial ()).build (Expr.map Tag.position node)

def env : Env := Env.empty.register "y" (.bool true)

theorem reached : (initial ()).Reaches Node.giveBack workspace := .single (.build _)

theorem atHand : node ∈ workspace.nodes := List.mem_cons_self

theorem eval_node :
    (workspace.session.eval Node.giveBack 3 node env).1 =
        .error ⟨[⟨"s", 1, 19, 18⟩], .tooDeep 3 3⟩ ∧
      (workspace.session.eval Node.giveBack 3 node env).2.kept? x = some (.bool true) := by
  simp [workspace, node, x, env, build, initial, Session.initial, Session.build, Session.eval,
    Session.kept?, Machine.initial, Machine.enter, Machine.keep, Node.eval, Node.evalAll, Node.identity,
    Expr.tag, Env.empty, Env.child, Env.lookup?, Env.lookupIn, Env.register, List.lookup_cons,
    Std.HashMap.getElem_insertIfNew]

end Overflowing

theorem eval_again_overflowing :
    let (_, once) := Overflowing.workspace.session.eval Node.giveBack 3 Overflowing.node Overflowing.env
    let (outcome, twice) := once.eval Node.giveBack 3 Overflowing.node Overflowing.env
    outcome = .error ⟨[⟨"s", 1, 19, 18⟩], .tooDeep 3 3⟩ ∧ twice.machine.memo = once.machine.memo := by
  have again := eval_again Node.giveBack Node.giveBack _ Node.giveBack_answers () Overflowing.reached
    Overflowing.atHand 3 Overflowing.env
  exact ⟨again.1.trans Overflowing.eval_node.1, again.2⟩

end Workspace

end Formula
