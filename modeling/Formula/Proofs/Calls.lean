import Formula.Proofs.Filling

/-! How often functions are called. A caller that counts takes the same way through a tree as the
caller alone. Whenever an application finds a value, it has made one call for itself, and it keeps the
value from then on. Main statement: where nothing was kept before, as many calls are made as the tree
has distinct applications, and afterwards none any more. -/
namespace Formula

/-- The same caller, which counts the calls made. -/
def Caller.counted {σ : Type} (call : Caller σ) : Caller (σ × Nat)
  | callee, captured, arg, (world, calls) =>
    let (answer, world) := call callee captured arg world
    (answer, world, calls + 1)

/-- The same machine, with a count beside the world. -/
def Machine.counting {σ : Type} (s : Machine σ) (calls : Nat) : Machine (σ × Nat) :=
  ⟨s.depth, s.memo, s.world, calls⟩

/-- The number of calls that evaluating a node makes. -/
def Node.calls {σ : Type} (call : Caller σ) (limit : Nat) (n : Node) (env : Env) (s : Machine σ) : Nat :=
  (n.eval call.counted limit env (s.counting 0)).2.world.2

/-- Whether a node is an application. -/
def Expr.isApply {α : Type} : Expr α → Bool
  | .apply _ _ _ => true
  | _ => false

/-- The distinct applications among nodes, by their identities. -/
def applications (ns : List Node) : Finset Nat := ((ns.filter Expr.isApply).map Node.identity).toFinset

theorem mem_applications {ns : List Node} {i : Nat} :
    i ∈ applications ns ↔ ∃ n ∈ ns, Expr.isApply n = true ∧ Node.identity n = i := by
  simp [applications, and_assoc]

theorem Forest.tree {nodes : List Node} (forest : Forest nodes) {n : Node} (member : n ∈ nodes) :
    Forest (Expr.preorder n) where
  children := fun _ below _ child => Expr.child_mem_preorder child below
  coherent := forest.coherent.mono (forest.below member)

namespace Memo

variable {nodes : List Node} {memo : Memo}

/-- The number of distinct applications that have values. -/
def applied (memo : Memo) (nodes : List Node) : Nat := ((applications nodes).filter (memo.contains ·)).card

theorem applied_empty (empty : ∀ n ∈ nodes, memo.kept? n = none) : memo.applied nodes = 0 := by
  refine Finset.card_eq_zero.2 (Finset.filter_eq_empty_iff.2 fun i member => ?_)
  obtain ⟨n, atHand, _, rfl⟩ := mem_applications.1 member
  simp [memo.contains_eq n, empty n atHand]

theorem applied_full (full : ∀ n ∈ nodes, ∃ v, memo.kept? n = some v) :
    memo.applied nodes = (applications nodes).card := by
  refine congrArg Finset.card (Finset.filter_eq_self.2 fun i member => ?_)
  obtain ⟨n, atHand, _, rfl⟩ := mem_applications.1 member
  obtain ⟨v, kept⟩ := full n atHand
  simp [memo.contains_eq n, kept]

theorem applied_insertIfNew (coherent : Coherent nodes) {n : Node} (member : n ∈ nodes)
    (absent : memo.kept? n = none) (v : Value) :
    Memo.applied (memo.insertIfNew n.identity v) nodes =
      memo.applied nodes + if Expr.isApply n then 1 else 0 := by
  have parts : (applications nodes).filter ((memo.insertIfNew n.identity v).contains ·) =
      (applications nodes).filter (· = n.identity) ∪ (applications nodes).filter (memo.contains ·) := by
    rw [← Finset.filter_or]
    refine Finset.filter_congr fun i _ => ?_
    rw [Std.HashMap.contains_insertIfNew, Bool.or_eq_true, beq_iff_eq, eq_comm]
  have apart : Disjoint ((applications nodes).filter (· = n.identity))
      ((applications nodes).filter (memo.contains ·)) := by
    refine Finset.disjoint_filter.2 fun i _ same known => ?_
    rw [same, memo.contains_eq n, absent] at known
    contradiction
  have here : ((applications nodes).filter (· = n.identity)).card =
      if Expr.isApply n then 1 else 0 := by
    rw [Finset.filter_eq']
    by_cases application : Expr.isApply n = true
    · simp [application, mem_applications.2 ⟨n, member, application, rfl⟩]
    · have outside : n.identity ∉ applications nodes := fun inside => by
        obtain ⟨m, atHand, isApply, same⟩ := mem_applications.1 inside
        exact application (coherent m atHand n member same ▸ isApply)
      simp [application, outside]
  rw [applied, parts, Finset.card_union_of_disjoint apart, here, Nat.add_comm, applied]

end Memo

/-- Whether a run of `k` from `s`, counted from any number on, comes to the same; and if it finds a
value, it has counted a call for each application that has a value since, and `own` more. -/
def Tallies {σ α : Type} (nodes : List Node) (own : Nat)
    (k : Machine σ → Except RuntimeError α × Machine σ)
    (counted : Machine (σ × Nat) → Except RuntimeError α × Machine (σ × Nat)) (s : Machine σ) : Prop :=
  ∀ calls, ∃ total, counted (s.counting calls) = ((k s).1, (k s).2.counting total) ∧
    ∀ v, (k s).1 = .ok v →
      total + s.memo.applied nodes = calls + own + (k s).2.memo.applied nodes

namespace Tallies

variable {σ α β : Type} {limit own later : Nat} {nodes : List Node} {s : Machine σ}
  {k : Machine σ → Except RuntimeError α × Machine σ}
  {counted : Machine (σ × Nat) → Except RuntimeError α × Machine (σ × Nat)}

theorem pure (outcome : Except RuntimeError α) (s : Machine σ) :
    Tallies nodes 0 (fun s => (outcome, s)) (fun s => (outcome, s)) s :=
  fun calls => ⟨calls, rfl, fun _ _ => rfl⟩

theorem fails (e : RuntimeError) (s : Machine σ) :
    Tallies (α := α) nodes own (fun s => (.error e, s)) (fun s => (.error e, s)) s :=
  fun calls => ⟨calls, rfl, fun _ ok => by cases ok⟩

theorem andThen {next : α → Machine σ → Except RuntimeError β × Machine σ}
    {counted' : α → Machine (σ × Nat) → Except RuntimeError β × Machine (σ × Nat)}
    (first : Tallies nodes own k counted s)
    (rest : ∀ v, (k s).1 = .ok v → Tallies nodes later (next v) (counted' v) (k s).2) :
    Tallies nodes (own + later) (fun s => Machine.andThen (k s) next)
      (fun s => Machine.andThen (counted s) counted') s := by
  intro calls
  obtain ⟨middle, same, tally⟩ := first calls
  simp only [same]
  rcases run : k s with ⟨_ | v, s'⟩
  all_goals rw [run] at tally rest
  · exact ⟨middle, rfl, fun _ ok => by cases ok⟩
  · obtain ⟨total, same', tally'⟩ := rest v rfl middle
    refine ⟨total, same', fun w ok => ?_⟩
    have before := tally v rfl
    have after := tally' w ok
    simp only [Machine.andThen] at before after ⊢
    omega

/-- A node is entered alike. If it finds a value, its own run has counted its own call, and nothing below
it has counted it. -/
theorem enter (forest : Forest nodes) {n : Node} (member : n ∈ nodes)
    {body : Machine σ → Outcome × Machine σ} {bodyCounted : Machine (σ × Nat) → Outcome × Machine (σ × Nat)}
    (fills : Fills nodes ((Expr.children n).flatMap Expr.preorder) (Memo.HoldsAll (Expr.children n))
      { s with depth := s.depth + 1 } (body { s with depth := s.depth + 1 }))
    (run : Tallies nodes (if Expr.isApply n then 1 else 0) body bodyCounted
      { s with depth := s.depth + 1 }) :
    Tallies nodes 0 (Machine.enter limit n.tag body) (Machine.enter limit n.tag bodyCounted) s := by
  intro calls
  cases unknown : s.memo.kept? n with
  | some v =>
    rw [Machine.enter_known unknown, Machine.enter_known (s := s.counting calls) unknown]
    exact ⟨calls, rfl, fun _ _ => rfl⟩
  | none =>
    have unknown' : (s.counting calls).memo.kept? n = none := unknown
    by_cases deep : limit ≤ s.depth
    · rw [Machine.enter_deep unknown deep, Machine.enter_deep unknown' deep]
      exact ⟨calls, rfl, fun _ ok => by cases ok⟩
    obtain ⟨total, same, tally⟩ := run calls
    have absent := forest.absent member fills.added unknown
    rcases found : body { s with depth := s.depth + 1 } with ⟨_ | v, s'⟩
    all_goals rw [found] at same tally absent
    · rw [Machine.enter_failed unknown deep found, Machine.enter_failed unknown' deep same]
      exact ⟨total, rfl, fun _ ok => by cases ok⟩
    · rw [Machine.enter_found unknown deep found, Machine.enter_found unknown' deep same]
      refine ⟨total, rfl, fun _ _ => ?_⟩
      have before := tally v rfl
      have more := Memo.applied_insertIfNew forest.coherent member absent v
      show total + s.memo.applied nodes =
        calls + 0 + Memo.applied (s'.memo.insertIfNew n.identity v) nodes
      simp only at before more
      omega

end Tallies

namespace Node

variable {σ : Type} {call : Caller σ} {limit : Nat} {nodes : List Node} {n : Node}

theorem applyAt_tallies (t : Tag) (callee : Callee) (captured : List Value) (arg : Value)
    (s : Machine σ) :
    Tallies nodes 1 (applyAt call t callee captured arg)
      (applyAt call.counted t callee captured arg) s := by
  intro calls
  refine ⟨calls + 1, ?_⟩
  rcases answer : call callee captured arg s.world with ⟨_ | v, world⟩ <;>
    simp [applyAt, Caller.counted, Machine.counting, answer]

/-- Whether evaluating a node, in whatever frames and from whatever machine, counts one call for each
application that gets a value. -/
def TalliesIn (call : Caller σ) (limit : Nat) (nodes : List Node) (n : Node) : Prop :=
  ∀ (env : Env) (s : Machine σ),
    Tallies nodes 0 (n.eval call limit env) (n.eval call.counted limit env) s

theorem evalAll_tallies {ns : List Node} (each : ∀ n ∈ ns, n.TalliesIn call limit nodes) (env : Env)
    (s : Machine σ) :
    Tallies nodes 0 (evalAll call limit ns env) (evalAll call.counted limit ns env) s := by
  induction ns generalizing s with
  | nil => exact .pure _ s
  | cons n ns ih =>
    rw [funext (evalAll_cons n ns env), funext (evalAll_cons n ns env)]
    have tail (s : Machine σ) := ih (fun m below => each m (List.mem_cons_of_mem _ below)) s
    exact (each n List.mem_cons_self env s).andThen fun v _ =>
      (tail _).andThen fun vs _ => .pure _ _

theorem body_tallies (each : ∀ c ∈ Expr.children n, TalliesIn call limit nodes c) (env : Env)
    (s : Machine σ) :
    Tallies nodes (if Expr.isApply n then 1 else 0) (n.body call limit env)
      (n.body call.counted limit env) s := by
  cases n with
  | literal | var => exact .pure _ s
  | vector t es => exact (evalAll_tallies each env s).andThen fun vs _ => .pure _ _
  | apply t g x =>
    obtain ⟨eachG, eachX⟩ := List.forall_mem_cons.1 each
    show Tallies nodes (0 + 1) _ _ s
    refine (eachG env s).andThen fun v _ => ?_
    cases v with
    | function callee captured =>
      exact (List.forall_mem_singleton.1 eachX env _).andThen fun arg _ =>
        applyAt_tallies t callee captured arg _
    | _ => exact .fails _ _
  | letIn t x b e =>
    obtain ⟨eachB, eachE⟩ := List.forall_mem_cons.1 each
    exact (eachB env s).andThen fun v _ => List.forall_mem_singleton.1 eachE _ _

/-- An evaluation counts one call for each application that gets a value. -/
theorem eval_tallies (forest : Forest nodes) (member : n ∈ nodes) : n.TalliesIn call limit nodes := by
  induction n using Expr.induct_children with
  | node n ih =>
    intro env s
    have fills : ∀ c ∈ Expr.children n, FillsIn call limit nodes c := fun c child =>
      eval_fills forest (forest.children n member c child)
    rw [funext (eval_eq_enter n env), funext (eval_eq_enter n env)]
    exact .enter forest member (body_fills fills env _)
      (body_tallies (fun c child => ih c child (forest.children n member c child)) env _)

/-- Counting changes nothing else. -/
theorem eval_counted (forest : Forest nodes) (member : n ∈ nodes) (env : Env) (s : Machine σ) :
    n.eval call.counted limit env (s.counting 0) =
      ((n.eval call limit env s).1,
        (n.eval call limit env s).2.counting (n.calls call limit env s)) := by
  have tallies : n.TalliesIn call limit nodes := eval_tallies forest member
  obtain ⟨total, same, _⟩ := tallies env s 0
  rw [calls, same]
  rfl

end Node

namespace Workspace

/-- Every distinct application is called once: whatever was built and shared before, if none of a tree's
nodes has a value yet and evaluating the tree finds one, then as many calls were made as the tree has
distinct applications; and whatever happens in the session afterwards, evaluating the tree again, in
whatever frames, within whatever limit and by whatever functions, gives the same value, makes no call
and changes nothing. -/
theorem calls_once {σ : Type} (before call : Caller σ) (world : σ) {w : Workspace σ}
    (reached : (initial world).Reaches before w) {n : Node} (atHand : n ∈ w.nodes)
    (empty : ∀ m ∈ Expr.preorder n, w.session.kept? m = none) (limit : Nat) (env : Env) {v : Value}
    (found : (w.session.eval call limit n env).1 = .ok v) :
    n.calls call limit env w.session.machine = (applications (Expr.preorder n)).card ∧
      ∀ (others : Caller σ) (w' : Workspace σ), (w.eval call limit n env).Reaches others w' →
        ∀ (call' : Caller σ) (limit' : Nat) (env' : Env),
          w'.session.eval call' limit' n env' = (.ok v, w'.session) ∧
            n.calls call' limit' env' w'.session.machine = 0 := by
  have wf := reached.wellFormed
  have forest := wf.forest.tree atHand
  have root := Expr.mem_preorder_self n
  have fills : Node.FillsIn call limit (Expr.preorder n) n := Node.eval_fills forest root
  have run := fills env w.session.machine
  have keeps : (w.eval call limit n env).session.machine.memo.kept? n = some v :=
    run.found.trans (congrArg Except.toOption found)
  constructor
  · have tallies : Node.TalliesIn call limit (Expr.preorder n) n := Node.eval_tallies forest root
    obtain ⟨total, same, tally⟩ := tallies env w.session.machine 0
    have balance := tally v found
    rw [Memo.applied_empty empty, Memo.applied_full fun m below =>
      (run.closed (.of_empty empty)).kept_below forest root keeps below] at balance
    rw [Node.calls, same]
    show total = _
    simpa using balance
  · intro others w' later call' limit' env'
    have kept := (later.extends (wf.step (.eval limit n env atHand : Step call _ _))).2 _ _ keeps
    constructor
    · rw [Session.eval, Node.eval_kept kept]
    · rw [Node.calls, Node.eval_kept (s := w'.session.machine.counting 0) kept]
      rfl

namespace Calling

/-- `g(true)`. -/
def application : Node :=
  .apply ⟨0, .unknown⟩ (.var ⟨1, .unknown⟩ "g") (.literal ⟨2, .unknown⟩ (.bool true))

/-- `let x = g(true) in g(true)`, in which the application is one node. -/
def node : Node := .letIn ⟨3, .unknown⟩ "x" application application

def workspace : Workspace Unit :=
  ((initial ()).build (Expr.map Tag.position application)).join .unknown
    (.letIn · "x" application application)

def env : Env := Env.empty.register "g" (.function (.host 0) [])

theorem reached : (initial ()).Reaches Node.giveBack workspace := by
  refine .tail (.single (.build _))
    (.join _ (.letIn · "x" application application) (fun _ => rfl) fun _ => ?_)
  show ∀ c ∈ [application, application], c ∈ [application, _, _]
  simp

theorem atHand : node ∈ workspace.nodes := List.mem_append_right _ List.mem_cons_self

theorem empty : ∀ m ∈ Expr.preorder node, workspace.session.kept? m = none :=
  fun _ _ => Std.HashMap.getElem?_empty

theorem found : (workspace.session.eval Node.giveBack 3 node env).1 = .ok (.bool true) := by
  simp [workspace, node, application, env, join, build, initial, Session.initial, Session.build,
    Session.tag, Session.eval, Machine.initial, Machine.enter, Machine.keep, Node.eval, applyAt,
    Node.giveBack, Caller.ofHost, Env.empty, Env.lookup?, Env.lookupIn, Env.register,
    Std.HashMap.getElem_insertIfNew]

end Calling

theorem calls_once_calling :
    Calling.node.calls Node.giveBack 3 Calling.env Calling.workspace.session.machine = 1 ∧
      ∀ w, (Calling.workspace.eval Node.giveBack 3 Calling.node Calling.env).Reaches Node.giveBack w →
        (w.session.eval Node.giveBack 0 Calling.node Env.empty).1 = .ok (.bool true) := by
  have once := calls_once Node.giveBack Node.giveBack () Calling.reached Calling.atHand Calling.empty 3
    Calling.env Calling.found
  refine ⟨once.1.trans rfl, fun w later => ?_⟩
  exact congrArg Prod.fst (once.2 _ w later Node.giveBack 0 Env.empty).1

end Workspace

end Formula
