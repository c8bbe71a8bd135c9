import Formula.Proofs.Kept

/-! What an evaluation adds to the values that nodes keep, whatever functions answer. It adds values of
nodes of its own tree alone, children before parents, takes none back, and leaves the depth as it
was. Main statement: after an evaluation a node keeps a value exactly if one was found, and then it
is that value. -/
namespace Formula

/-- Where a node keeps a value, its children keep values. -/
def Memo.Closed (memo : Memo) (nodes : List Node) : Prop :=
  ∀ n ∈ nodes, ∀ v, memo.kept? n = some v → ∀ c ∈ Expr.children n, ∃ u, memo.kept? c = some u

namespace Memo.Closed

variable {memo : Memo} {nodes : List Node} {n : Node}

theorem of_empty (empty : ∀ n ∈ nodes, memo.kept? n = none) : memo.Closed nodes :=
  fun n member v kept => by simp [empty n member] at kept

theorem insertIfNew (closed : memo.Closed nodes) (coherent : Coherent nodes) (member : n ∈ nodes)
    (children : ∀ c ∈ Expr.children n, ∃ u, memo.kept? c = some u) (v : Value) :
    Memo.Closed (memo.insertIfNew n.identity v) nodes := by
  have more : memo.Extends (memo.insertIfNew n.identity v) := .insertIfNew _ _ _
  intro m atHand w kept c child
  rcases getElem?_insertIfNew_some.1 kept with old | ⟨same, _, rfl⟩
  · obtain ⟨u, found⟩ := closed m atHand w old c child
    exact ⟨u, more _ _ found⟩
  · obtain rfl := coherent m atHand n member same
    obtain ⟨u, found⟩ := children c child
    exact ⟨u, more _ _ found⟩

/-- Whatever lies below a node that keeps a value keeps a value too. -/
theorem kept_below (closed : memo.Closed nodes) (forest : Forest nodes) (member : n ∈ nodes)
    {m : Node} {v : Value} (kept : memo.kept? n = some v) (below : m ∈ Expr.preorder n) :
    ∃ w, memo.kept? m = some w := by
  induction n using Expr.induct_children generalizing v with
  | node n ih =>
    rcases Expr.mem_preorder.1 below with rfl | ⟨c, child, deeper⟩
    · exact ⟨v, kept⟩
    · obtain ⟨w, keptChild⟩ := closed n member v kept c child
      exact ih c child (forest.children n member c child) keptChild deeper

end Memo.Closed

/-- A run from `s` that adds values of nodes of `below` only; `found` says what is kept in the end. -/
structure Fills {σ α : Type} (nodes below : List Node) (found : Except RuntimeError α → Memo → Prop)
    (s : Machine σ) (run : Except RuntimeError α × Machine σ) : Prop where
  depth : run.2.depth = s.depth
  grows : s.memo.Extends run.2.memo
  added : ∀ (i : Nat) (v : Value), run.2.memo[i]? = some v →
    s.memo[i]? = some v ∨ ∃ n ∈ below, Node.identity n = i
  closed : s.memo.Closed nodes → run.2.memo.Closed nodes
  found : found run.1 run.2.memo

/-- A node keeps what was found for it. -/
def Node.Holds (n : Node) (outcome : Outcome) (memo : Memo) : Prop :=
  memo.kept? n = outcome.toOption

/-- Where a value was found, the nodes keep values. -/
def Memo.HoldsAll {α : Type} (ns : List Node) (outcome : Except RuntimeError α) (memo : Memo) : Prop :=
  ∀ v, outcome = .ok v → ∀ n ∈ ns, ∃ u, memo.kept? n = some u

namespace Fills

variable {σ α β : Type} {limit : Nat} {nodes below part : List Node}
  {found : Except RuntimeError α → Memo → Prop} {s : Machine σ}

theorem pure {outcome : Except RuntimeError α} (holds : found outcome s.memo) :
    Fills nodes below found s (outcome, s) :=
  ⟨rfl, .refl _, fun _ _ kept => .inl kept, id, holds⟩

theorem mono {later : Except RuntimeError α → Memo → Prop}
    {run : Except RuntimeError α × Machine σ} (fills : Fills nodes part found s run)
    (subset : part ⊆ below)
    (weaker : ∀ outcome memo, s.memo.Extends memo → found outcome memo → later outcome memo) :
    Fills nodes below later s run where
  depth := fills.depth
  grows := fills.grows
  added := fun i v kept => (fills.added i v kept).imp_right fun ⟨n, member, same⟩ =>
    ⟨n, subset member, same⟩
  closed := fills.closed
  found := weaker _ _ fills.grows fills.found

theorem andThen {later : Except RuntimeError β → Memo → Prop}
    {run : Except RuntimeError α × Machine σ}
    {k : α → Machine σ → Except RuntimeError β × Machine σ} (first : Fills nodes below found s run)
    (fails : ∀ e memo, later (.error e) memo)
    (rest : ∀ v, run.1 = .ok v → found (.ok v) run.2.memo →
      Fills nodes below later run.2 (k v run.2)) :
    Fills nodes below later s (Machine.andThen run k) := by
  obtain ⟨outcome, s'⟩ := run
  cases outcome with
  | error e => exact ⟨first.depth, first.grows, first.added, first.closed, fails e _⟩
  | ok v =>
    have second := rest v rfl first.found
    refine ⟨second.depth.trans first.depth, first.grows.trans second.grows, ?_,
      fun closed => second.closed (first.closed closed), second.found⟩
    exact fun i w kept => (second.added i w kept).elim (first.added i w) .inr

theorem enter (forest : Forest nodes) {n : Node} (member : n ∈ nodes)
    {body : Machine σ → Outcome × Machine σ}
    (run : Fills nodes ((Expr.children n).flatMap Expr.preorder) (Memo.HoldsAll (Expr.children n))
      { s with depth := s.depth + 1 } (body { s with depth := s.depth + 1 })) :
    Fills nodes (Expr.preorder n) n.Holds s (Machine.enter limit n.tag body s) := by
  rw [Expr.preorder_eq]
  cases unknown : s.memo.kept? n with
  | some v =>
    rw [Machine.enter_known unknown]
    exact .pure unknown
  | none =>
    by_cases deep : limit ≤ s.depth
    · rw [Machine.enter_deep unknown deep]
      exact .pure unknown
    have stays := run.mono (List.subset_cons_self n _) fun _ _ _ => id
    have absent := forest.absent member run.added unknown
    rcases found : body { s with depth := s.depth + 1 } with ⟨_ | v, s'⟩
    all_goals
      rw [found] at stays absent
      have depth : s'.depth - 1 = s.depth := Nat.sub_eq_of_eq_add stays.depth
    · rw [Machine.enter_failed unknown deep found]
      exact ⟨depth, stays.grows, stays.added, stays.closed, absent⟩
    · rw [Machine.enter_found unknown deep found]
      exact ⟨depth, stays.grows.trans (.insertIfNew _ _ _), Memo.added_insertIfNew stays.added,
        fun closed => (stays.closed closed).insertIfNew forest.coherent member (stays.found v rfl) v,
        Memo.getElem?_insertIfNew_some.2 (.inr ⟨rfl, absent, rfl⟩)⟩

end Fills

namespace Node

variable {σ : Type} {call : Caller σ} {limit : Nat} {nodes : List Node} {n : Node}

/-- What a node comes to once it is entered. -/
def body (call : Caller σ) (limit : Nat) : Node → Env → Machine σ → Outcome × Machine σ
  | .literal _ v, _, s => (.ok v, s)
  | .vector _ es, env, s =>
    Machine.andThen (evalAll call limit es env s) fun vs s => (.ok (.vector vs), s)
  | .var t x, env, s => ((env.lookup? x).elim (.error ⟨[t.position], .unbound x⟩) .ok, s)
  | .apply t g x, env, s =>
    Machine.andThen (eval call limit g env s) fun v s =>
      match v with
      | .function callee captured =>
        Machine.andThen (eval call limit x env s) fun arg s => applyAt call t callee captured arg s
      | v => (.error ⟨[t.position], .mistyped (.just .function) v.kind⟩, s)
  | .letIn _ x b e, env, s =>
    Machine.andThen (eval call limit b env s) fun v s =>
      eval call limit e (env.child.register x v) s

theorem eval_eq_enter (n : Node) (env : Env) (s : Machine σ) :
    n.eval call limit env s = Machine.enter limit n.tag (n.body call limit env) s := by
  cases n with
  | literal => rfl
  | vector => exact eval_vector _ _ env s
  | var t x =>
    cases found : env.lookup? x <;> simp [eval, body, found, Expr.tag, Machine.enter]
  | apply => exact eval_apply _ _ _ env s
  | letIn => exact eval_letIn _ _ _ _ env s

theorem eval_kept {env : Env} {s : Machine σ} {v : Value} (kept : s.memo.kept? n = some v) :
    n.eval call limit env s = (.ok v, s) :=
  (n.eval_eq_enter env s).trans (Machine.enter_known kept)

theorem applyAt_fills (t : Tag) (callee : Callee) (captured : List Value) (arg : Value)
    {s : Machine σ} {below : List Node} {found : Outcome → Memo → Prop}
    (holds : ∀ outcome, found outcome s.memo) :
    Fills nodes below found s (applyAt call t callee captured arg s) := by
  unfold applyAt
  generalize call callee captured arg s.world = result
  obtain ⟨_ | v, world⟩ := result <;>
    exact ⟨rfl, .refl _, fun _ _ kept => .inl kept, id, holds _⟩

/-- Whether evaluating a node, in whatever frames and from whatever machine, fills its tree alone. -/
def FillsIn (call : Caller σ) (limit : Nat) (nodes : List Node) (n : Node) : Prop :=
  ∀ (env : Env) (s : Machine σ), Fills nodes (Expr.preorder n) n.Holds s (n.eval call limit env s)

theorem evalAll_fills {ns : List Node} (each : ∀ n ∈ ns, n.FillsIn call limit nodes) (env : Env)
    (s : Machine σ) :
    Fills nodes (ns.flatMap Expr.preorder) (Memo.HoldsAll ns) s (evalAll call limit ns env s) := by
  induction ns generalizing s with
  | nil => exact .pure fun _ _ n member => by contradiction
  | cons n ns ih =>
    rw [evalAll_cons]
    have head := (each n List.mem_cons_self env s).mono
      (List.subset_append_left _ (ns.flatMap Expr.preorder)) fun _ _ _ => id
    refine head.andThen (fun e memo v ok => by cases ok) fun v _ kept => ?_
    have tail := (ih (fun m member => each m (List.mem_cons_of_mem _ member))
      (n.eval call limit env s).2).mono (List.subset_append_right (Expr.preorder n) _) fun _ _ _ => id
    refine tail.andThen (fun e memo w ok => by cases ok) fun vs ok all => .pure fun _ _ => ?_
    exact List.forall_mem_cons.2 ⟨⟨v, tail.grows _ _ kept⟩, all vs rfl⟩

theorem body_fills (each : ∀ c ∈ Expr.children n, FillsIn call limit nodes c) (env : Env)
    (s : Machine σ) :
    Fills nodes ((Expr.children n).flatMap Expr.preorder) (Memo.HoldsAll (Expr.children n)) s
      (n.body call limit env s) := by
  have child {c : Node} (member : c ∈ Expr.children n) (env : Env) (s : Machine σ) :
      Fills nodes ((Expr.children n).flatMap Expr.preorder) c.Holds s (c.eval call limit env s) :=
    (each c member env s).mono (fun m deeper => List.mem_flatMap.2 ⟨c, member, deeper⟩)
      fun _ _ _ => id
  have fails (e : RuntimeError) (memo : Memo) :
      Memo.HoldsAll (Expr.children n) (.error e : Outcome) memo := fun v ok => by cases ok
  cases n with
  | literal | var => exact .pure fun _ _ c none => by contradiction
  | vector t es =>
    exact (evalAll_fills each env s).andThen fails fun vs _ all => .pure fun _ _ => all vs rfl
  | apply t g x =>
    refine (child (c := g) List.mem_cons_self env s).andThen fails fun v _ keptG => ?_
    cases v with
    | function callee captured =>
      have argument := child (c := x) (by simp [Expr.children]) env (eval call limit g env s).2
      refine argument.andThen fails fun arg _ keptX => applyAt_fills t callee captured arg fun _ _ _ => ?_
      exact List.forall_mem_cons.2 ⟨⟨_, argument.grows _ _ keptG⟩,
        List.forall_mem_singleton.2 ⟨arg, keptX⟩⟩
    | _ => exact .pure fun v ok => by cases ok
  | letIn t x b e =>
    refine (child (c := b) List.mem_cons_self env s).andThen fails fun v _ keptB => ?_
    refine (child (c := e) (by simp [Expr.children]) _ _).mono (List.Subset.refl _)
      fun outcome memo more kept w ok => ?_
    rw [ok] at kept
    exact List.forall_mem_cons.2 ⟨⟨v, more _ _ keptB⟩, List.forall_mem_singleton.2 ⟨w, kept⟩⟩

/-- An evaluation fills the tree of its node alone. -/
theorem eval_fills (forest : Forest nodes) (member : n ∈ nodes) : n.FillsIn call limit nodes := by
  induction n using Expr.induct_children with
  | node n ih =>
    intro env s
    rw [eval_eq_enter]
    exact .enter forest member
      (body_fills (fun c child => ih c child (forest.children n member c child)) env _)

end Node

namespace Workspace

variable {σ : Type} {call : Caller σ} {w w' : Workspace σ}

/-- Values that nodes keep are never taken back. -/
theorem Reaches.extends (wf : w.WellFormed) (later : w.Reaches call w') :
    w'.WellFormed ∧ w.session.machine.memo.Extends w'.session.machine.memo := by
  induction later with
  | refl => exact ⟨wf, .refl _⟩
  | tail _ act ih =>
    obtain ⟨wf', grows⟩ := ih
    refine ⟨wf'.step act, grows.trans ?_⟩
    cases act with
    | build | join | optimise | share | openContext => exact .refl _
    | eval limit n env atHand =>
      have fills : n.FillsIn call limit _ := Node.eval_fills wf'.forest atHand
      exact (fills env _).grows

end Workspace

end Formula
