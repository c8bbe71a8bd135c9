import Formula.Proofs.Workspace

/-! The values that nodes keep. What a node keeps is what its kind makes of the values that its children
keep, which are there before it and never change; an evaluation that fails midway leaves it so, for
it only adds values of nodes whose children it has evaluated. Main statement: this holds wherever
the host of a session comes to. -/
namespace Formula

open List (Forall₂)

/-- The value kept for a node. -/
def Memo.kept? (memo : Memo) (n : Node) : Option Value := memo[n.identity]?

/-- Whether a value is what a node makes of the values that its children keep. What a variable keeps is
a matter of the frames in which it was evaluated. -/
def Node.Justified (f : Functions) (kept : Node → Option Value) : Node → Value → Prop
  | .literal _ w, v => v = w
  | .vector _ es, v => ∃ vs, Forall₂ (fun e w => kept e = some w) es vs ∧ v = .vector vs
  | .var _ _, _ => True
  | .apply _ g x, v => ∃ callee captured arg, kept g = some (.function callee captured) ∧
      kept x = some arg ∧ f callee captured arg = .ok v
  | .letIn _ _ b e, v => (∃ w, kept b = some w) ∧ kept e = some v

namespace Memo

/-- Whatever is kept in the one is kept in the other. -/
def Extends (before after : Memo) : Prop :=
  ∀ (i : Nat) (v : Value), before[i]? = some v → after[i]? = some v

/-- Only nodes in use keep values, and each of them a value that is justified. -/
structure Consistent (f : Functions) (nodes : List Node) (memo : Memo) : Prop where
  origin : ∀ (i : Nat) (v : Value), memo[i]? = some v → ∃ n ∈ nodes, Node.identity n = i
  justified : ∀ n ∈ nodes, ∀ v, memo.kept? n = some v → n.Justified f memo.kept? v

variable {f : Functions} {memo before middle after : Memo} {nodes : List Node}

theorem contains_eq (memo : Memo) (n : Node) : memo.contains n.identity = (memo.kept? n).isSome :=
  Std.HashMap.contains_eq_isSome_getElem?

theorem Extends.refl (memo : Memo) : memo.Extends memo := fun _ _ kept => kept

theorem getElem?_insertIfNew_some {i j : Nat} {v w : Value} :
    (memo.insertIfNew i v)[j]? = some w ↔
      memo[j]? = some w ∨ (j = i ∧ memo[i]? = none ∧ w = v) := by
  by_cases new : i = j ∧ memo[i]? = none
  · obtain ⟨rfl, absent⟩ := new
    rw [Std.HashMap.getElem?_insertIfNew, if_pos (by simpa using absent)]
    simp [absent, eq_comm]
  · have old : (memo.insertIfNew i v)[j]? = memo[j]? := by
      rw [Std.HashMap.getElem?_insertIfNew]
      exact if_neg (by simpa using new)
    rw [old]
    exact ⟨.inl, fun kept => kept.resolve_right fun ⟨same, absent, _⟩ => new ⟨same.symm, absent⟩⟩

theorem Extends.insertIfNew (memo : Memo) (i : Nat) (v : Value) :
    memo.Extends (memo.insertIfNew i v) := fun _ _ kept => getElem?_insertIfNew_some.2 (.inl kept)

theorem Extends.trans (first : before.Extends middle) (second : middle.Extends after) :
    before.Extends after := fun i v kept => second i v (first i v kept)

end Memo

namespace Node.Justified

variable {f : Functions} {n : Node} {v : Value}

theorem children {kept : Node → Option Value} (justified : n.Justified f kept v) :
    ∀ c ∈ Expr.children n, ∃ w, kept c = some w := by
  cases n with
  | literal | var => exact fun _ member => by contradiction
  | vector t es =>
    obtain ⟨vs, values, rfl⟩ := justified
    intro c member
    induction values with
    | nil => contradiction
    | cons head _ ih =>
      rcases List.mem_cons.1 member with rfl | later
      · exact ⟨_, head⟩
      · exact ih later
  | apply t g x =>
    obtain ⟨callee, captured, arg, function, argument, _⟩ := justified
    exact List.forall_mem_cons.2 ⟨⟨_, function⟩, List.forall_mem_singleton.2 ⟨_, argument⟩⟩
  | letIn t x b e =>
    exact List.forall_mem_cons.2 ⟨justified.1, List.forall_mem_singleton.2 ⟨_, justified.2⟩⟩

theorem mono {before after : Memo} (more : before.Extends after)
    (justified : n.Justified f before.kept? v) : n.Justified f after.kept? v := by
  cases n with
  | literal => exact justified
  | var => trivial
  | vector t es =>
    obtain ⟨vs, values, rfl⟩ := justified
    exact ⟨vs, values.imp fun _ _ kept => more _ _ kept, rfl⟩
  | apply t g x =>
    obtain ⟨callee, captured, arg, function, argument, answer⟩ := justified
    exact ⟨callee, captured, arg, more _ _ function, more _ _ argument, answer⟩
  | letIn t x b e =>
    obtain ⟨⟨w, bound⟩, body⟩ := justified
    exact ⟨⟨w, more _ _ bound⟩, more _ _ body⟩

end Node.Justified

theorem Memo.Consistent.empty (f : Functions) (nodes : List Node) : Memo.Consistent f nodes ∅ where
  origin := fun _ _ kept => absurd (Std.HashMap.getElem?_empty.symm.trans kept) nofun
  justified := fun _ _ _ kept => absurd (Std.HashMap.getElem?_empty.symm.trans kept) nofun

theorem Memo.Consistent.grow {f : Functions} {memo : Memo} {nodes more : List Node}
    (consistent : memo.Consistent f nodes) (part : nodes ⊆ more) (coherent : Coherent more) :
    memo.Consistent f more where
  origin := fun i v kept => (consistent.origin i v kept).imp fun _ found => ⟨part found.1, found.2⟩
  justified := by
    intro n member v kept
    obtain ⟨m, old, same⟩ := consistent.origin _ v kept
    obtain rfl := coherent m (part old) n member same
    exact consistent.justified m old v kept

theorem Memo.Consistent.insertIfNew {f : Functions} {memo : Memo} {nodes : List Node}
    (consistent : memo.Consistent f nodes) (coherent : Coherent nodes) {n : Node} {v : Value}
    (member : n ∈ nodes) (absent : memo[n.identity]? = none) (justified : n.Justified f memo.kept? v) :
    Memo.Consistent f nodes (memo.insertIfNew n.identity v) where
  origin := by
    intro i w kept
    rcases Memo.getElem?_insertIfNew_some.1 kept with old | ⟨rfl, _⟩
    · exact consistent.origin i w old
    · exact ⟨n, member, rfl⟩
  justified := by
    intro m atHand w kept
    rcases Memo.getElem?_insertIfNew_some.1 kept with old | ⟨same, _, rfl⟩
    · exact (consistent.justified m atHand w old).mono (.insertIfNew _ _ _)
    · obtain rfl := coherent m atHand n member same
      exact justified.mono (.insertIfNew _ _ _)

/-- A node keeps no value before its own run ends: values were added for nodes below it alone, and
nothing below a node is the node itself. -/
theorem Forest.absent {nodes : List Node} (forest : Forest nodes) {n : Node} (member : n ∈ nodes)
    {before after : Memo} (added : ∀ (i : Nat) (v : Value), after[i]? = some v →
      before[i]? = some v ∨ ∃ m ∈ (Expr.children n).flatMap Expr.preorder, Node.identity m = i)
    (unknown : before.kept? n = none) : after.kept? n = none := by
  refine Option.eq_none_iff_forall_ne_some.2 fun v kept => ?_
  rcases added _ v kept with old | ⟨m, below, same⟩
  · exact absurd (unknown.symm.trans old) (by simp)
  · exact forest.identity_ne_of_below member below same

theorem Memo.added_insertIfNew {before after : Memo} {n : Node} {below : List Node} {v : Value}
    (added : ∀ (i : Nat) (w : Value), after[i]? = some w →
      before[i]? = some w ∨ ∃ m ∈ n :: below, Node.identity m = i) (i : Nat) (w : Value)
    (kept : (after.insertIfNew n.identity v)[i]? = some w) :
    before[i]? = some w ∨ ∃ m ∈ n :: below, Node.identity m = i := by
  rcases Memo.getElem?_insertIfNew_some.1 kept with old | ⟨rfl, _⟩
  · exact added i w old
  · exact .inr ⟨n, List.mem_cons_self, rfl⟩

/-- A run from `s` that leaves what is kept consistent: it adds values of nodes of `below` only, and
where it finds a value, `found` says what is kept then. -/
structure Keeps {σ α : Type} (f : Functions) (nodes below : List Node) (found : α → Memo → Prop)
    (s : Machine σ) (run : Except RuntimeError α × Machine σ) : Prop where
  grows : s.memo.Extends run.2.memo
  added : ∀ (i : Nat) (v : Value), run.2.memo[i]? = some v →
    s.memo[i]? = some v ∨ ∃ n ∈ below, Node.identity n = i
  consistent : run.2.memo.Consistent f nodes
  found : ∀ v, run.1 = .ok v → found v run.2.memo

namespace Keeps

variable {σ α β : Type} {f : Functions} {limit : Nat} {nodes below part : List Node}
  {found : α → Memo → Prop} {s : Machine σ}

theorem pure {outcome : Except RuntimeError α} (consistent : s.memo.Consistent f nodes)
    (holds : ∀ v, outcome = .ok v → found v s.memo) : Keeps f nodes below found s (outcome, s) where
  grows := .refl _
  added := fun _ _ kept => .inl kept
  consistent := consistent
  found := holds

theorem mono {later : α → Memo → Prop} {run : Except RuntimeError α × Machine σ}
    (keeps : Keeps f nodes part found s run) (subset : part ⊆ below)
    (weaker : ∀ v memo, s.memo.Extends memo → found v memo → later v memo) :
    Keeps f nodes below later s run where
  grows := keeps.grows
  added := fun i v kept => (keeps.added i v kept).imp_right fun ⟨n, member, same⟩ =>
    ⟨n, subset member, same⟩
  consistent := keeps.consistent
  found := fun v ok => weaker v _ keeps.grows (keeps.found v ok)

theorem andThen {later : β → Memo → Prop} {run : Except RuntimeError α × Machine σ}
    {k : α → Machine σ → Except RuntimeError β × Machine σ} (first : Keeps f nodes below found s run)
    (rest : ∀ v, found v run.2.memo → Keeps f nodes below later run.2 (k v run.2)) :
    Keeps f nodes below later s (Machine.andThen run k) := by
  obtain ⟨outcome, s'⟩ := run
  cases outcome with
  | error e => exact ⟨first.grows, first.added, first.consistent, fun _ ok => by cases ok⟩
  | ok v =>
    have second := rest v (first.found v rfl)
    refine ⟨first.grows.trans second.grows, ?_, second.consistent, second.found⟩
    exact fun i w kept => (second.added i w kept).elim (first.added i w) .inr

/-- A node keeps the value that its own run finds, unless it keeps one already. Nothing below the node
is the node itself, so that it keeps nothing before that run ends. -/
theorem enter (forest : Forest nodes) {n : Node} (member : n ∈ nodes)
    {body : Machine σ → Outcome × Machine σ} (consistent : s.memo.Consistent f nodes)
    (run : Keeps f nodes ((Expr.children n).flatMap Expr.preorder)
      (fun v memo => n.Justified f memo.kept? v) { s with depth := s.depth + 1 }
      (body { s with depth := s.depth + 1 })) :
    Keeps f nodes (Expr.preorder n) (fun v memo => memo.kept? n = some v) s
      (Machine.enter limit n.tag body s) := by
  rw [Expr.preorder_eq]
  cases unknown : s.memo.kept? n with
  | some v =>
    rw [Machine.enter_known unknown]
    refine .pure consistent fun w ok => ?_
    cases ok
    exact unknown
  | none =>
    by_cases deep : limit ≤ s.depth
    · rw [Machine.enter_deep unknown deep]
      exact .pure consistent fun _ ok => by cases ok
    have stays := run.mono (List.subset_cons_self n _) fun _ _ _ justified => justified
    have absent := forest.absent member run.added unknown
    rcases found : body { s with depth := s.depth + 1 } with ⟨_ | v, s'⟩
    all_goals rw [found] at stays absent
    · rw [Machine.enter_failed unknown deep found]
      exact ⟨stays.grows, stays.added, stays.consistent, fun _ ok => by cases ok⟩
    · rw [Machine.enter_found unknown deep found]
      refine ⟨stays.grows.trans (.insertIfNew _ _ _), Memo.added_insertIfNew stays.added,
        stays.consistent.insertIfNew forest.coherent member absent (stays.found v rfl), ?_⟩
      intro w ok
      cases ok
      exact Memo.getElem?_insertIfNew_some.2 (.inr ⟨rfl, absent, rfl⟩)

end Keeps

namespace Node

variable {σ : Type} {call : Caller σ} {limit : Nat} {f : Functions} {nodes : List Node}

theorem applyAt_keeps (pure : call.Answers f) (t : Tag) (callee : Callee) (captured : List Value)
    (arg : Value) {s : Machine σ} (consistent : s.memo.Consistent f nodes) {below : List Node} :
    Keeps f nodes below (fun v _ => f callee captured arg = .ok v) s
      (applyAt call t callee captured arg s) := by
  have answer := pure callee captured arg s.world
  unfold applyAt
  generalize call callee captured arg s.world = result at answer ⊢
  obtain ⟨_ | v, world⟩ := result
  · exact ⟨.refl _, fun _ _ kept => .inl kept, consistent, fun _ ok => by cases ok⟩
  · refine ⟨.refl _, fun _ _ kept => .inl kept, consistent, fun w ok => ?_⟩
    cases ok
    exact answer.symm

/-- Whether evaluating a node keeps what is kept consistent, wherever it stands and whatever the limit
is, and gives the node a value wherever it finds one. -/
def KeepsIn (call : Caller σ) (limit : Nat) (f : Functions) (nodes : List Node) (n : Node) : Prop :=
  ∀ (env : Env) (s : Machine σ), s.memo.Consistent f nodes →
    Keeps f nodes (Expr.preorder n) (fun v memo => memo.kept? n = some v) s
      (n.eval call limit env s)

theorem evalAll_keeps {ns : List Node} (each : ∀ n ∈ ns, n.KeepsIn call limit f nodes) (env : Env)
    (s : Machine σ) (consistent : s.memo.Consistent f nodes) :
    Keeps f nodes (ns.flatMap Expr.preorder)
      (fun vs memo => Forall₂ (fun n v => memo.kept? n = some v) ns vs) s
      (evalAll call limit ns env s) := by
  induction ns generalizing s with
  | nil =>
    refine .pure consistent fun vs ok => ?_
    cases ok
    exact .nil
  | cons n ns ih =>
    rw [evalAll_cons]
    have head := (each n List.mem_cons_self env s consistent).mono
      (List.subset_append_left _ (ns.flatMap Expr.preorder)) fun _ _ _ kept => kept
    refine head.andThen fun v kept => ?_
    have tail := (ih (fun m member => each m (List.mem_cons_of_mem _ member)) _ head.consistent).mono
      (List.subset_append_right (Expr.preorder n) _) fun _ _ _ kept => kept
    refine tail.andThen fun vs others => .pure tail.consistent fun ws ok => ?_
    cases ok
    exact .cons (tail.grows _ _ kept) others

/-- Evaluation keeps what is kept consistent, at every node that is in use. -/
theorem eval_keeps (pure : call.Answers f) (forest : Forest nodes) {n : Node} (member : n ∈ nodes) :
    n.KeepsIn call limit f nodes := by
  have below {n c : Node} (child : c ∈ Expr.children n) :
      Expr.preorder c ⊆ (Expr.children n).flatMap Expr.preorder :=
    fun m deeper => List.mem_flatMap.2 ⟨c, child, deeper⟩
  induction n using Expr.induct with
  | literal t v =>
    intro env s consistent
    exact .enter forest member consistent (.pure consistent fun w ok => by cases ok; rfl)
  | var t x =>
    intro env s consistent
    refine .enter forest member consistent ?_
    cases env.lookup? x <;> exact .pure consistent fun _ _ => trivial
  | vector t es ih =>
    intro env s consistent
    rw [eval_vector]
    refine .enter forest member consistent ?_
    have elems := evalAll_keeps (fun e child => ih e child (forest.children _ member e child)) env
      { s with depth := s.depth + 1 } consistent
    refine elems.andThen fun vs kept => .pure elems.consistent fun w ok => ?_
    cases ok
    exact ⟨vs, kept, rfl⟩
  | apply t g x ihg ihx =>
    intro env s consistent
    obtain ⟨memberG, memberX⟩ := List.forall_mem_cons.1 (forest.children _ member)
    rw [eval_apply]
    refine .enter forest member consistent ?_
    have function := (ihg memberG env { s with depth := s.depth + 1 } consistent).mono
      (below (n := .apply t g x) List.mem_cons_self) fun _ _ _ kept => kept
    refine function.andThen fun v keptG => ?_
    cases v with
    | function callee captured =>
      have argument := (ihx (List.forall_mem_singleton.1 memberX) env _ function.consistent).mono
        (below (n := .apply t g x) (by simp [Expr.children])) fun _ _ _ kept => kept
      refine argument.andThen fun arg keptX => ?_
      refine (applyAt_keeps pure t callee captured arg argument.consistent).mono
        (List.Subset.refl _) fun w memo more answer => ?_
      exact ⟨callee, captured, arg, more _ _ (argument.grows _ _ keptG), more _ _ keptX, answer⟩
    | _ => exact .pure function.consistent fun _ ok => by cases ok
  | letIn t x b e ihb ihe =>
    intro env s consistent
    obtain ⟨memberB, memberE⟩ := List.forall_mem_cons.1 (forest.children _ member)
    rw [eval_letIn]
    refine .enter forest member consistent ?_
    have bound := (ihb memberB env { s with depth := s.depth + 1 } consistent).mono
      (below (n := .letIn t x b e) List.mem_cons_self) fun _ _ _ kept => kept
    refine bound.andThen fun v keptB => ?_
    have body := ihe (List.forall_mem_singleton.1 memberE) (env.child.register x v) _ bound.consistent
    exact body.mono (below (n := .letIn t x b e) (by simp [Expr.children]))
      fun w memo more keptE => ⟨⟨v, more _ _ keptB⟩, keptE⟩

end Node

namespace Workspace

variable {σ : Type} {call : Caller σ} {f : Functions} {w w' : Workspace σ}

/-- Every act of the host keeps what is kept, and keeps it consistent. -/
theorem WellFormed.keeps (wf : w.WellFormed) (pure : call.Answers f)
    (consistent : w.session.machine.memo.Consistent f w.nodes) (act : Step call w w') :
    w.session.machine.memo.Extends w'.session.machine.memo ∧
      w'.session.machine.memo.Consistent f w'.nodes := by
  have coherent := (wf.step act).forest.coherent
  cases act with
  | build | join | optimise | share =>
    exact ⟨.refl _, consistent.grow (List.subset_append_left _ _) coherent⟩
  | openContext => exact ⟨.refl _, consistent⟩
  | eval limit n env atHand =>
    have keeps : n.KeepsIn call limit f w.nodes :=
      Node.eval_keeps pure wf.forest atHand
    have run := keeps env w.session.machine consistent
    exact ⟨run.grows, run.consistent⟩

theorem WellFormed.keeps_on (wf : w.WellFormed) (pure : call.Answers f)
    (consistent : w.session.machine.memo.Consistent f w.nodes) (later : w.Reaches call w') :
    w'.WellFormed ∧ w.session.machine.memo.Extends w'.session.machine.memo ∧
      w'.session.machine.memo.Consistent f w'.nodes := by
  induction later with
  | refl => exact ⟨wf, .refl _, consistent⟩
  | tail _ act ih =>
    obtain ⟨wf', grows, consistent'⟩ := ih
    have next := wf'.keeps pure consistent' act
    exact ⟨wf'.step act, grows.trans next.1, next.2⟩

theorem Reaches.consistent {world : σ} (pure : call.Answers f)
    (reached : (initial world).Reaches call w) :
    w.session.machine.memo.Consistent f w.nodes :=
  ((wellFormed_initial world).keeps_on pure (.empty f []) reached).2.2

/-- What nodes keep is consistent in every session: whatever was built, shared and evaluated before,
with whatever failures, if a node keeps a value then so do its children, it is the value that the
node makes of theirs, and it is kept from then on. -/
theorem kept_justified (call : Caller σ) (f : Functions) (pure : call.Answers f) (world : σ)
    (reached : (initial world).Reaches call w) {n : Node} (atHand : n ∈ w.nodes) {v : Value}
    (kept : w.session.kept? n = some v) :
    (∀ c ∈ Expr.children n, ∃ u, w.session.kept? c = some u) ∧ n.Justified f w.session.kept? v ∧
      ∀ w', w.Reaches call w' → w'.session.kept? n = some v := by
  have consistent := reached.consistent pure
  have justified := consistent.justified n atHand v kept
  refine ⟨justified.children, justified, fun w' later => ?_⟩
  exact (reached.wellFormed.keeps_on pure consistent later).2.1 _ _ kept

namespace Failing

def y : Node := .var ⟨1, .unknown⟩ "y"

/-- `[y, z]`, of which only `y` has a value. -/
def list : Node := .vector ⟨0, .unknown⟩ [y, .var ⟨2, .unknown⟩ "z"]

/-- `[y, y]`, above the `y` of the other tree. -/
def pair : Node := .vector ⟨3, .unknown⟩ [y, y]

/-- The first evaluation fails after `y` was found true; the second one asks where `y` is false. -/
def workspace : Workspace Unit :=
  ((((initial ()).build (Expr.map Tag.position list)).eval Node.giveBack 2 list
    (Env.empty.register "y" (.bool true))).join .unknown (.vector · [y, y])).eval Node.giveBack 2 pair
    (Env.empty.register "y" (.bool false))

theorem reached : (initial ()).Reaches Node.giveBack workspace := by
  refine .tail (.tail (.tail (.single (.build _)) (.eval _ list _ List.mem_cons_self))
    (.join _ (.vector · [y, y]) (fun _ => rfl) fun _ => ?_))
    (.eval _ pair _ (List.mem_append_right _ List.mem_cons_self))
  show ∀ c ∈ [y, y], c ∈ [list, y, _]
  simp

theorem kept_pair :
    workspace.session.kept? pair = some (.vector [.bool true, .bool true]) := by
  simp [workspace, list, pair, y, eval, join, build, initial, Session.initial, Session.build,
    Session.tag, Session.eval, Session.kept?, Machine.initial, Machine.enter, Machine.keep, Node.eval,
    Node.evalAll, Node.identity, Expr.tag, Env.empty, Env.lookup?, Env.lookupIn, Env.register,
    List.lookup_cons, Std.HashMap.getElem_insertIfNew]

end Failing

/-- The value found before the failure is the one that the new node is made of, for good. -/
theorem kept_justified_failing :
    (∀ c ∈ Expr.children Failing.pair, ∃ u, Failing.workspace.session.kept? c = some u) ∧
      ∀ w, Failing.workspace.Reaches Node.giveBack w →
        w.session.kept? Failing.pair = some (.vector [.bool true, .bool true]) := by
  have justified := kept_justified Node.giveBack _ Node.giveBack_answers () Failing.reached
    (List.mem_append_right _ List.mem_cons_self) Failing.kept_pair
  exact ⟨justified.1, justified.2.2⟩

end Workspace

end Formula
