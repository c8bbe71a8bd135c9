import Formula.Proofs.UsedNames

/-! Which names matter. An evaluation asks its frames for the free names of a tree alone, and sharing and
inlining free no name. Main statement: frames that agree on the free names of a tree give it the same
outcome, as it was read and optimised, whatever they bind besides and however they nest. -/
namespace Formula

/-- Frames in which some names mean the same, or are unbound in both. -/
def Env.AgreeOn (names : List String) (env env' : Env) : Prop :=
  ∀ x ∈ names, env.lookup? x = env'.lookup? x

namespace Env.AgreeOn

variable {names part : List String} {env env' : Env}

theorem mono (agree : AgreeOn names env env') (subset : part ⊆ names) : AgreeOn part env env' :=
  fun x member => agree x (subset member)

theorem bind {x : String} (agree : AgreeOn (names.filter (· ≠ x)) env env') (v : Value) :
    AgreeOn names (env.child.register x v) (env'.child.register x v) := by
  intro y member
  rw [lookup?_register, lookup?_register, lookup?_child, lookup?_child]
  split
  · rfl
  · next other => exact agree y (List.mem_filter.2 ⟨member, decide_eq_true other⟩)

end Env.AgreeOn

/-- Machines that differ in the worlds of their callers alone. -/
structure Machine.InStep {σ τ : Type} (s : Machine σ) (t : Machine τ) : Prop where
  depth : s.depth = t.depth
  memo : s.memo = t.memo

/-- Two runs that come to the same outcome and leave their machines in step. -/
structure Abreast {σ τ α : Type} (run : Except RuntimeError α × Machine σ)
    (other : Except RuntimeError α × Machine τ) : Prop where
  outcome : run.1 = other.1
  inStep : run.2.InStep other.2

namespace Abreast

variable {σ τ α β : Type} {limit : Nat} {s : Machine σ} {t : Machine τ}

theorem pure (outcome : Except RuntimeError α) (inStep : s.InStep t) :
    Abreast (outcome, s) (outcome, t) := ⟨rfl, inStep⟩

theorem andThen {run : Except RuntimeError α × Machine σ} {other : Except RuntimeError α × Machine τ}
    {k : α → Machine σ → Except RuntimeError β × Machine σ}
    {l : α → Machine τ → Except RuntimeError β × Machine τ} (first : Abreast run other)
    (rest : ∀ v s t, s.InStep t → Abreast (k v s) (l v t)) :
    Abreast (Machine.andThen run k) (Machine.andThen other l) := by
  obtain ⟨outcome, s⟩ := run
  obtain ⟨outcome', t⟩ := other
  obtain ⟨rfl, inStep⟩ := first
  cases outcome with
  | error e => exact .pure _ inStep
  | ok v => exact rest v s t inStep

theorem enter (tag : Tag) {body : Machine σ → Outcome × Machine σ}
    {body' : Machine τ → Outcome × Machine τ} (inStep : s.InStep t)
    (run : ∀ s t, s.InStep t → Abreast (body s) (body' t)) :
    Abreast (Machine.enter limit tag body s) (Machine.enter limit tag body' t) := by
  obtain ⟨depth, memo⟩ := inStep
  have deeper : Machine.InStep { s with depth := s.depth + 1 } { t with depth := t.depth + 1 } :=
    ⟨congrArg (· + 1) depth, memo⟩
  cases known : s.memo[tag.identity]? with
  | some v =>
    rw [Machine.enter_known known, Machine.enter_known (memo ▸ known)]
    exact .pure _ ⟨depth, memo⟩
  | none =>
    have unknown : t.memo[tag.identity]? = none := memo ▸ known
    by_cases deep : limit ≤ s.depth
    · rw [Machine.enter_deep known deep, Machine.enter_deep unknown (depth ▸ deep), depth]
      exact .pure _ ⟨depth, memo⟩
    have room : ¬ limit ≤ t.depth := depth ▸ deep
    obtain ⟨outcome, left, kept⟩ := run _ _ deeper
    rcases found : body { s with depth := s.depth + 1 } with ⟨_ | v, s'⟩ <;>
      rcases found' : body' { t with depth := t.depth + 1 } with ⟨_ | v', t'⟩ <;>
      rw [found, found'] at outcome left kept <;> cases outcome
    · rw [Machine.enter_failed known deep found, Machine.enter_failed unknown room found']
      exact .pure _ ⟨congrArg (· - 1) left, kept⟩
    · rw [Machine.enter_found known deep found, Machine.enter_found unknown room found']
      exact .pure _ ⟨congrArg (· - 1) left, congrArg (·.insertIfNew tag.identity v) kept⟩

end Abreast

namespace Node

variable {σ τ : Type} {call : Caller σ} {call' : Caller τ} {f : Functions} {limit : Nat}

theorem applyAt_abreast (pure : call.Answers f) (pure' : call'.Answers f) (tag : Tag) (callee : Callee)
    (captured : List Value) (arg : Value) {s : Machine σ} {t : Machine τ} (inStep : s.InStep t) :
    Abreast (applyAt call tag callee captured arg s) (applyAt call' tag callee captured arg t) := by
  have answer := (pure callee captured arg s.world).trans (pure' callee captured arg t.world).symm
  unfold applyAt
  generalize call callee captured arg s.world = left at answer ⊢
  generalize call' callee captured arg t.world = right at answer ⊢
  obtain ⟨outcome, world⟩ := left
  obtain ⟨outcome', world'⟩ := right
  obtain rfl : outcome = outcome' := answer
  cases outcome <;> exact .pure _ ⟨inStep.depth, inStep.memo⟩

/-- Whether a node goes the same way in all frames that agree on its free names. -/
def Local (call : Caller σ) (call' : Caller τ) (limit : Nat) (n : Node) : Prop :=
  ∀ (env env' : Env) (s : Machine σ) (t : Machine τ), env.AgreeOn (Expr.freeNames n) env' →
    s.InStep t → Abreast (n.eval call limit env s) (n.eval call' limit env' t)

theorem evalAll_abreast {ns : List Node} (each : ∀ n ∈ ns, n.Local call call' limit) {env env' : Env}
    (agree : env.AgreeOn (Expr.freeNamesAll ns) env') {s : Machine σ} {t : Machine τ}
    (inStep : s.InStep t) :
    Abreast (evalAll call limit ns env s) (evalAll call' limit ns env' t) := by
  induction ns generalizing s t with
  | nil => exact .pure _ inStep
  | cons n ns ih =>
    have head := each n List.mem_cons_self env env' s t (agree.mono (List.subset_append_left _ _)) inStep
    rw [evalAll_cons, evalAll_cons]
    refine head.andThen fun v s t inStep => ?_
    have tail := ih (fun m member => each m (List.mem_cons_of_mem _ member))
      (agree.mono (List.subset_append_right _ _)) inStep
    exact tail.andThen fun vs s t inStep => .pure _ inStep

/-- Only the free names of a node are asked for. -/
theorem eval_local (pure : call.Answers f) (pure' : call'.Answers f) (n : Node) :
    n.Local call call' limit := by
  induction n using Expr.induct with
  | literal tag v =>
    intro env env' s t _ inStep
    exact .enter tag inStep fun s t inStep => .pure _ inStep
  | vector tag es ih =>
    intro env env' s t agree inStep
    rw [eval_vector, eval_vector]
    refine .enter tag inStep fun s t inStep => ?_
    exact (evalAll_abreast ih agree inStep).andThen fun vs s t inStep => .pure _ inStep
  | var tag x =>
    intro env env' s t agree inStep
    refine .enter tag inStep fun s t inStep => ?_
    rw [agree x (List.mem_singleton.2 rfl)]
    cases env'.lookup? x <;> exact .pure _ inStep
  | apply tag g x ihg ihx =>
    intro env env' s t agree inStep
    rw [eval_apply, eval_apply]
    refine .enter tag inStep fun s t inStep => ?_
    have function := ihg env env' s t (agree.mono (List.subset_append_left _ _)) inStep
    refine function.andThen fun v s t inStep => ?_
    cases v with
    | function callee captured =>
      have argument := ihx env env' s t (agree.mono (List.subset_append_right _ _)) inStep
      exact argument.andThen fun arg s t inStep =>
        applyAt_abreast pure pure' tag callee captured arg inStep
    | _ => exact .pure _ inStep
  | letIn tag x b e ihb ihe =>
    intro env env' s t agree inStep
    rw [eval_letIn, eval_letIn]
    refine .enter tag inStep fun s t inStep => ?_
    have bound := ihb env env' s t (agree.mono (List.subset_append_left _ _)) inStep
    refine bound.andThen fun v s t inStep => ?_
    have inside := (agree.mono (List.subset_append_right _ _)).bind v
    exact ihe _ _ s t inside inStep

end Node

namespace Expr

variable {α : Type} {e : Expr α} {bound : List String} {x : String} {t : α}

theorem exists_var_of_mem_freeNames (free : x ∈ e.freeNames) : ∃ t, .var t x ∈ e.preorder := by
  induction e using induct_children with
  | node e ih =>
    have below {c : Expr α} (child : c ∈ e.children) (free : x ∈ c.freeNames) :
        ∃ t, .var t x ∈ e.preorder := by
      obtain ⟨t, here⟩ := ih c child free
      exact ⟨t, preorder_subset_of_child child here⟩
    cases e with
    | literal => contradiction
    | vector t es =>
      rw [freeNames, freeNamesAll_eq_flatMap] at free
      obtain ⟨c, child, here⟩ := List.mem_flatMap.1 free
      exact below child here
    | var t y =>
      cases List.mem_singleton.1 free
      exact ⟨t, mem_preorder_self _⟩
    | apply t f y =>
      rcases List.mem_append.1 free with here | here
      · exact below List.mem_cons_self here
      · exact below (List.mem_cons_of_mem _ List.mem_cons_self) here
    | letIn t y b c =>
      rcases List.mem_append.1 free with here | here
      · exact below List.mem_cons_self here
      · exact below (List.mem_cons_of_mem _ List.mem_cons_self) (List.mem_of_mem_filter here)

theorem mem_freeNames_of_leaf (leaf : .var t x ∈ e.leaves bound) : x ∈ e.freeNames ∧ x ∉ bound := by
  induction e generalizing bound with
  | literal => simp [leaves] at leaf
  | vector t' es ih =>
    rw [freeNames]
    rw [leaves] at leaf
    induction es with
    | nil => contradiction
    | cons c es rest =>
      rcases List.mem_append.1 leaf with here | later
      · exact (ih c List.mem_cons_self here).imp_left (List.mem_append_left _)
      · exact (rest (fun d member => ih d (List.mem_cons_of_mem _ member)) later).imp_left
          (List.mem_append_right _)
  | var t' y =>
    rw [leaves] at leaf
    split at leaf
    · contradiction
    · next free =>
      cases List.mem_singleton.1 leaf
      exact ⟨List.mem_singleton.2 rfl, free⟩
  | apply t' f y ihf ihy =>
    rcases List.mem_append.1 leaf with here | here
    · exact (ihf here).imp_left (List.mem_append_left _)
    · exact (ihy here).imp_left (List.mem_append_right _)
  | letIn t' y b c ihb ihc =>
    rcases List.mem_append.1 leaf with here | here
    · exact (ihb here).imp_left (List.mem_append_left _)
    · obtain ⟨free, outside⟩ := ihc here
      rw [List.mem_cons, not_or] at outside
      obtain ⟨other, unbound⟩ := outside
      exact ⟨List.mem_append_right _ (List.mem_filter.2 ⟨free, decide_eq_true other⟩), unbound⟩

end Expr

namespace Session

/-- The variables of a shared tree are leaves of the tree it was made from. -/
theorem Optimised.freeNames_subset {n : Node} {next : Nat} {result : Node × Register}
    (optimised : Optimised n next result) : Expr.freeNames result.1 ⊆ Expr.freeNames n := by
  intro x free
  obtain ⟨t, below⟩ := Expr.exists_var_of_mem_freeNames free
  have seen := optimised.shares.shared.preorder_subset optimised.shares.member below
  rcases optimised.keeps.origin _ seen with old | leaf | ⟨_, branch⟩
  · contradiction
  · exact (Expr.mem_freeNames_of_leaf leaf).1
  · contradiction

/-- Only the free names of a tree matter: where two chains of frames agree on them, value or absence, the
tree comes to the same value or to the same failure with the same trace, within every limit, and so
does the optimised tree. Neither the other names of the frames nor the worlds of the callers make a
difference, as long as functions answer alike. -/
theorem eval_of_agreeOn {σ τ : Type} (call : Caller σ) (call' : Caller τ) (f : Functions)
    (pure : call.Answers f) (pure' : call'.Answers f) (world : σ) (world' : τ) (limit : Nat)
    {tree : Expr Position} {env env' : Env} (agree : env.AgreeOn tree.freeNames env') :
    let (n, built) := (initial world).build tree
    let (n', built') := (initial world').build tree
    let (m, _, shared) := built.optimise n
    let (m', _, shared') := built'.optimise n'
    (built.eval call limit n env).1 = (built'.eval call' limit n' env').1 ∧
      (shared.eval call limit m env).1 = (shared'.eval call' limit m' env').1 := by
  have optimised := (initial world).optimised tree
  have names : Expr.freeNames ((initial world).build tree).1 = tree.freeNames := by
    rw [← Expr.freeNames_map Tag.position, (initial world).map_build tree]
  have plain : env.AgreeOn (Expr.freeNames ((initial world).build tree).1) env' := by rwa [names]
  have fewer := plain.mono optimised.freeNames_subset
  have inStep : (Machine.initial world).InStep (Machine.initial world') := ⟨rfl, rfl⟩
  exact ⟨(Node.eval_local pure pure' _ env env' _ _ plain inStep).outcome,
    (Node.eval_local pure pure' _ env env' _ _ fewer inStep).outcome⟩

/-- The tree of `let x = y in [x, let y = [x] in y]`, in which the outer `y` alone is free. -/
def rebinding : Expr Position :=
  .letIn ⟨"s", 1, 1, 0⟩ "x" (.var ⟨"s", 1, 9, 8⟩ "y")
    (.vector ⟨"s", 1, 14, 13⟩ [.var ⟨"s", 1, 15, 14⟩ "x",
      .letIn ⟨"s", 1, 18, 17⟩ "y" (.vector ⟨"s", 1, 26, 25⟩ [.var ⟨"s", 1, 27, 26⟩ "x"])
        (.var ⟨"s", 1, 33, 32⟩ "y")])

/-- An outer frame binds `x`, too. -/
def layered : Env := (Env.empty.register "x" (.string "outer")).child.register "y" (.bool true)

/-- Three frames, none of which binds `x`. -/
def sparse : Env := ((Env.empty.register "y" (.bool true)).child.register "z" (.bool false)).child

theorem eval_of_agreeOn_rebinding :
    let (n, built) := (initial ()).build rebinding
    let (m, _, shared) := built.optimise n
    layered.AgreeOn rebinding.freeNames sparse ∧
      layered.lookup? "x" = some (.string "outer") ∧ sparse.lookup? "x" = none ∧
      (built.eval Node.giveBack 5 n sparse).1 = .ok (.vector [.bool true, .vector [.bool true]]) ∧
      (shared.eval Node.giveBack 5 m sparse).1 = .ok (.vector [.bool true, .vector [.bool true]]) := by
  have agree : layered.AgreeOn rebinding.freeNames sparse := by
    intro x free
    cases List.mem_singleton.1 (show x ∈ ["y"] from free)
    rfl
  have same := eval_of_agreeOn _ _ _ Node.giveBack_answers Node.giveBack_answers () () 5 agree
  have optimised := (initial ()).optimised rebinding
  have run := (build_faithful Node.giveBack_answers () rebinding 5 layered).exact (by decide)
  have value :
      ((((initial ()).build rebinding).1.optimise []
        (.empty ((initial ()).build rebinding).2.next)).1.eval Node.giveBack 5 layered (.initial ())).1 =
          .ok (.vector [.bool true, .vector [.bool true]]) :=
    optimised.eval Node.giveBack_answers rfl (optimised.agrees (.refl _ _)) rfl (by decide)
  exact ⟨agree, rfl, rfl, same.1.symm.trans run, same.2.symm.trans value⟩

end Session

end Formula
