import Formula.Proofs.Visits

/-! When an evaluation fails because it goes too deep itself. A function may fail with the very same
error, of an evaluation of its own; so the failures of functions are muted, and what still is an
error about the depth is the evaluation's own. Main statement: an evaluation that does not fail so
visits no place that is too deep. -/
namespace Formula

open Place

/-- The same functions, all of whose failures are one fault of the host. -/
def Functions.muted (f : Functions) : Functions := fun callee captured arg =>
  (f callee captured arg).mapError fun _ => .host ""

theorem Functions.muted_ok {f : Functions} {callee : Callee} {captured : List Value} {arg v : Value} :
    f.muted callee captured arg = .ok v ↔ f callee captured arg = .ok v := by
  unfold Functions.muted
  cases f callee captured arg <;> simp [Except.mapError]

/-- The same caller, all of whose functions fail with one fault of the host. -/
def Caller.muted {σ : Type} (call : Caller σ) : Caller σ := fun callee captured arg world =>
  let (answer, world) := call callee captured arg world
  (answer.mapError fun _ => .host "", world)

theorem Caller.muted_answers {σ : Type} {call : Caller σ} {f : Functions} (pure : call.Answers f) :
    call.muted.Answers f.muted := fun callee captured arg world =>
  congrArg (Except.mapError fun _ => Fault.host "") (pure callee captured arg world)

/-- Whether evaluating a node fails because a node lies too deep, and not because a function fails. -/
def Node.Overflows {σ : Type} (call : Caller σ) (limit : Nat) (n : Node) (env : Env) (s : Machine σ) :
    Prop :=
  ∃ p depth, (n.eval call.muted limit env s).1 = .error ⟨[p], .tooDeep depth limit⟩

/-- A run beside the same run with muted failures: both do the same, and come to the same unless a
function fails. -/
structure Mutes {σ α : Type} (run muted : Except RuntimeError α × Machine σ) : Prop where
  machine : muted.2 = run.2
  outcome : muted.1 = run.1 ∨ ∃ e p, run.1 = .error e ∧ muted.1 = .error ⟨[p], .host ""⟩

namespace Mutes

variable {σ α β : Type} {limit : Nat}

theorem refl (run : Except RuntimeError α × Machine σ) : Mutes run run := ⟨rfl, .inl rfl⟩

theorem andThen {run muted : Except RuntimeError α × Machine σ}
    {k k' : α → Machine σ → Except RuntimeError β × Machine σ} (first : Mutes run muted)
    (rest : ∀ v s, Mutes (k v s) (k' v s)) :
    Mutes (Machine.andThen run k) (Machine.andThen muted k') := by
  obtain ⟨outcome, s⟩ := run
  obtain ⟨outcome', s'⟩ := muted
  obtain ⟨machine, rfl | ⟨e, p, rfl, rfl⟩⟩ := first
  · obtain rfl : s' = s := machine
    cases outcome' with
    | error e => exact .refl _
    | ok v => exact rest v s'
  · exact ⟨machine, .inr ⟨e, p, rfl, rfl⟩⟩

theorem enter {t : Tag} {body body' : Machine σ → Outcome × Machine σ}
    (run : ∀ s, Mutes (body s) (body' s)) (s : Machine σ) :
    Mutes (Machine.enter limit t body s) (Machine.enter limit t body' s) := by
  cases known : s.memo[t.identity]? with
  | some v =>
    rw [Machine.enter_known known, Machine.enter_known known]
    exact .refl _
  | none =>
    by_cases deep : limit ≤ s.depth
    · rw [Machine.enter_deep known deep, Machine.enter_deep known deep]
      exact .refl _
    obtain ⟨machine, outcome⟩ := run { s with depth := s.depth + 1 }
    rcases found : body { s with depth := s.depth + 1 } with ⟨_ | v, m⟩ <;>
      rcases found' : body' { s with depth := s.depth + 1 } with ⟨_ | v', m'⟩ <;>
      rw [found, found'] at machine outcome <;> obtain rfl : m' = m := machine
    · rw [Machine.enter_failed known deep found, Machine.enter_failed known deep found']
      exact ⟨rfl, outcome⟩
    · obtain same | ⟨_, _, _, same⟩ := outcome <;> cases same
    · obtain same | ⟨_, _, same, _⟩ := outcome <;> cases same
    · obtain same | ⟨_, _, same, _⟩ := outcome <;> cases same
      rw [Machine.enter_found known deep found, Machine.enter_found known deep found']
      exact .refl _

end Mutes

namespace Node

variable {σ : Type} {call : Caller σ} {limit : Nat} {n : Node}

theorem applyAt_mutes (t : Tag) (callee : Callee) (captured : List Value) (arg : Value)
    (s : Machine σ) :
    Mutes (applyAt call t callee captured arg s) (applyAt call.muted t callee captured arg s) := by
  rcases answer : call callee captured arg s.world with ⟨fault | v, world⟩
  · have muted : call.muted callee captured arg s.world = (.error (.host ""), world) := by
      simp [Caller.muted, answer, Except.mapError]
    rw [applyAt, applyAt, answer, muted]
    exact ⟨rfl, .inr ⟨_, _, rfl, rfl⟩⟩
  · have muted : call.muted callee captured arg s.world = (.ok v, world) := by
      simp [Caller.muted, answer, Except.mapError]
    rw [applyAt, applyAt, answer, muted]
    exact .refl _

theorem evalAll_mutes {ns : List Node} (each : ∀ n ∈ ns, ∀ env (s : Machine σ),
      Mutes (n.eval call limit env s) (n.eval call.muted limit env s)) (env : Env) (s : Machine σ) :
    Mutes (evalAll call limit ns env s) (evalAll call.muted limit ns env s) := by
  induction ns generalizing s with
  | nil => exact .refl _
  | cons n ns ih =>
    rw [evalAll_cons, evalAll_cons]
    refine (each n List.mem_cons_self env s).andThen fun v s => ?_
    exact (ih (fun m below => each m (List.mem_cons_of_mem _ below)) s).andThen fun _ _ => .refl _

/-- Muting the failures of functions changes nothing else. -/
theorem eval_mutes (n : Node) (env : Env) (s : Machine σ) :
    Mutes (n.eval call limit env s) (n.eval call.muted limit env s) := by
  induction n using Expr.induct_children generalizing env s with
  | node n ih =>
    rw [eval_eq_enter, eval_eq_enter]
    refine .enter (fun s => ?_) s
    cases n with
    | literal | var => exact .refl _
    | vector t es => exact (evalAll_mutes ih env s).andThen fun _ _ => .refl _
    | apply t g x =>
      refine (ih g List.mem_cons_self env s).andThen fun v s => ?_
      cases v with
      | function callee captured =>
        exact (ih x (by simp [Expr.children]) env s).andThen fun arg s =>
          applyAt_mutes t callee captured arg s
      | _ => exact .refl _
    | letIn t x b e =>
      exact (ih b List.mem_cons_self env s).andThen fun v s => ih e (by simp [Expr.children]) _ s

theorem Overflows.outcome {env : Env} {s : Machine σ} (overflows : n.Overflows call limit env s) :
    ∃ p depth, (n.eval call limit env s).1 = .error ⟨[p], .tooDeep depth limit⟩ := by
  obtain ⟨p, depth, deep⟩ := overflows
  rcases (n.eval_mutes env s).outcome with same | ⟨_, _, _, host⟩
  · exact ⟨p, depth, same.symm.trans deep⟩
  · rw [deep] at host
    cases host

variable {f f' : Functions} {names : Names} {depth : Nat}

theorem value_same
    (values : ∀ callee captured arg v, f callee captured arg = .ok v ↔ f' callee captured arg = .ok v)
    {m : Node} (printable : Expr.Printable n) (printable' : Expr.Printable m)
    (alike : Expr.same n m = true) :
    (n.meaning f names).toOption = (m.meaning f' names).toOption := by
  have there {v : Value} (value : n.meaning f names = .ok v) : m.meaning f' names = .ok v :=
    Expr.meaning_same (fun c xs x w => (values c xs x w).1) printable printable' alike value
  have back {v : Value} (value : m.meaning f' names = .ok v) : n.meaning f names = .ok v :=
    Expr.meaning_same (fun c xs x w => (values c xs x w).2) printable' printable
      (Expr.same_symm alike) value
  cases value : n.meaning f names with
  | ok v => rw [there value]
  | error e =>
    cases value' : m.meaning f' names with
    | ok v => exact absurd (value.symm.trans (back value')) nofun
    | error e' => rfl

/-- Evaluation goes equally deep, place by place, in printable trees that are the same. -/
theorem visits_same
    (values : ∀ callee captured arg v, f callee captured arg = .ok v ↔ f' callee captured arg = .ok v)
    {m : Node} (printable : Expr.Printable n) (printable' : Expr.Printable m)
    (alike : Expr.same n m = true) :
    (n.visits f depth names).map Prod.fst = (m.visits f' depth names).map Prod.fst := by
  induction printable generalizing m names depth with
  | number =>
    cases printable' with
    | number => rfl
    | _ => simp [Expr.same] at alike
  | var =>
    cases printable' with
    | var => rfl
    | _ => simp [Expr.same] at alike
  | @vector t es elems ih =>
    cases printable' with
    | @vector t' es' elems' =>
      have each := Expr.sameAll_iff.1 alike
      refine congrArg (List.cons depth) ?_
      clear alike
      induction each with
      | nil => rfl
      | @cons e e' es es' head tail rest =>
        obtain ⟨elem, elems⟩ := List.forall_mem_cons.1 elems
        obtain ⟨elem', elems'⟩ := List.forall_mem_cons.1 elems'
        have later := rest elems (fun m member => ih m (List.mem_cons_of_mem _ member)) elems'
        rw [visitsAll, visitsAll, List.map_append, List.map_append,
          ih e List.mem_cons_self elem' head, value_same values elem elem' head]
        cases (meaning f' e' names).toOption with
        | none => rfl
        | some v => exact congrArg _ later
    | _ => simp [Expr.same] at alike
  | @apply t g x func arg ihg ihx =>
    cases printable' with
    | @apply t' g' x' func' arg' =>
      rw [Expr.same, Bool.and_eq_true] at alike
      refine congrArg (List.cons depth) ?_
      rw [List.map_append, List.map_append, ihg func' alike.1, value_same values func func' alike.1]
      rcases (meaning f' g' names).toOption with _ | ⟨_ | _ | _ | _ | _⟩
      all_goals first | rfl | exact congrArg _ (ihx arg' alike.2)
    | _ => simp [Expr.same] at alike
  | @letIn t x b e named bound body ihb ihe =>
    cases printable' with
    | @letIn t' x' b' e' named' bound' body' =>
      rw [Expr.same, Bool.and_eq_true, Bool.and_eq_true, beq_iff_eq] at alike
      obtain ⟨⟨rfl, sameBound⟩, sameBody⟩ := alike
      refine congrArg (List.cons depth) ?_
      rw [List.map_append, List.map_append, ihb bound' sameBound,
        value_same values bound bound' sameBound]
      cases (meaning f' b' names).toOption with
      | none => rfl
      | some v => exact congrArg _ (ihe body' sameBody)
    | _ => simp [Expr.same] at alike

theorem visits_lt_iff
    (values : ∀ callee captured arg v, f callee captured arg = .ok v ↔ f' callee captured arg = .ok v)
    {m : Node} (printable : Expr.Printable n) (printable' : Expr.Printable m)
    (alike : Expr.same n m = true) :
    (∀ p ∈ n.visits f depth names, p.1 < limit) ↔ ∀ p ∈ m.visits f' depth names, p.1 < limit := by
  have depths : (n.visits f depth names).map Prod.fst = (m.visits f' depth names).map Prod.fst :=
    visits_same values printable printable' alike
  have low := iff_of_eq (congrArg (fun ds : List Nat => ∀ d ∈ ds, d < limit) depths)
  simpa only [List.forall_mem_map] using low

/-- A tree in which no node stands twice and none has a value visits no place that is too deep, unless
its evaluation overflows. -/
theorem visits_within (pure : call.Answers f) (printable : Expr.Printable n)
    (once : ((Expr.preorder n).map Node.identity).Nodup) {env : Env} {s : Machine σ}
    (empty : ∀ m ∈ Expr.preorder n, s.memo.kept? m = none)
    (within : ¬ n.Overflows call limit env s) :
    ∀ p ∈ n.visits f s.depth env.lookup?, p.1 < limit := by
  have muted : n.GuardedIn call.muted limit f.muted (n.occurrences f.muted env.lookup?)
      (Expr.preorder n) :=
    eval_guarded (Caller.muted_answers pure) (settled_of_once once _) (.of_once once)
      (Expr.mem_preorder_self n)
  have run := (muted env s (List.Subset.refl _) ⟨agrees_of_empty empty _, .of_empty empty⟩).outcome
  rw [firstMet_visits once empty] at run
  have room : ∀ p ∈ n.visits f.muted s.depth env.lookup?, p.1 < limit := by
    cases met : orTooDeep limit (n.visits f.muted s.depth env.lookup?) () with
    | ok => exact (orTooDeep_ok.1 met).1
    | error e =>
      obtain ⟨p, _, _, rfl⟩ := orTooDeep_error met
      rw [met] at run
      exact absurd ⟨_, _, run⟩ within
  exact (visits_lt_iff (fun _ _ _ _ => Functions.muted_ok) printable printable
    (Expr.same_refl n)).1 room

end Node

end Formula
