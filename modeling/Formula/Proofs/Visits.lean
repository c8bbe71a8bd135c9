import Formula.Proofs.Filling
import Formula.Proofs.Places

/-! The way that an evaluation takes through a tree: the places where it asks for a value, in their
order and up to the first failure. A node that is met again has its value already, so only the first
place of a node can be too deep. Main statement: an evaluation comes to what the tree means unless
one of these first places is too deep, and then to that failure. -/
namespace Formula

open Place

namespace Node

variable (f : Functions)

mutual

/-- The places where the evaluation of a node asks for a value. What lies behind a failure is not asked,
and neither is the argument of what is no function. -/
def visits (depth : Nat) : Node → Names → List Place
  | .literal t v, _ => [(depth, .literal t v)]
  | .var t x, _ => [(depth, .var t x)]
  | .vector t es, names => (depth, .vector t es) :: visitsAll (depth + 1) es names
  | .apply t g x, names => (depth, .apply t g x) :: (visits (depth + 1) g names ++
      (meaning f g names).toOption.elim [] fun
        | .function _ _ => visits (depth + 1) x names
        | _ => [])
  | .letIn t x b e, names => (depth, .letIn t x b e) :: (visits (depth + 1) b names ++
      (meaning f b names).toOption.elim [] fun v => visits (depth + 1) e (names.bind x v))

def visitsAll (depth : Nat) : List Node → Names → List Place
  | [], _ => []
  | n :: ns, names => visits depth n names ++
      (meaning f n names).toOption.elim [] fun _ => visitsAll depth ns names

end

/-- The places below a node where its evaluation asks for a value. -/
def visitsBelow (depth : Nat) : Node → Names → List Place
  | .literal _ _, _ | .var _ _, _ => []
  | .vector _ es, names => visitsAll f depth es names
  | .apply _ g x, names => visits f depth g names ++
      (meaning f g names).toOption.elim [] fun
        | .function _ _ => visits f depth x names
        | _ => []
  | .letIn _ x b e, names => visits f depth b names ++
      (meaning f b names).toOption.elim [] fun v => visits f depth e (names.bind x v)

variable {f} {names : Names} {depth : Nat}

theorem visits_eq (n : Node) :
    n.visits f depth names = (depth, n) :: n.visitsBelow f (depth + 1) names := by
  cases n <;> rfl

theorem visits_sublist (n : Node) : (n.visits f depth names).Sublist (Expr.placed depth n) := by
  induction n using Expr.induct generalizing depth names with
  | literal | var => exact .refl _
  | vector t es ih =>
    refine .cons_cons _ ?_
    induction es with
    | nil => exact .refl _
    | cons e es elems =>
      have later := elems fun m member => ih m (List.mem_cons_of_mem _ member)
      refine (ih e List.mem_cons_self).append ?_
      cases (meaning f e names).toOption with
      | none => exact List.nil_sublist _
      | some v => exact later
  | apply t g x ihg ihx =>
    refine .cons_cons _ (ihg.append ?_)
    rcases (meaning f g names).toOption with _ | ⟨_ | _ | _ | _ | _⟩
    all_goals first | exact List.nil_sublist _ | exact ihx
  | letIn t x b e ihb ihe =>
    refine .cons_cons _ (ihb.append ?_)
    cases (meaning f b names).toOption with
    | none => exact List.nil_sublist _
    | some v => exact ihe

theorem mem_preorder_of_visits {n : Node} {p : Place} (member : p ∈ n.visits f depth names) :
    p.2 ∈ Expr.preorder n :=
  Expr.mem_preorder_of_placed ((visits_sublist n).subset member)

/-- In a tree in which no node stands twice and none has a value, every visited node is met. -/
theorem firstMet_visits {n : Node} (once : ((Expr.preorder n).map Node.identity).Nodup) {memo : Memo}
    (empty : ∀ m ∈ Expr.preorder n, memo.kept? m = none) :
    firstMet memo.contains (n.visits f depth names) = n.visits f depth names := by
  refine firstMet_once ?_ fun p visited => ?_
  · have identities : (Expr.placed depth n).map (fun p => Node.identity p.2) =
        (Expr.preorder n).map Node.identity := by
      rw [← Expr.map_placed depth n, List.map_map]
      rfl
    exact (identities ▸ once).sublist ((visits_sublist n).map _)
  · exact (memo.contains_eq p.2).trans
      (congrArg Option.isSome (empty p.2 (mem_preorder_of_visits visited)))

/-- Where a tree has a value, the whole tree is visited. -/
theorem visits_eq_placed {n : Node} {v : Value} (value : n.meaning f names = .ok v) :
    n.visits f depth names = Expr.placed depth n := by
  induction n using Expr.induct generalizing depth names v with
  | literal | var => rfl
  | vector t es ih =>
    obtain ⟨vs, values, rfl⟩ := Expr.meaning_vector_ok.1 value
    refine congrArg (List.cons (depth, Expr.vector t es)) ?_
    clear value
    induction es generalizing vs with
    | nil => rfl
    | cons e es elems =>
      obtain ⟨w, ws, head, tail, rfl⟩ := Expr.meanings_cons_ok.1 values
      have here : meaning f e names = .ok w := head
      have later := elems (fun m member => ih m (List.mem_cons_of_mem _ member)) ws tail
      rw [visitsAll, here, ih e List.mem_cons_self here]
      exact congrArg _ later
  | apply t g x ihg ihx =>
    obtain ⟨callee, captured, arg, function, argument, _⟩ := Expr.meaning_apply_ok.1 value
    rw [visits, Expr.placed, ihg function, show meaning f g names = _ from function]
    exact congrArg _ (congrArg _ (ihx argument))
  | letIn t x b e ihb ihe =>
    obtain ⟨w, bound, body⟩ := Expr.meaning_letIn_ok.1 value
    rw [visits, Expr.placed, ihb bound, show meaning f b names = _ from bound]
    exact congrArg _ (congrArg _ (ihe body))

end Node

/-- A run from `s` that is to come to `expected` and visits these places: it comes to it unless a node is
first met too deep, the depth is as before, and if it finds a value, then the values of the nodes that
were met are known. -/
structure Guarded {σ α : Type} (limit : Nat) (expected : Except RuntimeError α) (ps : List Place)
    (s : Machine σ) (run : Except RuntimeError α × Machine σ) : Prop where
  depth : run.2.depth = s.depth
  outcome : run.1 = orTooDeep limit (firstMet s.memo.contains ps) () >>= fun _ => expected
  known : ∀ v, run.1 = .ok v → run.2.memo.contains = after s.memo.contains ps

namespace Guarded

variable {σ α β : Type} {limit : Nat} {expected : Except RuntimeError α} {ps : List Place}
  {s : Machine σ}

theorem pure (expected : Except RuntimeError α) (s : Machine σ) :
    Guarded limit expected [] s (expected, s) where
  depth := rfl
  outcome := rfl
  known := fun _ _ => after_nil.symm

theorem andThen {next : α → Except RuntimeError β} {qs : α → List Place}
    {run : Except RuntimeError α × Machine σ}
    {k : α → Machine σ → Except RuntimeError β × Machine σ}
    (first : Guarded limit expected ps s run)
    (rest : ∀ v, expected = .ok v → Guarded limit (next v) (qs v) run.2 (k v run.2)) :
    Guarded limit (expected >>= next) (ps ++ expected.toOption.elim [] qs) s
      (Machine.andThen run k) := by
  obtain ⟨outcome, s'⟩ := run
  obtain ⟨depth, found, known⟩ := first
  cases met : orTooDeep limit (firstMet s.memo.contains ps) () with
  | error e =>
    rw [met] at found
    cases found
    refine ⟨depth, ?_, fun _ ok => by cases ok⟩
    rw [firstMet_append, orTooDeep_append (v := ()), met]
    rfl
  | ok _ =>
    rw [met] at found
    cases expected with
    | error e =>
      cases found
      refine ⟨depth, ?_, fun _ ok => by cases ok⟩
      rw [firstMet_append, orTooDeep_append (v := ()), met]
      rfl
    | ok v =>
      cases found
      have later := rest v rfl
      have here := known v rfl
      refine ⟨later.depth.trans depth, ?_, fun w ok => ?_⟩
      · rw [firstMet_append, orTooDeep_append (v := ()), met, ← here]
        exact later.outcome
      · rw [after_append, ← here]
        exact later.known w ok

theorem andThen_last {next : α → Except RuntimeError β} {run : Except RuntimeError α × Machine σ}
    {k : α → Machine σ → Except RuntimeError β × Machine σ}
    (first : Guarded limit expected ps s run)
    (rest : ∀ v, expected = .ok v → Guarded limit (next v) [] run.2 (k v run.2)) :
    Guarded limit (expected >>= next) ps s (Machine.andThen run k) := by
  have none : expected.toOption.elim [] (fun _ => ([] : List Place)) = [] := by
    cases expected <;> rfl
  rw [← List.append_nil ps, ← none]
  exact first.andThen rest

/-- Where nothing visited is too deep, a run comes to what it is to come to. -/
theorem exact {run : Except RuntimeError α × Machine σ} (guarded : Guarded limit expected ps s run)
    (room : ∀ p ∈ ps, p.1 < limit) : run.1 = expected := by
  have met : orTooDeep limit (firstMet s.memo.contains ps) () = .ok () :=
    orTooDeep_ok.2 ⟨fun p member => room p (firstMet_subset member), rfl⟩
  rw [guarded.outcome, met]
  rfl

/-- A node whose value is known is not met, and neither are the nodes below it, whose values are known
too; otherwise it is met here, and its own run goes one level deeper. -/
theorem enter {n : Node} {expected : Outcome} {below : List Place}
    {body : Machine σ → Outcome × Machine σ}
    (kept : ∀ v, s.memo.kept? n = some v → expected = .ok v)
    (closed : ∀ v, s.memo.kept? n = some v → ∀ p ∈ below, s.memo.contains p.2.identity = true)
    (apart : ∀ p ∈ below, n.identity ≠ p.2.identity)
    (run : Guarded limit expected below { s with depth := s.depth + 1 }
      (body { s with depth := s.depth + 1 })) :
    Guarded limit expected ((s.depth, n) :: below) s (Machine.enter limit n.tag body s) := by
  have here := s.memo.contains_eq n
  cases unknown : s.memo.kept? n with
  | some v =>
    rw [unknown] at here
    have all : ∀ p ∈ (s.depth, n) :: below, s.memo.contains p.2.identity = true :=
      List.forall_mem_cons.2 ⟨here, closed v unknown⟩
    rw [Machine.enter_known unknown]
    refine ⟨rfl, ?_, fun _ _ => (after_known all).symm⟩
    rw [firstMet_known all, kept v unknown]
    rfl
  | none =>
    rw [unknown] at here
    have met : firstMet s.memo.contains ((s.depth, n) :: below) =
        (s.depth, n) :: firstMet s.memo.contains below := by
      rw [firstMet, here, Option.isSome_none, if_neg Bool.false_ne_true]
      refine congrArg _ (firstMet_congr fun p member => ?_)
      simp [after, apart p member]
    by_cases deep : limit ≤ s.depth
    · rw [Machine.enter_deep unknown deep]
      refine ⟨rfl, ?_, fun _ ok => by cases ok⟩
      rw [met, orTooDeep_cons_deep deep]
      rfl
    obtain ⟨depth, outcome, known⟩ := run
    rw [← orTooDeep_cons (p := (s.depth, n)) deep, ← met] at outcome
    rcases found : body { s with depth := s.depth + 1 } with ⟨_ | v, s'⟩
    all_goals rw [found] at depth outcome known
    · rw [Machine.enter_failed unknown deep found]
      exact ⟨Nat.sub_eq_of_eq_add depth, outcome, fun _ ok => by cases ok⟩
    · rw [Machine.enter_found unknown deep found]
      refine ⟨Nat.sub_eq_of_eq_add depth, outcome, fun _ _ => funext fun i => ?_⟩
      simp [Machine.keep, known v rfl, after, Node.identity, Bool.or_left_comm]

end Guarded

/-- Whether what is kept is right for the nodes where they occur, children first. -/
structure Memo.Sound (f : Functions) (os : List Occurrence) (nodes : List Node) (memo : Memo) :
    Prop where
  agrees : memo.Agrees f os
  closed : memo.Closed nodes

namespace Node

variable {σ : Type} {call : Caller σ} {limit : Nat} {f : Functions} {os : List Occurrence}
  {nodes : List Node} {n : Node}

theorem eval_sound (limit : Nat) (pure : call.Answers f) (settled : Settled f os) (forest : Forest nodes)
    (member : n ∈ nodes) {env : Env} {s : Machine σ} (part : n.occurrences f env.lookup? ⊆ os)
    (sound : s.memo.Sound f os nodes) : (n.eval call limit env s).2.memo.Sound f os nodes := by
  have faithful : n.EvaluatesIn call limit f os := eval_faithful pure settled n
  have fills : n.FillsIn call limit nodes := eval_fills forest member
  exact ⟨(faithful env s part sound.agrees).grows.agrees (List.Subset.refl _) settled sound.agrees,
    (fills env s).closed sound.closed⟩

theorem applyAt_guarded (pure : call.Answers f) (t : Tag) (callee : Callee) (captured : List Value)
    (arg : Value) (s : Machine σ) :
    Guarded limit ((f callee captured arg).mapError (Fault.locate t.position)) [] s
      (applyAt call t callee captured arg s) := by
  rw [← pure callee captured arg s.world, applyAt]
  rcases call callee captured arg s.world with ⟨_ | v, world⟩ <;>
    exact ⟨rfl, rfl, fun _ _ => after_nil.symm⟩

/-- Whether evaluating a node comes to what the node means unless a node is first met too deep. -/
def GuardedIn (call : Caller σ) (limit : Nat) (f : Functions) (os : List Occurrence)
    (nodes : List Node) (n : Node) : Prop :=
  ∀ (env : Env) (s : Machine σ), n.occurrences f env.lookup? ⊆ os → s.memo.Sound f os nodes →
    Guarded limit (n.meaning f env.lookup?) (n.visits f s.depth env.lookup?) s
      (n.eval call limit env s)

theorem evalAll_guarded (pure : call.Answers f) (settled : Settled f os) (forest : Forest nodes)
    {ns : List Node} (each : ∀ n ∈ ns, n.GuardedIn call limit f os nodes)
    (members : ∀ n ∈ ns, n ∈ nodes) (env : Env) (s : Machine σ)
    (part : occurrencesAll f ns env.lookup? ⊆ os) (sound : s.memo.Sound f os nodes) :
    Guarded limit (Expr.meanings f Tag.position ns env.lookup?) (visitsAll f s.depth ns env.lookup?) s
      (evalAll call limit ns env s) := by
  induction ns generalizing s with
  | nil => exact .pure _ s
  | cons n ns ih =>
    obtain ⟨partHead, partTail⟩ := List.append_subset.1 part
    obtain ⟨member, members⟩ := List.forall_mem_cons.1 members
    rw [evalAll_cons]
    have head := each n List.mem_cons_self env s partHead sound
    refine head.andThen fun v _ => ?_
    have tail := ih (fun m below => each m (List.mem_cons_of_mem _ below)) members _ partTail
      (eval_sound limit pure settled forest member partHead sound)
    rw [head.depth] at tail
    exact tail.andThen_last fun vs _ => .pure _ _

theorem body_guarded (pure : call.Answers f) (settled : Settled f os) (forest : Forest nodes)
    (each : ∀ c ∈ Expr.children n, GuardedIn call limit f os nodes c)
    (members : ∀ c ∈ Expr.children n, c ∈ nodes) (env : Env) (s : Machine σ)
    (part : n.occurrences f env.lookup? ⊆ os) (sound : s.memo.Sound f os nodes) :
    Guarded limit (n.meaning f env.lookup?) (n.visitsBelow f s.depth env.lookup?) s
      (n.body call limit env s) := by
  cases n with
  | literal => exact .pure _ s
  | var t x =>
    cases found : env.lookup? x <;> simpa [body, visitsBelow, meaning, Expr.meaning, found] using .pure _ s
  | vector t es =>
    exact (evalAll_guarded pure settled forest each members env s (List.cons_subset.1 part).2
      sound).andThen_last fun vs _ => .pure _ _
  | apply t g x =>
    obtain ⟨eachG, eachX⟩ := List.forall_mem_cons.1 each
    obtain ⟨memberG, _⟩ := List.forall_mem_cons.1 members
    obtain ⟨partG, partX⟩ := List.append_subset.1 (List.cons_subset.1 part).2
    have function := eachG env s partG sound
    refine function.andThen fun v _ => ?_
    cases v with
    | function callee captured =>
      have argument := List.forall_mem_singleton.1 eachX env _ partX
        (eval_sound limit pure settled forest memberG partG sound)
      rw [function.depth] at argument
      exact argument.andThen_last fun arg _ => applyAt_guarded pure t callee captured arg _
    | _ => exact .pure _ _
  | letIn t x b e =>
    obtain ⟨eachB, eachE⟩ := List.forall_mem_cons.1 each
    obtain ⟨memberB, _⟩ := List.forall_mem_cons.1 members
    obtain ⟨partB, partE⟩ := List.append_subset.1 (List.cons_subset.1 part).2
    have bound := eachB env s partB sound
    refine bound.andThen fun v value => ?_
    have scope := Names.lookup_bind env x v
    rw [show Node.meaning f b env.lookup? = .ok v from value] at partE
    have body := List.forall_mem_singleton.1 eachE (env.child.register x v) _ (scope ▸ partE)
      (eval_sound limit pure settled forest memberB partB sound)
    rwa [bound.depth, scope] at body

/-- Every evaluation comes to what its tree means unless a node is first met too deep. -/
theorem eval_guarded (pure : call.Answers f) (settled : Settled f os) (forest : Forest nodes)
    (member : n ∈ nodes) : n.GuardedIn call limit f os nodes := by
  induction n using Expr.induct_children with
  | node n ih =>
    intro env s part sound
    have members := forest.children n member
    have below : ∀ p ∈ visitsBelow f (s.depth + 1) n env.lookup?,
        p.2 ∈ (Expr.children n).flatMap Expr.preorder := by
      have visited : (visits f s.depth n env.lookup?).Sublist (Expr.placed s.depth n) :=
        visits_sublist n
      rw [visits_eq, Expr.placed_eq, List.cons_sublist_cons] at visited
      intro p lower
      obtain ⟨c, child, placed⟩ := List.mem_flatMap.1 (visited.subset lower)
      exact List.mem_flatMap.2 ⟨c, child, Expr.mem_preorder_of_placed placed⟩
    rw [eval_eq_enter, visits_eq]
    refine .enter (fun v kept => ?_) (fun v kept p lower => ?_) (fun p lower => ?_)
      (body_guarded pure settled forest (fun c child => ih c child (members c child)) members env
        { s with depth := s.depth + 1 } part sound)
    · exact sound.agrees _ (part (mem_occurrences_self n _)) v kept
    · have inside : p.2 ∈ Expr.preorder n := by
        rw [Expr.preorder_eq]
        exact List.mem_cons_of_mem _ (below p lower)
      obtain ⟨w, found⟩ := sound.closed.kept_below forest member kept inside
      exact (s.memo.contains_eq p.2).trans (Option.isSome_iff_exists.2 ⟨w, found⟩)
    · exact (forest.identity_ne_of_below member (below p lower)).symm

end Node

end Formula
