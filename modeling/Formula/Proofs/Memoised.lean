import Formula.Proofs.Meaning

/-! Evaluation that keeps values against the meaning of the tree. A node may stand in several scopes;
what it keeps is right as long as it means the same wherever it stands. Main statement: where no
node stands twice, evaluation gives exactly the meaning, failures and their traces included. -/
namespace Formula

/-- A node and the names in scope where it stands. -/
structure Occurrence where
  node : Node
  names : Names

namespace Occurrence

def identity (o : Occurrence) : Nat := o.node.identity

def meaning (f : Functions) (o : Occurrence) : Outcome := o.node.meaning f o.names

end Occurrence

namespace Node

variable (f : Functions)

mutual

/-- The places at which the evaluation of a node may ask for a value. The body of a `let` has a scope
only where the bound expression has a value. -/
def occurrences : Node → Names → List Occurrence
  | .literal t v, names => [⟨.literal t v, names⟩]
  | .var t x, names => [⟨.var t x, names⟩]
  | .vector t es, names => ⟨.vector t es, names⟩ :: occurrencesAll es names
  | .apply t g x, names => ⟨.apply t g x, names⟩ :: (occurrences g names ++ occurrences x names)
  | .letIn t x b e, names => ⟨.letIn t x b e, names⟩ :: (occurrences b names ++
      match Node.meaning f b names with
      | .ok v => occurrences e (names.bind x v)
      | .error _ => [])

def occurrencesAll : List Node → Names → List Occurrence
  | [], _ => []
  | n :: ns, names => occurrences n names ++ occurrencesAll ns names

end

end Node

/-- Wherever one node occurs it means the same. -/
def Settled (f : Functions) (os : List Occurrence) : Prop :=
  ∀ o ∈ os, ∀ p ∈ os, o.identity = p.identity → o.meaning f = p.meaning f

/-- Every value kept for a node is what the node means wherever it occurs. -/
def Memo.Agrees (f : Functions) (memo : Memo) (os : List Occurrence) : Prop :=
  ∀ o ∈ os, ∀ v, memo[o.identity]? = some v → o.meaning f = .ok v

/-- Every value kept in `after` and not before is what a node means at one of its occurrences. -/
def Memo.Grows (f : Functions) (before after : Memo) (os : List Occurrence) : Prop :=
  ∀ i v, after[i]? = some v →
    before[i]? = some v ∨ ∃ o ∈ os, o.identity = i ∧ o.meaning f = .ok v

namespace Memo

variable {f : Functions} {memo before middle after : Memo} {os ps : List Occurrence}

theorem Grows.refl (memo : Memo) (os : List Occurrence) : memo.Grows f memo os :=
  fun _ _ kept => .inl kept

theorem Grows.mono (grows : before.Grows f after ps) (part : ps ⊆ os) :
    before.Grows f after os := fun i v kept =>
  (grows i v kept).imp_right fun ⟨o, member, found⟩ => ⟨o, part member, found⟩

theorem Grows.trans (first : before.Grows f middle os) (second : middle.Grows f after os) :
    before.Grows f after os := fun i v kept => (second i v kept).elim (first i v) .inr

theorem Grows.agrees (grows : before.Grows f after ps) (part : ps ⊆ os) (settled : Settled f os)
    (agrees : before.Agrees f os) : after.Agrees f os := by
  intro o member v kept
  rcases grows _ _ kept with old | ⟨p, new, same, value⟩
  · exact agrees o member v old
  · rw [settled o member p (part new) same.symm, value]

end Memo

/-- Goes on from a run with the value found; a failure ends the run. -/
def Machine.andThen {σ α β : Type} (run : Except RuntimeError α × Machine σ)
    (k : α → Machine σ → Except RuntimeError β × Machine σ) : Except RuntimeError β × Machine σ :=
  match run with
  | (.error e, s) => (.error e, s)
  | (.ok v, s) => k v s

namespace Machine

variable {σ : Type} {limit : Nat} {t : Tag} {body : Machine σ → Outcome × Machine σ} {s s' : Machine σ}

theorem enter_known {v : Value} (known : s.memo[t.identity]? = some v) :
    enter limit t body s = (.ok v, s) := by
  simp [enter, known]

theorem enter_deep (unknown : s.memo[t.identity]? = none) (deep : limit ≤ s.depth) :
    enter limit t body s = (.error ⟨[t.position], .tooDeep s.depth limit⟩, s) := by
  simp [enter, unknown, deep]

theorem enter_found {v : Value} (unknown : s.memo[t.identity]? = none) (room : ¬ limit ≤ s.depth)
    (found : body { s with depth := s.depth + 1 } = (.ok v, s')) :
    enter limit t body s = (.ok v, { s' with depth := s'.depth - 1 }.keep t.identity v) := by
  simp [enter, unknown, room, found]

theorem enter_failed {e : RuntimeError} (unknown : s.memo[t.identity]? = none)
    (room : ¬ limit ≤ s.depth) (failed : body { s with depth := s.depth + 1 } = (.error e, s')) :
    enter limit t body s = (.error e, { s' with depth := s'.depth - 1 }) := by
  simp [enter, unknown, room, failed]

end Machine

/-- A run from `s` that answers what it should: the depth is as before, what was added to the kept
values is right, a value that is found is the one expected, and with room for `height` more levels
the outcome is the one expected, failures included. -/
structure Faithful {σ α : Type} (f : Functions) (limit : Nat) (os : List Occurrence) (height : Nat)
    (expected : Except RuntimeError α) (s : Machine σ)
    (run : Except RuntimeError α × Machine σ) : Prop where
  depth : run.2.depth = s.depth
  grows : s.memo.Grows f run.2.memo os
  sound : ∀ v, run.1 = .ok v → expected = .ok v
  exact : s.depth + height ≤ limit → run.1 = expected

namespace Faithful

variable {σ α β : Type} {f : Functions} {limit height height' : Nat} {os ps : List Occurrence}
  {s : Machine σ}

theorem mono {expected : Except RuntimeError α} {run : Except RuntimeError α × Machine σ}
    (faithful : Faithful f limit ps height expected s run) (part : ps ⊆ os)
    (low : height ≤ height') : Faithful f limit os height' expected s run where
  depth := faithful.depth
  grows := faithful.grows.mono part
  sound := faithful.sound
  exact := fun room => faithful.exact (by omega)

theorem pure (expected : Except RuntimeError α) (s : Machine σ) :
    Faithful f limit os height expected s (expected, s) where
  depth := rfl
  grows := .refl _ _
  sound := fun _ found => found
  exact := fun _ => rfl

theorem andThen {expected : Except RuntimeError α} {next : α → Except RuntimeError β}
    {run : Except RuntimeError α × Machine σ}
    {k : α → Machine σ → Except RuntimeError β × Machine σ}
    (first : Faithful f limit os height expected s run)
    (rest : ∀ v, expected = .ok v →
      Faithful f limit os height' (next v) run.2 (k v run.2)) :
    Faithful f limit os (max height height') (expected >>= next) s (Machine.andThen run k) := by
  obtain ⟨outcome, s'⟩ := run
  have depth : s'.depth = s.depth := first.depth
  cases outcome with
  | error e =>
    refine ⟨depth, first.grows, fun _ found => (by cases found), fun room => ?_⟩
    rw [← first.exact (by omega)]
    rfl
  | ok v =>
    have found : expected = .ok v := first.sound v rfl
    have later := rest v found
    rw [found]
    refine ⟨later.depth.trans depth, first.grows.trans later.grows, later.sound, fun room => ?_⟩
    exact later.exact (by simp only [depth]; omega)

theorem andThen_pure {expected : Except RuntimeError α}
    {run : Except RuntimeError α × Machine σ} (first : Faithful f limit os height expected s run)
    (wrap : α → β) : Faithful f limit os height (expected >>= fun v => .ok (wrap v)) s
      (Machine.andThen run fun v s => (.ok (wrap v), s)) := by
  rw [← Nat.max_zero height]
  exact first.andThen fun v _ => .pure _ _

/-- A node whose value is known gives it; otherwise its own run, one level deeper, decides, and the
value it finds is kept. -/
theorem enter {o : Occurrence} {t : Tag} {body : Machine σ → Outcome × Machine σ} (member : o ∈ os)
    (same : o.identity = t.identity) (agrees : s.memo.Agrees f os)
    (run : Faithful f limit os height (o.meaning f) { s with depth := s.depth + 1 }
      (body { s with depth := s.depth + 1 })) :
    Faithful f limit os (height + 1) (o.meaning f) s (Machine.enter limit t body s) := by
  cases known : s.memo[t.identity]? with
  | some v =>
    rw [Machine.enter_known known, agrees o member v (same ▸ known)]
    exact .pure _ _
  | none =>
    by_cases deep : limit ≤ s.depth
    · rw [Machine.enter_deep known deep]
      exact ⟨rfl, .refl _ _, fun _ found => (by cases found), fun room => by omega⟩
    rcases found : body { s with depth := s.depth + 1 } with ⟨_ | v, s'⟩
    all_goals
      rw [found] at run
      have depth : s'.depth = s.depth + 1 := run.depth
    · rw [Machine.enter_failed known deep found]
      exact ⟨by simp [depth], run.grows, run.sound, fun room => run.exact (by simp only; omega)⟩
    · rw [Machine.enter_found known deep found]
      refine ⟨by simp [Machine.keep, depth], ?_, run.sound,
        fun room => run.exact (by simp only; omega)⟩
      intro i w kept
      simp only [Machine.keep, Std.HashMap.getElem?_insertIfNew] at kept
      split at kept
      · next new =>
        cases kept
        exact .inr ⟨o, member, same.trans (by simpa using new.1), run.sound _ rfl⟩
      · exact run.grows i w kept

end Faithful

namespace Node

variable {σ : Type} {call : Caller σ} {limit : Nat}

theorem eval_vector (t : Tag) (es : List Node) (env : Env) (s : Machine σ) :
    eval call limit (.vector t es) env s = Machine.enter limit t (fun s =>
      Machine.andThen (evalAll call limit es env s) fun vs s => (.ok (.vector vs), s)) s := by
  simp only [eval, Machine.andThen]
  congr 1
  funext s
  split <;> simp [*]

theorem eval_apply (t : Tag) (g x : Node) (env : Env) (s : Machine σ) :
    eval call limit (.apply t g x) env s = Machine.enter limit t (fun s =>
      Machine.andThen (eval call limit g env s) fun v s =>
        match v with
        | .function callee captured =>
          Machine.andThen (eval call limit x env s) fun arg s =>
            applyAt call t callee captured arg s
        | v => (.error ⟨[t.position], .mistyped (.just .function) v.kind⟩, s)) s := by
  simp only [eval, Machine.andThen]
  congr 1
  funext s
  split <;> simp [*]
  split <;> simp [*]

theorem eval_letIn (t : Tag) (x : String) (b e : Node) (env : Env) (s : Machine σ) :
    eval call limit (.letIn t x b e) env s = Machine.enter limit t (fun s =>
      Machine.andThen (eval call limit b env s) fun v s =>
        eval call limit e (env.child.register x v) s) s := by
  simp only [eval, Machine.andThen]
  congr 1
  funext s
  split <;> simp [*]

theorem evalAll_cons (n : Node) (ns : List Node) (env : Env) (s : Machine σ) :
    evalAll call limit (n :: ns) env s =
      Machine.andThen (eval call limit n env s) fun v s =>
        Machine.andThen (evalAll call limit ns env s) fun vs s => (.ok (v :: vs), s) := by
  simp only [evalAll, Machine.andThen]
  split <;> simp [*]
  split <;> simp [*]

variable {f : Functions}

theorem mem_occurrences_self (n : Node) (names : Names) : ⟨n, names⟩ ∈ n.occurrences f names := by
  cases n <;> simp [occurrences]

theorem applyAt_faithful (pure : call.Answers f) {os : List Occurrence} (t : Tag) (callee : Callee)
    (captured : List Value) (arg : Value) (s : Machine σ) :
    Faithful f limit os 0 ((f callee captured arg).mapError (Fault.locate t.position)) s
      (applyAt call t callee captured arg s) := by
  have answer := pure callee captured arg s.world
  unfold applyAt
  generalize call callee captured arg s.world = result at answer ⊢
  obtain ⟨_ | v, world⟩ := result <;> rw [← answer] <;>
    exact ⟨rfl, .refl _ _, fun _ found => found, fun _ => rfl⟩

/-- Whether evaluating a node among settled occurrences is faithful, from every machine whose kept
values are right. -/
def EvaluatesIn (call : Caller σ) (limit : Nat) (f : Functions) (os : List Occurrence) (n : Node) :
    Prop :=
  ∀ (env : Env) (s : Machine σ), n.occurrences f env.lookup? ⊆ os → s.memo.Agrees f os →
    Faithful f limit os n.height (n.meaning f env.lookup?) s (n.eval call limit env s)

theorem evalAll_faithful {os : List Occurrence} (settled : Settled f os) {ns : List Node}
    (each : ∀ n ∈ ns, n.EvaluatesIn call limit f os) (env : Env) (s : Machine σ)
    (part : occurrencesAll f ns env.lookup? ⊆ os) (agrees : s.memo.Agrees f os) :
    Faithful f limit os (Expr.heights ns) (Expr.meanings f Tag.position ns env.lookup?) s
      (evalAll call limit ns env s) := by
  induction ns generalizing s with
  | nil => exact .pure _ _
  | cons n ns ih =>
    rw [occurrencesAll] at part
    rw [evalAll_cons]
    have head := each n List.mem_cons_self env s (List.append_subset.1 part).1 agrees
    refine (head.andThen fun v _ => ?_)
    have tail := ih (fun m member => each m (List.mem_cons_of_mem _ member)) _
      (List.append_subset.1 part).2 (head.grows.agrees (List.Subset.refl _) settled agrees)
    exact tail.andThen_pure fun vs => v :: vs

/-- Evaluating a node among settled occurrences is faithful to its meaning. -/
theorem eval_faithful (pure : call.Answers f) {os : List Occurrence} (settled : Settled f os)
    (n : Node) : n.EvaluatesIn call limit f os := by
  induction n using Expr.induct with
  | literal t v =>
    intro env s part agrees
    exact .enter (o := ⟨.literal t v, env.lookup?⟩) (part (mem_occurrences_self _ _)) rfl agrees
      (.pure _ _)
  | var t x =>
    intro env s part agrees
    refine .enter (o := ⟨.var t x, env.lookup?⟩) (part (mem_occurrences_self _ _)) rfl agrees ?_
    cases found : env.lookup? x with
    | some v => simpa [Occurrence.meaning, Node.meaning, Expr.meaning, found] using .pure _ _
    | none => simpa [Occurrence.meaning, Node.meaning, Expr.meaning, found] using .pure _ _
  | vector t es ih =>
    intro env s part agrees
    rw [eval_vector]
    refine .enter (o := ⟨.vector t es, env.lookup?⟩) (part (mem_occurrences_self _ _)) rfl agrees ?_
    rw [occurrences] at part
    have elems := evalAll_faithful settled ih env { s with depth := s.depth + 1 }
      (List.cons_subset.1 part).2 agrees
    exact elems.andThen_pure Value.vector
  | apply t g x ihg ihx =>
    intro env s part agrees
    rw [eval_apply]
    refine .enter (o := ⟨.apply t g x, env.lookup?⟩) (part (mem_occurrences_self _ _)) rfl agrees ?_
    rw [occurrences] at part
    obtain ⟨partG, partX⟩ := List.append_subset.1 (List.cons_subset.1 part).2
    have function := ihg env { s with depth := s.depth + 1 } partG agrees
    refine function.andThen fun v _ => ?_
    cases v with
    | function callee captured =>
      have argument := ihx _ _ partX (function.grows.agrees (List.Subset.refl _) settled agrees)
      exact (argument.andThen fun arg _ => applyAt_faithful pure t callee captured arg _).mono
        (List.Subset.refl _) (Nat.max_le.2 ⟨Nat.le_refl _, Nat.zero_le _⟩)
    | _ => exact .pure _ _
  | letIn t x b e ihb ihe =>
    intro env s part agrees
    rw [eval_letIn]
    refine .enter (o := ⟨.letIn t x b e, env.lookup?⟩) (part (mem_occurrences_self _ _)) rfl agrees ?_
    rw [occurrences] at part
    obtain ⟨partB, partE⟩ := List.append_subset.1 (List.cons_subset.1 part).2
    have bound := ihb env { s with depth := s.depth + 1 } partB agrees
    refine bound.andThen fun v value => ?_
    rw [show Node.meaning f b env.lookup? = .ok v from value] at partE
    have scope := Names.lookup_bind env x v
    have body := ihe (env.child.register x v) _ (scope ▸ partE)
      (bound.grows.agrees (List.Subset.refl _) settled agrees)
    rwa [scope] at body

theorem occurrences_sublist (n : Node) (names : Names) :
    ((n.occurrences f names).map Occurrence.node).Sublist n.preorder := by
  induction n using Expr.induct generalizing names with
  | literal | var => simp [occurrences, Expr.preorder]
  | vector t es ih =>
    simp only [occurrences, Expr.preorder, List.map_cons]
    refine .cons_cons _ ?_
    induction es with
    | nil => simp [occurrencesAll]
    | cons e es elems =>
      simp only [occurrencesAll, Expr.preorderAll, List.map_append]
      exact (ih e List.mem_cons_self _).append
        (elems fun m member => ih m (List.mem_cons_of_mem _ member))
  | apply t g x ihg ihx =>
    simp only [occurrences, Expr.preorder, List.map_cons, List.map_append]
    exact .cons_cons _ ((ihg _).append (ihx _))
  | letIn t x b e ihb ihe =>
    simp only [occurrences, Expr.preorder, List.map_cons, List.map_append]
    refine .cons_cons _ ((ihb _).append ?_)
    split
    · exact ihe _
    · exact List.nil_sublist _

theorem occurrence_unique {n : Node} (once : (n.preorder.map Node.identity).Nodup) {names : Names}
    {o p : Occurrence} (mo : o ∈ n.occurrences f names) (mp : p ∈ n.occurrences f names)
    (same : o.identity = p.identity) : o = p := by
  have sublist := (occurrences_sublist (f := f) n names).map Node.identity
  rw [List.map_map] at sublist
  exact List.inj_on_of_nodup_map (once.sublist sublist) mo mp same

theorem settled_of_once {n : Node} (once : (n.preorder.map Node.identity).Nodup) (names : Names) :
    Settled f (n.occurrences f names) := fun _ mo _ mp same =>
  congrArg _ (occurrence_unique once mo mp same)

theorem agrees_of_empty {n : Node} {memo : Memo}
    (empty : ∀ m ∈ n.preorder, memo[Node.identity m]? = none) (names : Names) :
    memo.Agrees f (n.occurrences f names) := by
  intro o member v kept
  have below := (occurrences_sublist n names).subset (List.mem_map_of_mem member)
  rw [show memo[o.identity]? = none from empty _ below] at kept
  contradiction

/-- Evaluation of a tree in which no node stands twice and none has a value yet is faithful. -/
theorem eval_once_faithful {σ : Type} {call : Caller σ} (pure : call.Answers f) {n : Node}
    (env : Env) (limit : Nat) {s : Machine σ} (once : (n.preorder.map Node.identity).Nodup)
    (empty : ∀ m ∈ n.preorder, s.memo[Node.identity m]? = none) :
    Faithful f limit (n.occurrences f env.lookup?) n.height (n.meaning f env.lookup?) s
      (n.eval call limit env s) :=
  eval_faithful pure (settled_of_once once env.lookup?) n env s (List.Subset.refl _)
    (agrees_of_empty empty _)

/-- Keeping values implements lexical scoping: in a tree in which no node stands twice and none has a
value yet, evaluation within the limit answers what the tree means in the names of the frames. -/
theorem eval_eq_meaning {σ : Type} (call : Caller σ) (f : Functions) (pure : call.Answers f)
    (n : Node) (env : Env) (limit : Nat) (s : Machine σ)
    (once : (n.preorder.map Node.identity).Nodup)
    (empty : ∀ m ∈ n.preorder, s.memo[Node.identity m]? = none)
    (room : s.depth + n.height ≤ limit) :
    (n.eval call limit env s).1 = n.meaning f env.lookup? :=
  (eval_once_faithful pure env limit once empty).exact room

/-- `let x = true in let x = [x, x] in g x`, in which `x` has two meanings. -/
def shadowing : Node :=
  .letIn ⟨0, .unknown⟩ "x" (.literal ⟨1, .unknown⟩ (.bool true))
    (.letIn ⟨2, .unknown⟩ "x"
      (.vector ⟨3, .unknown⟩ [.var ⟨4, .unknown⟩ "x", .var ⟨5, .unknown⟩ "x"])
      (.apply ⟨6, .unknown⟩ (.var ⟨7, .unknown⟩ "g") (.var ⟨8, .unknown⟩ "x")))

/-- A host whose only function gives its argument back. -/
def giveBack : Caller Unit := Caller.ofHost fun _ _ arg world => (.ok arg, world)

theorem giveBack_answers :
    giveBack.Answers fun callee captured arg => (giveBack callee captured arg ()).1 :=
  fun _ _ _ _ => rfl

theorem eval_shadowing :
    (shadowing.eval giveBack 4 (Env.empty.register "g" (.function (.host 0) []))
      (.initial ())).1 = .ok (.vector [.bool true, .bool true]) := by
  have meant := eval_eq_meaning giveBack _ giveBack_answers shadowing
    (Env.empty.register "g" (.function (.host 0) [])) 4 (.initial ())
    (by decide) (fun _ _ => by simp [Machine.initial]) (by decide)
  rw [meant]
  rfl

end Node

end Formula
