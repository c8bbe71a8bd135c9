import Formula.Engine
import Formula.Proofs.Filling
import Formula.Proofs.RoundTrip

/-! Formulas that use the prelude alone. Every value in reach is made of numbers, vectors and predefined
operations, what an operation has captured included, so no function of the host is ever called.
Main statement: such a formula comes to a value of this kind, or to a failure of its own at one of
its nodes. -/
namespace Formula

/-- A value without strings, truth values and functions of the host, at any depth. -/
inductive Value.Plain : Value → Prop where
  | number {x} : Plain (.number x)
  | function {operation captured} (each : ∀ v ∈ captured, Plain v) :
    Plain (.function (.builtin operation) captured)
  | vector {elems} (each : ∀ v ∈ elems, Plain v) : Plain (.vector elems)

/-- Whether a failure is a formula's own, and not its host's. -/
def Cause.IsOwn : Cause → Prop
  | .host _ => False
  | _ => True

/-- An answer with a property, or a failure of an operation's own, which knows no position. -/
def Yields {α : Type} (P : α → Prop) : Except Fault α → Prop
  | .ok v => P v
  | .error fault => ∃ cause : Cause, cause.IsOwn ∧ fault = .of cause

namespace Yields

variable {α β : Type} {P : α → Prop} {Q : β → Prop} {answer : Except Fault α}

theorem failure {cause : Cause} (own : cause.IsOwn) : Yields P (.error (.of cause)) :=
  ⟨cause, own, rfl⟩

theorem mistyped (expected : Expected) (actual : Kind) :
    Yields P (.error (.mistyped expected actual)) := failure trivial

theorem bind {next : α → Except Fault β} (first : Yields P answer)
    (rest : ∀ v, P v → Yields Q (next v)) : Yields Q (answer >>= next) := by
  cases answer with
  | ok v => exact rest v first
  | error fault => exact first

end Yields

/-- Answers with plain values. -/
abbrev YieldsPlain : Except Fault Value → Prop := Yields Value.Plain

/-- Answers with lists of plain values. -/
abbrev YieldsAllPlain : Except Fault (List Value) → Prop := Yields fun vs => ∀ v ∈ vs, v.Plain

theorem Yields.vector {answer : Except Fault (List Value)} (elems : YieldsAllPlain answer) :
    YieldsPlain (answer >>= fun vs => pure (.vector vs)) :=
  elems.bind fun _ each => Value.Plain.vector each

theorem Yields.cons {answer : Except Fault Value} {others : Except Fault (List Value)}
    (head : YieldsPlain answer) (tail : YieldsAllPlain others) :
    YieldsAllPlain (answer >>= fun v => others >>= fun vs => pure (v :: vs)) :=
  head.bind fun _ first => tail.bind fun _ later => List.forall_mem_cons.2 ⟨first, later⟩

namespace Broadcast

variable {kind left right : Kind} {f : Value → Except Fault Value}
  {g : Value → Value → Except Fault Value} {x y : Value}

theorem yields_unary (each : ∀ x, x.Plain → YieldsPlain (f x)) (plain : x.Plain) :
    YieldsPlain (unary kind f x) := by
  induction x with
  | vector xs ih =>
    cases plain with
    | vector elems =>
      have all : YieldsAllPlain (unaryAll kind f xs) := by
        induction xs with
        | nil => exact List.forall_mem_nil _
        | cons x xs rest =>
          obtain ⟨here, later⟩ := List.forall_mem_cons.1 elems
          exact .cons (ih x List.mem_cons_self here)
            (rest (fun x member => ih x (List.mem_cons_of_mem _ member)) later)
      unfold unary
      split
      · exact each _ (.vector elems)
      · exact .vector all
  | _ =>
    unfold unary
    split
    · exact each _ plain
    · exact .mistyped _ _

theorem yields_binary_scalar (each : ∀ x y, x.Plain → y.Plain → YieldsPlain (g x y))
    (plainX : x.Plain) (scalar : x.kind = left) (plainY : y.Plain) :
    YieldsPlain (binary left right g x y) := by
  induction y with
  | vector ys ih =>
    cases plainY with
    | vector elems =>
      have all : YieldsAllPlain (binaryEachRight left right g x ys) := by
        induction ys with
        | nil =>
          unfold binaryEachRight
          exact List.forall_mem_nil _
        | cons y ys rest =>
          obtain ⟨here, later⟩ := List.forall_mem_cons.1 elems
          unfold binaryEachRight
          exact .cons (ih y List.mem_cons_self here)
            (rest (fun y member => ih y (List.mem_cons_of_mem _ member)) later)
      unfold binary
      rw [if_pos scalar]
      split
      · exact each _ _ plainX (.vector elems)
      · exact .vector all
  | _ =>
    unfold binary
    rw [if_pos scalar]
    split
    · exact each _ _ plainX plainY
    · exact .mistyped _ _

theorem yields_pairs {xs ys : List Value} (plainX : ∀ x ∈ xs, x.Plain) (plainY : ∀ y ∈ ys, y.Plain)
    (meet : ∀ x ∈ xs, x.Plain → ∀ y, y.Plain → YieldsPlain (binary left right g x y)) :
    YieldsAllPlain (binaryPairs left right g xs ys) := by
  induction xs generalizing ys with
  | nil =>
    unfold binaryPairs
    exact List.forall_mem_nil _
  | cons x xs ih =>
    unfold binaryPairs
    cases ys with
    | nil => exact List.forall_mem_nil _
    | cons y ys =>
      obtain ⟨left, lefts⟩ := List.forall_mem_cons.1 plainX
      obtain ⟨right, rights⟩ := List.forall_mem_cons.1 plainY
      exact .cons (meet x List.mem_cons_self left y right)
        (ih lefts rights fun x member => meet x (List.mem_cons_of_mem _ member))

theorem yields_eachLeft {xs : List Value} (plainX : ∀ x ∈ xs, x.Plain) (plainY : y.Plain)
    (meet : ∀ x ∈ xs, x.Plain → ∀ y, y.Plain → YieldsPlain (binary left right g x y)) :
    YieldsAllPlain (binaryEachLeft left right g xs y) := by
  induction xs with
  | nil =>
    unfold binaryEachLeft
    exact List.forall_mem_nil _
  | cons x xs ih =>
    obtain ⟨here, later⟩ := List.forall_mem_cons.1 plainX
    unfold binaryEachLeft
    exact .cons (meet x List.mem_cons_self here y plainY)
      (ih later fun x member => meet x (List.mem_cons_of_mem _ member))

theorem yields_binary (each : ∀ x y, x.Plain → y.Plain → YieldsPlain (g x y)) (plainX : x.Plain)
    (plainY : y.Plain) : YieldsPlain (binary left right g x y) := by
  induction x generalizing y with
  | vector xs ih =>
    by_cases scalar : (Value.vector xs).kind = left
    · exact yields_binary_scalar each plainX scalar plainY
    cases plainX with
    | vector elems =>
      have meet : ∀ x ∈ xs, x.Plain → ∀ y, y.Plain → YieldsPlain (binary left right g x y) :=
        fun x member plainX y plainY => ih x member plainX plainY
      unfold binary
      rw [if_neg scalar]
      dsimp only
      split
      · exact .vector (yields_eachLeft elems plainY meet)
      · cases plainY with
        | vector others => exact .vector (yields_pairs elems others meet)
        | _ => exact .mistyped _ _
  | _ =>
    refine (Decidable.em (Value.kind _ = left)).elim
      (fun scalar => yields_binary_scalar each plainX scalar plainY) fun other => ?_
    unfold binary
    rw [if_neg other]
    exact .mistyped _ _

theorem yields_reduce (each : ∀ x y, x.Plain → y.Plain → YieldsPlain (g x y)) (plainX : x.Plain)
    (plainY : y.Plain) : YieldsPlain (reduce kind g x y) := by
  cases plainY with
  | @vector elems plain =>
    change YieldsPlain (elems.foldlM _ x)
    induction elems generalizing x with
    | nil => exact plainX
    | cons elem elems ih =>
      obtain ⟨here, later⟩ := List.forall_mem_cons.1 plain
      rw [List.foldlM_cons]
      refine Yields.bind ?_ fun next plainNext => ih plainNext later
      split
      · exact each _ _ plainX here
      · exact .mistyped _ _
  | _ => exact .mistyped _ _

end Broadcast

namespace Statistics

theorem yields_mean (xs : List Float) : Yields (fun _ => True) (mean xs) := by
  unfold mean
  split
  · exact .failure trivial
  · trivial

theorem yields_variance (xs : List Float) : Yields (fun _ => True) (variance xs) :=
  (yields_mean xs).bind fun _ _ => trivial

theorem yields_apply (f : Statistic) (xs : List Float) : Yields (fun _ => True) (f.apply xs) := by
  cases f with
  | sum => trivial
  | mean => exact yields_mean xs
  | variance => exact yields_variance xs
  | deviation | error => exact (yields_variance xs).bind fun _ _ => trivial

theorem yields_numbers (x : Value) : Yields (fun _ => True) (numbers x) := by
  cases x with
  | vector elems =>
    dsimp only [numbers]
    induction elems with
    | nil => trivial
    | cons elem elems ih =>
      rw [List.mapM_cons]
      refine Yields.bind (P := fun _ => True) ?_ fun _ _ => ih.bind fun _ _ => trivial
      cases elem with
      | number => trivial
      | _ => exact .mistyped _ _
  | _ => exact .mistyped _ _

end Statistics

theorem yields_onNumber (f : Float → Float) (x : Value) : YieldsPlain (onNumber f x) := by
  cases x with
  | number => exact .number
  | _ => exact .mistyped _ _

theorem yields_onNumbers (f : Float → Float → Float) (x y : Value) :
    YieldsPlain (onNumbers f x y) := by
  unfold onNumbers
  split
  · exact .number
  · exact .mistyped _ _

namespace Indexing

variable {x : Value}

theorem yields_elements (plain : x.Plain) : YieldsAllPlain (elements x) := by
  cases plain with
  | vector each => exact each
  | _ => exact .mistyped _ _

theorem yields_get (plain : x.Plain) (index : Value) : YieldsPlain (get x index) := by
  refine (yields_elements plain).bind fun elems each => ?_
  cases index with
  | number i =>
    dsimp only
    split
    · next elem found =>
      obtain ⟨offset, _, there⟩ := Option.bind_eq_some_iff.1 found
      exact each elem (List.mem_of_getElem? there)
    · exact .failure trivial
  | _ => exact .mistyped _ _

theorem yields_first (plain : x.Plain) : YieldsPlain (first x) := by
  refine (yields_elements plain).bind fun elems each => ?_
  cases elems with
  | nil => exact .failure trivial
  | cons elem elems => exact each elem List.mem_cons_self

end Indexing

/-- Predefined operations keep to plain values. -/
theorem Builtin.yields_call (b : Builtin) {captured : List Value} {arg : Value}
    (plain : ∀ v ∈ captured, v.Plain) (plainArg : arg.Plain) :
    YieldsPlain (b.call captured arg) := by
  have captures (b : Builtin) : (capture b arg).Plain := .function (by simpa using plainArg)
  cases b with
  | unary f => exact Broadcast.yields_unary (fun x _ => yields_onNumber _ x) plainArg
  | binary f =>
    cases captured with
    | nil => exact captures _
    | cons x _ =>
      exact Broadcast.yields_binary (fun x y _ _ => yields_onNumbers _ x y)
        (plain x List.mem_cons_self) plainArg
  | index =>
    cases captured with
    | nil => exact captures _
    | cons x _ => exact Indexing.yields_get (plain x List.mem_cons_self) arg
  | length => exact (Indexing.yields_elements plainArg).bind fun _ _ => .number
  | first => exact Indexing.yields_first plainArg
  | product => exact Broadcast.yields_reduce (fun x y _ _ => yields_onNumbers _ x y) .number plainArg
  | statistic f =>
    exact (Statistics.yields_numbers arg).bind fun xs _ =>
      (Statistics.yields_apply f xs).bind fun _ _ => .number

/-- All names have plain values. -/
def Env.Plain (env : Env) : Prop := ∀ x v, env.lookup? x = some v → v.Plain

/-- All values that nodes keep are plain. -/
def Memo.Plain (memo : Memo) : Prop := ∀ (i : Nat) (v : Value), memo[i]? = some v → v.Plain

theorem Value.plain_ofBuiltin (b : Builtin) : (Value.ofBuiltin b).Plain :=
  .function (List.forall_mem_nil _)

theorem Prelude.plain_entries : ∀ p ∈ entries, p.2.Plain := by
  have numbers : ∀ p ∈ constants, p.2.Plain := by simp [constants, Value.Plain.number]
  intro p member
  simp only [entries, List.mem_append, List.mem_map, Prod.exists] at member
  rcases member with ((constant | ⟨_, _, _, rfl⟩) | ⟨_, _, _, rfl⟩) | ⟨_, _, _, rfl⟩
  · exact numbers p constant
  all_goals exact Value.plain_ofBuiltin _

theorem Env.plain_prelude : Env.prelude.Plain := by
  intro x v found
  have entry : Prelude.entries.lookup x = some v := by simpa [lookup?, prelude, lookupIn] using found
  obtain ⟨before, after, split, _⟩ := List.lookup_eq_some_iff.1 entry
  exact Prelude.plain_entries (x, v) (by simp [split])

theorem Env.Plain.bind {env : Env} (plain : env.Plain) (x : String) {v : Value} (value : v.Plain) :
    (env.child.register x v).Plain := by
  intro y w found
  rw [lookup?_register, lookup?_child] at found
  split at found
  · cases found
    exact value
  · exact plain y w found

/-- The caller of a host without functions of its own. -/
def Caller.alone {σ : Type} : Caller σ := .ofHost fun _ _ _ world => (.error (.host ""), world)

/-- How functions answer where there is no host. -/
def Functions.alone : Functions
  | .builtin operation, captured, arg => operation.call captured arg
  | .host _, _, _ => .error (.host "")

theorem Caller.alone_answers {σ : Type} : (Caller.alone (σ := σ)).Answers .alone :=
  fun callee _ _ _ => by cases callee <;> rfl

/-- An answer with a property, or a failure of a formula's own at one of some nodes. -/
def Ends {α : Type} (nodes : List Node) (P : α → Prop) : Except RuntimeError α → Prop
  | .ok v => P v
  | .error e => e.cause.IsOwn ∧ ∃ n ∈ nodes, e.trace = [Node.position n]

/-- A run that the host has no part in: it goes as it does alone, and it ends and keeps what it
should. -/
structure Confined {σ α : Type} (nodes : List Node) (P : α → Prop)
    (run alone : Except RuntimeError α × Machine σ) : Prop where
  same : run = alone
  memo : run.2.memo.Plain
  ends : Ends nodes P run.1

namespace Confined

variable {σ α β : Type} {limit : Nat} {nodes part : List Node} {P : α → Prop} {Q : β → Prop}
  {s : Machine σ}

theorem pure {outcome : Except RuntimeError α} (plain : s.memo.Plain) (ends : Ends nodes P outcome) :
    Confined nodes P (outcome, s) (outcome, s) := ⟨rfl, plain, ends⟩

theorem mono {run alone : Except RuntimeError α × Machine σ} (confined : Confined part P run alone)
    (subset : part ⊆ nodes) : Confined nodes P run alone := by
  obtain ⟨same, memo, ends⟩ := confined
  refine ⟨same, memo, ?_⟩
  rcases run with ⟨e | v, s⟩
  · exact ends.imp_right fun ⟨n, member, trace⟩ => ⟨n, subset member, trace⟩
  · exact ends

theorem andThen {run alone : Except RuntimeError α × Machine σ}
    {k k' : α → Machine σ → Except RuntimeError β × Machine σ} (first : Confined nodes P run alone)
    (rest : ∀ v s, P v → s.memo.Plain → Confined nodes Q (k v s) (k' v s)) :
    Confined nodes Q (Machine.andThen run k) (Machine.andThen alone k') := by
  obtain ⟨rfl, memo, ends⟩ := first
  rcases run with ⟨e | v, s⟩
  · exact ⟨rfl, memo, ends⟩
  · exact rest v s ends memo

theorem enter {n : Node} {body body' : Machine σ → Outcome × Machine σ} (member : n ∈ nodes)
    (run : ∀ s, s.memo.Plain → Confined nodes Value.Plain (body s) (body' s)) (plain : s.memo.Plain) :
    Confined nodes Value.Plain (Machine.enter limit n.tag body s)
      (Machine.enter limit n.tag body' s) := by
  cases known : s.memo[n.identity]? with
  | some v =>
    rw [Machine.enter_known known, Machine.enter_known known]
    exact .pure plain (plain _ v known)
  | none =>
    by_cases deep : limit ≤ s.depth
    · rw [Machine.enter_deep known deep, Machine.enter_deep known deep]
      exact .pure plain ⟨trivial, n, member, rfl⟩
    obtain ⟨same, memo, ends⟩ := run { s with depth := s.depth + 1 } plain
    rcases found : body { s with depth := s.depth + 1 } with ⟨e | v, m⟩
    all_goals
      rw [found] at same memo ends
    · rw [Machine.enter_failed known deep found, Machine.enter_failed known deep same.symm]
      exact ⟨rfl, memo, ends⟩
    · rw [Machine.enter_found known deep found, Machine.enter_found known deep same.symm]
      refine ⟨rfl, fun i w kept => ?_, ends⟩
      rcases Memo.getElem?_insertIfNew_some.1 kept with old | ⟨_, _, rfl⟩
      · exact memo i w old
      · exact ends

end Confined

namespace Node

variable {σ : Type} {host : Nat → List Value → Value → σ → Except Fault Value × σ} {limit : Nat}
  {nodes : List Node} {s : Machine σ} {env : Env}

theorem applyAt_builtin (t : Tag) (operation : Builtin) (captured : List Value) (arg : Value) :
    applyAt (.ofHost host) t (.builtin operation) captured arg s =
      ((operation.call captured arg).mapError (Fault.locate t.position), s) := by
  rw [applyAt, Caller.ofHost]
  cases operation.call captured arg <;> rfl

theorem applyAt_confined {n : Node} (member : n ∈ nodes) (operation : Builtin)
    {captured : List Value} {arg : Value} (plainCaptured : ∀ v ∈ captured, v.Plain)
    (plainArg : arg.Plain) (plain : s.memo.Plain) :
    Confined nodes Value.Plain (applyAt (.ofHost host) n.tag (.builtin operation) captured arg s)
      (applyAt .alone n.tag (.builtin operation) captured arg s) := by
  have yields := operation.yields_call plainCaptured plainArg
  rw [Caller.alone, applyAt_builtin, applyAt_builtin]
  refine .pure plain ?_
  cases answer : operation.call captured arg with
  | ok v =>
    rw [answer] at yields
    exact yields
  | error fault =>
    rw [answer] at yields
    obtain ⟨cause, own, rfl⟩ := yields
    exact ⟨own, n, member, rfl⟩

/-- Whether a node, evaluated where only plain values are in reach, is no matter of the host. -/
def ConfinedTo (host : Nat → List Value → Value → σ → Except Fault Value × σ) (limit : Nat)
    (n : Node) : Prop :=
  ∀ (env : Env) (s : Machine σ), env.Plain → s.memo.Plain →
    Confined (Expr.preorder n) Value.Plain (n.eval (.ofHost host) limit env s)
      (n.eval .alone limit env s)

theorem evalAll_confined {ns : List Node} (each : ∀ n ∈ ns, n.ConfinedTo host limit)
    (within : ∀ n ∈ ns, Expr.preorder n ⊆ nodes) (plainEnv : env.Plain) (plain : s.memo.Plain) :
    Confined nodes (fun vs => ∀ v ∈ vs, v.Plain) (evalAll (.ofHost host) limit ns env s)
      (evalAll .alone limit ns env s) := by
  induction ns generalizing s with
  | nil => exact .pure plain (List.forall_mem_nil _)
  | cons n ns ih =>
    obtain ⟨head, tail⟩ := List.forall_mem_cons.1 each
    obtain ⟨here, later⟩ := List.forall_mem_cons.1 within
    rw [evalAll_cons, evalAll_cons]
    refine ((head env s plainEnv plain).mono here).andThen fun v s value plain => ?_
    exact (ih tail later plain).andThen fun vs s values plain =>
      .pure plain (List.forall_mem_cons.2 ⟨value, values⟩)

/-- A printable node is no matter of the host where only plain values are in reach. -/
theorem eval_confined {n : Node} (printable : Expr.Printable n) : n.ConfinedTo host limit := by
  induction n using Expr.induct_children with
  | node n ih =>
    intro env s plainEnv plain
    have below {c : Node} (child : c ∈ Expr.children n) : Expr.preorder c ⊆ Expr.preorder n :=
      Expr.preorder_subset_of_child child
    have each (c : Node) (child : c ∈ Expr.children n) : c.ConfinedTo host limit :=
      ih c child (printable.of_mem (below child (Expr.mem_preorder_self c)))
    have here : n ∈ Expr.preorder n := Expr.mem_preorder_self n
    rw [eval_eq_enter, eval_eq_enter]
    refine .enter here (fun s plain => ?_) plain
    cases n with
    | literal t v =>
      cases printable with
      | number => exact .pure plain .number
    | vector t es =>
      exact (evalAll_confined each (fun c => below) plainEnv plain).andThen
        fun vs s values plain => .pure plain (.vector values)
    | var t x =>
      rw [body, body]
      refine .pure plain ?_
      cases found : env.lookup? x with
      | some v => exact plainEnv x v found
      | none => exact ⟨trivial, _, here, rfl⟩
    | apply t g x =>
      have func : g ∈ Expr.children (.apply t g x) := by simp [Expr.children]
      have args : x ∈ Expr.children (.apply t g x) := by simp [Expr.children]
      refine ((each g func env s plainEnv plain).mono (below func)).andThen fun v s value plain => ?_
      cases value with
      | function plainCaptured =>
        exact ((each x args env s plainEnv plain).mono (below args)).andThen
          fun arg s plainArg plain => applyAt_confined here _ plainCaptured plainArg plain
      | number => exact .pure plain ⟨trivial, _, here, rfl⟩
      | vector => exact .pure plain ⟨trivial, _, here, rfl⟩
    | letIn t x b e =>
      have bound : b ∈ Expr.children (.letIn t x b e) := by simp [Expr.children]
      have inner : e ∈ Expr.children (.letIn t x b e) := by simp [Expr.children]
      refine ((each b bound env s plainEnv plain).mono (below bound)).andThen fun v s value plain => ?_
      exact (each e inner _ s (plainEnv.bind x value) plain).mono (below inner)

end Node

namespace Engine

variable {σ : Type} {host : Nat → List Value → Value → σ → Except Fault Value × σ}

theorem printable_prepare (e : Engine) (s : Session σ) {tree : Expr Position}
    (printable : tree.Printable) : Expr.Printable (e.prepare s tree).1 := by
  obtain ⟨env, optimises, limit⟩ := e
  cases optimises with
  | false => exact s.printable_build printable
  | true => exact s.printable_optimise printable

theorem machine_prepare (e : Engine) (s : Session σ) (tree : Expr Position) :
    (e.prepare s tree).2.machine = s.machine := by
  obtain ⟨env, optimises, limit⟩ := e
  cases optimises <;> rfl

theorem run_outcome (e : Engine) (call : Caller σ) (s : Session σ) (n : Node) :
    (e.run call s n).1 = (n.eval call e.limit e.env s.machine).1.mapError .runtime := by
  rw [run, Session.eval]
  rcases n.eval call e.limit e.env s.machine with ⟨_ | _, _⟩ <;> rfl

variable (host : Nat → List Value → Value → σ → Except Fault Value × σ) (world : σ)
  (optimises : Bool) (limit : Nat) {depth : Nat} {source text : String} {tree : Expr Position}

/-- In a new session, what is prepared for a tree that was parsed is no matter of the host. -/
theorem prepare_confined (parsed : parseWithin depth source text = .ok tree) :
    let engine := Engine.new optimises limit []
    let prepared := engine.prepare (.initial world) tree
    Confined (Expr.preorder prepared.1) Value.Plain
      (prepared.1.eval (.ofHost host) engine.limit engine.env prepared.2.machine)
      (prepared.1.eval .alone engine.limit engine.env prepared.2.machine) := by
  intro engine prepared
  have printable := engine.printable_prepare (.initial world) (parseWithin_printable parsed)
  have nothing : prepared.2.machine.memo.Plain := by
    intro i v kept
    rw [engine.machine_prepare] at kept
    simp [Session.initial, Machine.initial] at kept
  exact Node.eval_confined printable _ _ Env.plain_prelude nothing

/-- The host has no part in the run of a formula that uses the prelude alone. -/
theorem run_alone (parsed : parseWithin depth source text = .ok tree) :
    let engine := Engine.new optimises limit []
    let (n, s) := engine.prepare (.initial world) tree
    engine.run (.ofHost host) s n = engine.run .alone s n := by
  intro engine
  have same := (prepare_confined host world optimises limit parsed).same
  generalize engine.prepare (.initial world) tree = prepared at same ⊢
  dsimp only
  rw [run, run, Session.eval, Session.eval, same]

/-- A formula that uses the prelude alone, optimised or not, comes to a value that is made of numbers,
vectors and predefined operations, whatever the host and the limit, or it fails on its own at one of
the nodes that were evaluated. -/
theorem run_predefined (parsed : parseWithin depth source text = .ok tree) :
    let engine := Engine.new optimises limit []
    let (n, s) := engine.prepare (.initial world) tree
    match (engine.run (.ofHost host) s n).1 with
    | .ok v => v.Plain
    | .error (.runtime e) => e.cause.IsOwn ∧ ∃ m ∈ Expr.preorder n, e.trace = [Node.position m]
    | .error (.parse _) => False := by
  intro engine
  have ends := (prepare_confined host world optimises limit parsed).ends
  generalize engine.prepare (.initial world) tree = prepared at ends ⊢
  dsimp only
  rw [run_outcome]
  cases outcome : (prepared.1.eval (.ofHost host) engine.limit engine.env prepared.2.machine).1 with
  | ok v =>
    rw [outcome] at ends
    exact ends
  | error e =>
    rw [outcome] at ends
    exact ends

/-- The tree of `let f = op ! [op +] in [f, fst []]`, in which `f` has captured a vector. -/
def emptied : Expr Position :=
  .letIn ⟨"s", 1, 1, 0⟩ "f"
    (.apply ⟨"s", 1, 14, 13⟩ (.var ⟨"s", 1, 9, 8⟩ "!")
      (.vector ⟨"s", 1, 14, 13⟩ [.var ⟨"s", 1, 15, 14⟩ "+"]))
    (.vector ⟨"s", 1, 24, 23⟩ [.var ⟨"s", 1, 25, 24⟩ "f",
      .apply ⟨"s", 1, 32, 31⟩ (.var ⟨"s", 1, 28, 27⟩ "fst") (.vector ⟨"s", 1, 32, 31⟩ [])])

theorem run_predefined_emptied :
    let engine := Engine.new false 4 []
    let (n, s) := engine.prepare (.initial ()) emptied
    (engine.run .alone s n).1 = .error (.runtime ⟨[⟨"s", 1, 32, 31⟩], .emptyVector⟩) ∧
      ∃ m ∈ Expr.preorder n, [⟨"s", 1, 32, 31⟩] = [Node.position m] := by
  have parsed : parseWithin 3 "s" "let f = op ! [op +] in [f, fst []]" = .ok emptied := by
    with_unfolding_all rfl
  have faithful := Session.build_faithful Caller.alone_answers () emptied 4 .prelude
  have meant : Node.meaning .alone ((Session.initial ()).build emptied).1 Env.prelude.lookup? =
      .error ⟨[⟨"s", 1, 32, 31⟩], .emptyVector⟩ := by
    with_unfolding_all rfl
  let prepared := (new false 4 []).prepare (.initial ()) emptied
  have failed : ((new false 4 []).run .alone prepared.2 prepared.1).1 =
      .error (.runtime ⟨[⟨"s", 1, 32, 31⟩], .emptyVector⟩) :=
    (run_outcome _ _ _ _).trans (congrArg _ ((faithful.exact (by decide)).trans meant))
  have predefined := run_predefined (fun _ _ _ world => (.error (.host ""), world)) () false 4 parsed
  refine ⟨failed, ?_⟩
  rw [Caller.alone] at failed
  simp only [prepared, failed] at predefined
  exact predefined.2

end Engine

end Formula
