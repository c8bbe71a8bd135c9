import Formula.Proofs.Labels
import Formula.Proofs.Memoised
import Formula.Proofs.Printable
import Formula.Proofs.Sharing

/-! Evaluation of shared trees. A tree without `let`s has one scope, so that a node of it means the same
wherever it stands, and what nodes keep is right although they stand in many places. Main statement:
a tree that was read and then optimised has the values that it has when it is evaluated as it is. -/
namespace Formula

section Printable

variable {α : Type}

theorem Expr.Printable.inline {e : Expr α} (printable : e.Printable)
    {scope : List (String × Expr α)} (bound : ∀ p ∈ scope, p.2.Printable) :
    (e.inline scope).Printable := by
  induction printable generalizing scope with
  | number unsigned => exact .number unsigned
  | @vector t es elems ih =>
    have each : ∀ e ∈ inlineAll scope es, e.Printable := by
      clear elems
      induction es with
      | nil => exact fun _ member => by contradiction
      | cons e es rest =>
        exact List.forall_mem_cons.2 ⟨ih e List.mem_cons_self bound,
          rest fun c member => ih c (List.mem_cons_of_mem _ member)⟩
    exact .vector each
  | @var t x named =>
    unfold Expr.inline
    cases found : scope.lookup x with
    | none => exact .var named
    | some b =>
      obtain ⟨before, after, rfl, _⟩ := List.lookup_eq_some_iff.1 found
      exact bound (x, b) (by simp)
  | apply func arg ihf ihx => exact .apply (ihf bound) (ihx bound)
  | letIn named value body ihb ihe => exact ihe (List.forall_mem_cons.2 ⟨ihb bound, bound⟩)

theorem Expr.Printable.child {c e : Expr α} (printable : e.Printable) (child : c ∈ e.children) :
    c.Printable := by
  cases printable with
  | number | var => contradiction
  | vector elems => exact elems c child
  | apply func arg =>
    rcases List.mem_cons.1 child with rfl | last
    · exact func
    · exact List.mem_singleton.1 last ▸ arg
  | letIn named bound body =>
    rcases List.mem_cons.1 child with rfl | last
    · exact bound
    · exact List.mem_singleton.1 last ▸ body

theorem Expr.Printable.of_mem {m e : Expr α} (printable : e.Printable) (below : m ∈ e.preorder) :
    m.Printable := by
  induction e using Expr.induct_children with
  | node e ih =>
    rcases Expr.mem_preorder.1 below with rfl | ⟨c, child, below⟩
    · exact printable
    · exact ih c child (printable.child child) below

end Printable

namespace Node

variable {f : Functions} {outside names : Names}

theorem occurrencesAll_eq_flatMap (ns : List Node) :
    occurrencesAll f ns names = ns.flatMap fun n => n.occurrences f names := by
  induction ns with
  | nil => rfl
  | cons n ns ih => rw [occurrencesAll, ih, List.flatMap_cons]

theorem node_of_occurrence {n : Node} {o : Occurrence} (member : o ∈ n.occurrences f names) :
    o.node ∈ Expr.preorder n :=
  (occurrences_sublist n names).subset (List.mem_map_of_mem member)

theorem node_of_occurrenceAll {ns : List Node} {o : Occurrence}
    (member : o ∈ occurrencesAll f ns names) : o.node ∈ Expr.preorderAll ns := by
  rw [occurrencesAll_eq_flatMap] at member
  obtain ⟨n, elem, here⟩ := List.mem_flatMap.1 member
  rw [Expr.preorderAll_eq_flatMap]
  exact List.mem_flatMap.2 ⟨n, elem, node_of_occurrence here⟩

/-- In a tree in which no node stands twice, a leaf means where it occurs what it means outside. -/
theorem leaf_means {n : Node} {bound : List String} {o : Occurrence}
    (once : (Expr.preorder n).Nodup) (free : ∀ x, x ∉ bound → names x = outside x)
    (member : o ∈ n.occurrences f names) (leaf : o.node ∈ Expr.leaves bound n) :
    o.meaning f = o.node.meaning f outside := by
  -- A node below one child is below no other, so the leaf is one of the child that it occurs in.
  induction n using Expr.induct generalizing names bound with
  | literal t w => cases List.mem_singleton.1 member; rfl
  | vector t es ih =>
    obtain ⟨fresh, parts⟩ := List.nodup_cons.1 once
    have below : o.node ∈ Expr.leavesAll bound es := leaf
    rcases List.mem_cons.1 member with rfl | here
    · exact absurd (Expr.leavesAll_subset bound es below) fresh
    · clear once leaf member fresh
      induction es with
      | nil => contradiction
      | cons e es rest =>
        obtain ⟨head, tail, apart⟩ := List.nodup_append'.1 parts
        rcases List.mem_append.1 here with here | later
        · have inside := (List.mem_append.1 below).resolve_right fun there =>
            apart (node_of_occurrence here) (Expr.leavesAll_subset bound es there)
          exact ih e List.mem_cons_self head free here inside
        · have inside := (List.mem_append.1 below).resolve_left fun there =>
            apart (Expr.leaves_subset bound e there) (node_of_occurrenceAll later)
          exact rest (fun c member => ih c (List.mem_cons_of_mem _ member)) tail inside later
  | var t x =>
    cases List.mem_singleton.1 member
    rw [Expr.leaves] at leaf
    split at leaf
    · contradiction
    · next unbound => simp [Occurrence.meaning, Node.meaning, Expr.meaning, free x unbound]
  | apply t g x ihg ihx =>
    obtain ⟨fresh, parts⟩ := List.nodup_cons.1 once
    obtain ⟨func, arg, apart⟩ := List.nodup_append'.1 parts
    rcases List.mem_cons.1 member with rfl | below
    · exact absurd (List.mem_append.2 ((List.mem_append.1 leaf).imp
        (fun here => Expr.leaves_subset bound g here)
        (fun here => Expr.leaves_subset bound x here))) fresh
    · rcases List.mem_append.1 below with here | here
      · have inside := (List.mem_append.1 leaf).resolve_right fun there =>
          apart (node_of_occurrence here) (Expr.leaves_subset bound x there)
        exact ihg func free here inside
      · have inside := (List.mem_append.1 leaf).resolve_left fun there =>
          apart (Expr.leaves_subset bound g there) (node_of_occurrence here)
        exact ihx arg free here inside
  | letIn t x b e ihb ihe =>
    obtain ⟨fresh, parts⟩ := List.nodup_cons.1 once
    obtain ⟨value, body, apart⟩ := List.nodup_append'.1 parts
    rcases List.mem_cons.1 member with rfl | below
    · exact absurd (List.mem_append.2 ((List.mem_append.1 leaf).imp
        (fun here => Expr.leaves_subset bound b here)
        (fun here => Expr.leaves_subset (x :: bound) e here))) fresh
    · rcases List.mem_append.1 below with here | here
      · have inside := (List.mem_append.1 leaf).resolve_right fun there =>
          apart (node_of_occurrence here) (Expr.leaves_subset (x :: bound) e there)
        exact ihb value free here inside
      · cases meant : Node.meaning f b names with
        | error => simp [meant] at here
        | ok w =>
          rw [meant] at here
          have inside := (List.mem_append.1 leaf).resolve_left fun there =>
            apart (Expr.leaves_subset bound b there) (node_of_occurrence here)
          have freeInside : ∀ y, y ∉ x :: bound → names.bind x w y = outside y := by
            intro y unbound
            rw [List.mem_cons, not_or] at unbound
            rw [Names.bind, if_neg unbound.1, free y unbound.2]
          exact ihe body freeInside here inside

theorem names_of_inlined {n : Node} (inlined : ∀ k ∈ Expr.preorder n, Expr.isLet k = false)
    {o : Occurrence} (member : o ∈ n.occurrences f names) : o.names = names := by
  induction n using Expr.induct_children with
  | node n ih =>
    have below {c : Node} (child : c ∈ Expr.children n) (here : o ∈ c.occurrences f names) :
        o.names = names :=
      ih c child (fun k deeper => inlined k (Expr.preorder_subset_of_child child deeper)) here
    cases n with
    | literal | var => cases List.mem_singleton.1 member; rfl
    | vector t es =>
      rcases List.mem_cons.1 member with rfl | rest
      · rfl
      · rw [occurrencesAll_eq_flatMap] at rest
        obtain ⟨c, child, here⟩ := List.mem_flatMap.1 rest
        exact below child here
    | apply t g x =>
      rcases List.mem_cons.1 member with rfl | rest
      · rfl
      · rcases List.mem_append.1 rest with here | here
        · exact below List.mem_cons_self here
        · exact below (List.mem_cons_of_mem _ (List.mem_singleton.2 rfl)) here
    | letIn t x b e =>
      have bound := inlined _ (Expr.mem_preorder_self _)
      contradiction

end Node

namespace Register.Shared

variable {f : Functions} {r : Register} {pool : List Node} {m : Node}

theorem preorder_subset (shared : r.Shared pool) (member : m ∈ r.nodes) :
    Expr.preorder m ⊆ r.nodes :=
  Expr.preorder_subset_of_closed shared.children member

/-- The nodes of a register mean the same wherever they occur below one of them. -/
theorem settled (shared : r.Shared pool) (member : m ∈ r.nodes) (names : Names) :
    Settled f (m.occurrences f names) := by
  have seen := shared.preorder_subset member
  have inlined := fun k below => shared.inlined k (seen below)
  intro o first p second identity
  have sameNode : o.node = p.node := shared.coherent _
    (List.mem_append_right _ (seen (Node.node_of_occurrence first))) _
    (List.mem_append_right _ (seen (Node.node_of_occurrence second))) identity
  have sameNames : o.names = p.names :=
    (Node.names_of_inlined inlined first).trans (Node.names_of_inlined inlined second).symm
  rw [Occurrence.meaning, Occurrence.meaning, sameNode, sameNames]

theorem empty {next : Nat} (coherent : Coherent pool) (fresh : ∀ n ∈ pool, Node.identity n < next) :
    (Register.empty next).Shared pool where
  children := fun _ member => by contradiction
  inlined := fun _ member => by contradiction
  distinct := .nil
  coherent := (List.append_nil pool).symm ▸ coherent
  fresh := (List.append_nil pool).symm ▸ fresh

theorem printable (shared : r.Shared pool) {next : Nat} {n : Node} (source : Expr.Printable n)
    (keeps : (Register.empty next).Keeps (Expr.leaves [] n) r) (member : m ∈ r.nodes) :
    Expr.Printable m := by
  induction m using Expr.induct_children with
  | node m ih =>
    have below : ∀ c ∈ Expr.children m, Expr.Printable c := fun c child =>
      ih c child (shared.children m member c child)
    have leaf (isLeaf : Expr.isLeaf m = true) : Expr.Printable m := by
      rcases keeps.origin m member with old | leaf | ⟨_, branch⟩
      · contradiction
      · exact source.of_mem (Expr.leaves_subset [] n leaf)
      · simp [isLeaf] at branch
    cases m with
    | literal | var => exact leaf rfl
    | vector t es => exact .vector below
    | apply t g x =>
      exact .apply (below g List.mem_cons_self)
        (below x (List.mem_cons_of_mem _ (List.mem_singleton.2 rfl)))
    | letIn t x b e =>
      have bound := shared.inlined _ member
      contradiction

end Register.Shared

namespace Session

variable {σ : Type} (s : Session σ) (tree : Expr Position)

/-- A tree built and shared in a session: its nodes are nodes of their own, and the result is a node
of a register that keeps no more of them than leaves. -/
structure Optimised (n : Node) (next : Nat) (result : Node × Register) : Prop where
  once : ((Expr.preorder n).map Node.identity).Nodup
  older : ∀ k ∈ Expr.preorder n, Node.identity k < next
  shares : Shares (Expr.preorder n) (.empty next) (Expr.inline [] n) result
  keeps : (Register.empty next).Keeps (Expr.leaves [] n) result.2

theorem optimised : Optimised (s.build tree).1 (s.build tree).2.next
    ((s.build tree).1.optimise [] (.empty (s.build tree).2.next)) := by
  have once := Node.label_once tree s.next
  have older := fun k (member : k ∈ Expr.preorder (s.build tree).1) =>
    (Node.identity_of_label member).2
  exact ⟨once, older, Node.optimise_shares _ _ [] [] (.empty (Forest.of_once once).coherent older)
    (fun _ member => by contradiction) .nil (List.Subset.refl _), Node.optimise_keeps _ [] _⟩

theorem map_build : Expr.map Tag.position (s.build tree).1 = tree := (Node.labelled tree s.next).mapped

theorem printable_build {tree : Expr Position} (printable : tree.Printable) :
    Expr.Printable (s.build tree).1 :=
  Expr.printable_map.1 ((s.map_build tree).symm ▸ printable)

end Session

namespace Session.Optimised

variable {f : Functions} {n : Node} {next : Nat} {result : Node × Register} {names : Names}
  {v : Value}

theorem meaning (optimised : Optimised n next result) (printable : Expr.Printable n)
    (value : n.meaning f names = .ok v) : result.1.meaning f names = .ok v := by
  have shares := optimised.shares
  have inlined : (Expr.inline [] n).Printable := printable.inline fun _ member => by contradiction
  exact Expr.meaning_same (fun _ _ _ _ => id) inlined
    (shares.shared.printable printable optimised.keeps shares.member)
    (Expr.same_symm shares.alike) (Expr.meaning_inline .nil value)

theorem agrees (optimised : Optimised n next result) {memo : Memo}
    (grown : Memo.Grows f ∅ memo (n.occurrences f names)) :
    memo.Agrees f (result.1.occurrences f names) := by
  intro o member w kept
  have shared := optimised.shares.shared
  have seen := shared.preorder_subset optimised.shares.member
  have node := seen (Node.node_of_occurrence member)
  have scope : o.names = names := Node.names_of_inlined
    (fun k below => shared.inlined k (seen below)) member
  rcases grown _ w kept with old | ⟨p, occurs, identity, meant⟩
  · simp at old
  have used := Node.node_of_occurrence occurs
  have same : p.node = o.node := shared.coherent _ (List.mem_append_left _ used) _
    (List.mem_append_right _ node) identity
  rcases optimised.keeps.origin o.node node with old | leaf | ⟨new, _⟩
  · contradiction
  · have means := Node.leaf_means (.of_map _ optimised.once) (fun _ _ => rfl) occurs (same ▸ leaf)
    rw [Occurrence.meaning, scope, ← same, ← means, meant]
  · have older := optimised.older p.node used
    rw [same] at older
    exact absurd new (Nat.not_le_of_lt older)

/-- The shared tree is evaluated faithfully, whatever right values its nodes keep already. -/
theorem faithful {σ : Type} {call : Caller σ} (pure : call.Answers f)
    (optimised : Optimised n next result) {env : Env} {s : Machine σ}
    (agrees : s.memo.Agrees f (result.1.occurrences f env.lookup?)) (limit : Nat) :
    Faithful f limit (result.1.occurrences f env.lookup?) (Expr.height result.1)
      (result.1.meaning f env.lookup?) s (result.1.eval call limit env s) :=
  Node.eval_faithful pure (optimised.shares.shared.settled optimised.shares.member env.lookup?) _
    env s (List.Subset.refl _) agrees

/-- Where the shared tree has a value, evaluation within its height finds it, whatever right values
its nodes keep already. -/
theorem eval {σ : Type} {call : Caller σ} (pure : call.Answers f)
    (optimised : Optimised n next result) {env : Env} {s : Machine σ} {limit : Nat}
    (value : result.1.meaning f env.lookup? = .ok v)
    (agrees : s.memo.Agrees f (result.1.occurrences f env.lookup?))
    (ground : s.depth = 0) (room : Expr.height result.1 ≤ limit) :
    (result.1.eval call limit env s).1 = .ok v := by
  rw [← value]
  exact (optimised.faithful pure agrees limit).exact (by omega)

end Session.Optimised

/-- In a new session a tree that was built is evaluated faithfully: no node of it stands twice, and none
has a value. -/
theorem Session.build_faithful {σ : Type} {call : Caller σ} {f : Functions} (pure : call.Answers f)
    (world : σ) (tree : Expr Position) (limit : Nat) (env : Env) :
    Faithful f limit (((initial world).build tree).1.occurrences f env.lookup?)
      (Expr.height ((initial world).build tree).1)
      (((initial world).build tree).1.meaning f env.lookup?) ((initial world).build tree).2.machine
      (((initial world).build tree).1.eval call limit env ((initial world).build tree).2.machine) :=
  Node.eval_once_faithful pure env limit ((initial world).optimised tree).once
    fun _ _ => Std.HashMap.getElem?_empty

/-- Optimising preserves values: if a tree that was parsed has a value, then so has the optimised tree
in every limit that its height keeps to, and it is the same value, whether the tree has been
evaluated before, so that some of its nodes keep values already, or not. -/
theorem Session.eval_optimise {σ : Type} (call : Caller σ) (f : Functions) (pure : call.Answers f)
    (env : Env) (world : σ) {depth limit : Nat} {source text : String} {tree : Expr Position}
    (parsed : parseWithin depth source text = .ok tree) {v : Value}
    (value : (((initial world).build tree).2.eval call limit ((initial world).build tree).1 env).1 =
      .ok v) :
    let (n, built) := (initial world).build tree
    let (_, evaluated) := built.eval call limit n env
    ∀ s ∈ [built, evaluated],
      let (m, _, shared) := s.optimise n
      ∀ limit', Expr.height m ≤ limit' → (shared.eval call limit' m env).1 = .ok v := by
  have optimised := (initial world).optimised tree
  have printable := (initial world).printable_build (parseWithin_printable parsed)
  have run := build_faithful pure world tree limit env
  have meant := run.sound v value
  have means := optimised.meaning printable meant
  intro s member limit' room
  rcases List.mem_cons.1 member with rfl | rest
  · exact optimised.eval pure means (optimised.agrees (.refl _ _)) rfl room
  · cases List.mem_singleton.1 rest
    exact optimised.eval pure means (optimised.agrees run.grows) run.depth room

/-- The tree of `let x = y in let y = [x] in [y, x]`, in which the outer `y` is free. -/
def capturable : Expr Position :=
  .letIn ⟨"s", 1, 1, 0⟩ "x" (.var ⟨"s", 1, 9, 8⟩ "y")
    (.letIn ⟨"s", 1, 14, 13⟩ "y" (.vector ⟨"s", 1, 22, 21⟩ [.var ⟨"s", 1, 23, 22⟩ "x"])
      (.vector ⟨"s", 1, 29, 28⟩ [.var ⟨"s", 1, 30, 29⟩ "y", .var ⟨"s", 1, 33, 32⟩ "x"]))

theorem Session.eval_optimise_capturable :
    let (n, built) := (initial ()).build capturable
    let (m, _, shared) := built.optimise n
    (shared.eval Node.giveBack 3 m (Env.empty.register "y" (.bool true))).1 =
      .ok (.vector [.vector [.bool true], .bool true]) := by
  have parsed : parseWithin 3 "s" "let x = y in let y = [x] in [y, x]" = .ok capturable := by
    with_unfolding_all rfl
  have run := build_faithful Node.giveBack_answers () capturable 4 (Env.empty.register "y" (.bool true))
  exact eval_optimise _ _ Node.giveBack_answers _ () parsed ((run.exact (by decide)).trans rfl) _
    List.mem_cons_self 3 (by decide)

end Formula
