import Formula.Proofs.Optimised
import Formula.Proofs.Substitution

/-! What the host of a session may do with nodes, in any order: read trees, put a new node above nodes
that are in use elsewhere too, optimise, share trees in a context that stays open, and evaluate. What
holds of the nodes at hand and of the nodes registered in the context is kept by every act. Main
statements: optimising is inlining every `let`, and what is shared in one context is shared as far
as it can be. -/
namespace Formula

/-- A session, the nodes that its host has at hand, and the context that is open: the nodes registered
in it, and what the calls made in it have given. -/
structure Workspace (σ : Type) where
  session : Session σ
  nodes : List Node
  seen : Array Node
  results : List Node

namespace Workspace

variable {σ : Type}

def initial (world : σ) : Workspace σ := ⟨.initial world, [], #[], []⟩

/-- The register of the open context. -/
def register (w : Workspace σ) : Register := ⟨w.seen, w.session.next⟩

/-- Takes the nodes of a tree that was read. -/
def build (w : Workspace σ) (tree : Expr Position) : Workspace σ :=
  let (n, s) := w.session.build tree
  { w with session := s, nodes := w.nodes ++ Expr.preorder n }

/-- Makes one new node. -/
def join (w : Workspace σ) (p : Position) (node : Tag → Node) : Workspace σ :=
  let (t, s) := w.session.tag p
  { w with session := s, nodes := w.nodes ++ [node t] }

/-- Optimises a tree in a context of its own. -/
def optimise (w : Workspace σ) (n : Node) : Workspace σ :=
  let (m, _, s) := w.session.optimise n
  { w with session := s, nodes := w.nodes ++ Expr.preorder m }

/-- Leaves the open context for a new one. -/
def openContext (w : Workspace σ) : Workspace σ := { w with seen := #[], results := [] }

/-- Optimises a tree in the open context, where names may stand for nodes. -/
def share (w : Workspace σ) (scope : Scope) (n : Node) : Workspace σ :=
  let (m, r) := n.optimise scope w.register
  ⟨{ w.session with next := r.next }, w.nodes ++ Expr.preorder m, r.seen, m :: w.results⟩

def eval (call : Caller σ) (w : Workspace σ) (limit : Nat) (n : Node) (env : Env) : Workspace σ :=
  { w with session := (w.session.eval call limit n env).2 }

/-- One act of the host. A new node stands above nodes at hand, only trees at hand are optimised or
evaluated, and names stand for results of earlier calls in the same context. -/
inductive Step (call : Caller σ) (w : Workspace σ) : Workspace σ → Prop
  | build (tree : Expr Position) : Step call w (w.build tree)
  | join (p : Position) (node : Tag → Node) (tagged : ∀ t, Expr.tag (node t) = t)
      (children : ∀ t, ∀ c ∈ Expr.children (node t), c ∈ w.nodes) : Step call w (w.join p node)
  | optimise (n : Node) (atHand : n ∈ w.nodes) : Step call w (w.optimise n)
  | openContext : Step call w w.openContext
  | share (scope : Scope) (n : Node) (bound : ∀ p ∈ scope, p.2 ∈ w.results) (atHand : n ∈ w.nodes) :
      Step call w (w.share scope n)
  | eval (limit : Nat) (n : Node) (env : Env) (atHand : n ∈ w.nodes) :
      Step call w (w.eval call limit n env)

/-- Whether a host may come from one workspace to another. -/
def Reaches (call : Caller σ) : Workspace σ → Workspace σ → Prop := Relation.ReflTransGen (Step call)

/-- What every act keeps: what lies below a node at hand is at hand, one identity is one node, and
the open context is as calls leave it. -/
structure WellFormed (w : Workspace σ) : Prop where
  children : ∀ n ∈ w.nodes, ∀ c ∈ Expr.children n, c ∈ w.nodes
  shared : w.register.Shared w.nodes
  results : ∀ m ∈ w.results, m ∈ w.register.nodes

theorem wellFormed_initial (world : σ) : (initial world).WellFormed where
  children := fun _ member => by contradiction
  shared := .empty (fun _ member => by contradiction) (fun _ member => by contradiction)
  results := fun _ member => by contradiction

namespace WellFormed

variable {w : Workspace σ}

theorem forest (wf : w.WellFormed) : Forest w.nodes where
  children := wf.children
  coherent := wf.shared.coherent.mono (List.subset_append_left _ _)

theorem grow (wf : w.WellFormed) {s : Session σ} {ns : List Node}
    (children : ∀ n ∈ ns, ∀ c ∈ Expr.children n, c ∈ w.nodes ++ ns)
    (coherent : Coherent ((w.nodes ++ w.register.nodes) ++ ns))
    (fresh : ∀ n ∈ (w.nodes ++ w.register.nodes) ++ ns, Node.identity n < s.next) :
    WellFormed { w with session := s, nodes := w.nodes ++ ns } where
  children := by
    intro n member c child
    rcases List.mem_append.1 member with old | new
    · exact List.mem_append_left _ (wf.children n old c child)
    · exact children n new c child
  shared := by
    have part : (w.nodes ++ ns) ++ w.register.nodes ⊆ (w.nodes ++ w.register.nodes) ++ ns := by
      intro n member
      simp only [List.mem_append] at member ⊢
      tauto
    exact wf.shared.within (coherent.mono part) fun n member => fresh n (part member)
  results := wf.results

theorem add (wf : w.WellFormed) {s : Session σ} {ns : List Node}
    (children : ∀ n ∈ ns, ∀ c ∈ Expr.children n, c ∈ w.nodes ++ ns) (coherent : Coherent ns)
    (given : ∀ n ∈ ns, w.session.next ≤ Node.identity n ∧ Node.identity n < s.next)
    (later : w.session.next ≤ s.next) :
    WellFormed { w with session := s, nodes := w.nodes ++ ns } := by
  refine wf.grow children (wf.shared.coherent.append coherent wf.shared.fresh fun n new =>
    (given n new).1) fun n member => ?_
  rcases List.mem_append.1 member with old | new
  · exact Nat.lt_of_lt_of_le (wf.shared.fresh n old) later
  · exact (given n new).2

theorem build (wf : w.WellFormed) (tree : Expr Position) : (w.build tree).WellFormed := by
  have forest := Forest.of_once (Node.label_once tree w.session.next)
  refine wf.add (fun n member c child => List.mem_append_right _ (forest.children n member c child))
    forest.coherent (fun n => Node.identity_of_label) ?_
  exact (Node.labelled tree w.session.next).next ▸ Nat.le_add_right _ _

theorem join (wf : w.WellFormed) (p : Position) {node : Tag → Node}
    (tagged : ∀ t, Expr.tag (node t) = t)
    (children : ∀ t, ∀ c ∈ Expr.children (node t), c ∈ w.nodes) : (w.join p node).WellFormed := by
  refine wf.add ?_ ?_ ?_ (Nat.le_succ _)
  · exact List.forall_mem_singleton.2 fun c child => List.mem_append_left _ (children _ c child)
  · intro k first l second _
    exact (List.mem_singleton.1 first).trans (List.mem_singleton.1 second).symm
  · refine List.forall_mem_singleton.2 ?_
    rw [Node.identity, tagged]
    exact ⟨Nat.le_refl _, Nat.lt_succ_self _⟩

/-- Sharing a tree at hand, in whatever register, gives a node that is the same as the inlined tree. -/
theorem shares (wf : w.WellFormed) {n : Node} (atHand : n ∈ w.nodes) {pool : List Node}
    (part : w.nodes ⊆ pool) {r : Register} (shared : r.Shared pool) {scope : Scope}
    (bound : ∀ p ∈ scope, p.2 ∈ r.nodes) :
    Shares pool r (Expr.inline scope n) (n.optimise scope r) :=
  n.optimise_shares r scope scope shared bound (.refl scope)
    (List.Subset.trans (wf.forest.below atHand) part)

theorem shares_alone (wf : w.WellFormed) {n : Node} (atHand : n ∈ w.nodes) :
    Shares (w.nodes ++ w.register.nodes) (.empty w.session.next) (Expr.inline [] n)
      (n.optimise [] (.empty w.session.next)) :=
  wf.shares atHand (List.subset_append_left _ _) (.empty wf.shared.coherent wf.shared.fresh)
    fun _ member => by contradiction

theorem optimise (wf : w.WellFormed) {n : Node} (atHand : n ∈ w.nodes) :
    (w.optimise n).WellFormed := by
  have found := wf.shares_alone atHand
  have part := List.append_subset.2 ⟨List.subset_append_left _ _, List.subset_append_of_subset_right
    (w.nodes ++ w.register.nodes) (found.shared.preorder_subset found.member)⟩
  exact wf.grow (fun k member c child => List.mem_append_right _ (Expr.child_mem_preorder child member))
    (found.shared.coherent.mono part) fun k member => found.shared.fresh k (part member)

theorem openContext (wf : w.WellFormed) : w.openContext.WellFormed where
  children := wf.children
  shared := .empty wf.forest.coherent fun n member => wf.shared.fresh n (List.mem_append_left _ member)
  results := fun _ member => by contradiction

theorem of_shares (wf : w.WellFormed) {target : Node} {result : Node × Register}
    (found : Shares w.nodes w.register target result) :
    WellFormed ⟨{ w.session with next := result.2.next }, w.nodes ++ Expr.preorder result.1,
      result.2.seen, result.1 :: w.results⟩ := by
  have below := found.shared.preorder_subset found.member
  have part : (w.nodes ++ Expr.preorder result.1) ++ result.2.nodes ⊆ w.nodes ++ result.2.nodes := by
    intro k member
    simp only [List.mem_append] at member ⊢
    exact member.elim (Or.imp_right fun deeper => below deeper) .inr
  refine ⟨?_, found.shared.within (found.shared.coherent.mono part) fun k member =>
    found.shared.fresh k (part member), ?_⟩
  · intro k member c child
    rcases List.mem_append.1 member with old | new
    · exact List.mem_append_left _ (wf.children k old c child)
    · exact List.mem_append_right _ (Expr.child_mem_preorder child new)
  · exact List.forall_mem_cons.2 ⟨found.member, fun m member => found.grows (wf.results m member)⟩

theorem share (wf : w.WellFormed) {scope : Scope} {n : Node} (bound : ∀ p ∈ scope, p.2 ∈ w.results)
    (atHand : n ∈ w.nodes) : (w.share scope n).WellFormed :=
  wf.of_shares (wf.shares atHand (List.Subset.refl _) wf.shared fun p member =>
    wf.results p.2 (bound p member))

theorem step {call : Caller σ} {w' : Workspace σ} (wf : w.WellFormed) (act : Step call w w') :
    w'.WellFormed := by
  cases act with
  | build tree => exact wf.build tree
  | join p node tagged children => exact wf.join p tagged children
  | optimise n atHand => exact wf.optimise atHand
  | openContext => exact wf.openContext
  | share scope n bound atHand => exact wf.share bound atHand
  | eval limit n env atHand => exact ⟨wf.children, wf.shared, wf.results⟩

end WellFormed

theorem Reaches.wellFormed {call : Caller σ} {world : σ} {w : Workspace σ}
    (reached : (initial world).Reaches call w) : w.WellFormed := by
  induction reached with
  | refl => exact wellFormed_initial world
  | tail _ act wf => exact wf.step act

/-- Optimising is inlining: whatever a host has built, with nodes shared or not, the optimised tree has
no `let` and is the same as the tree in which every name bound by a `let` stands for the inlined
bound expression of its innermost `let`; and that is what the `let`s mean one by one, the innermost
replaced first, so that no name of a bound expression is captured in a body. -/
theorem optimise_same_inline (call : Caller σ) (world : σ) {w : Workspace σ}
    (reached : (initial world).Reaches call w) {n : Node} (atHand : n ∈ w.nodes) :
    let m := (w.session.optimise n).1
    (∀ k ∈ Expr.preorder m, Expr.isLet k = false) ∧ Expr.same m (Expr.inline [] n) = true ∧
      Expr.inline [] n = Expr.unfoldLets n := by
  have found := reached.wellFormed.shares_alone atHand
  have below := found.shared.preorder_subset found.member
  exact ⟨fun k member => found.shared.inlined k (below member), found.alike,
    Expr.inline_eq_unfoldLets n⟩

namespace Capturing

def y : Node := .var ⟨1, .unknown⟩ "y"

def x : Node := .var ⟨2, .unknown⟩ "x"

def body : Node := .vector ⟨0, .unknown⟩ [y, x]

def pair : Node := .vector ⟨3, .unknown⟩ [x, x]

def inner : Node := .letIn ⟨4, .unknown⟩ "y" pair body

/-- `let x = y in let y = [x, x] in [y, x]`, in which the free `y` and the `y` that the inner `let` binds
are one node. -/
def outer : Node := .letIn ⟨5, .unknown⟩ "x" y inner

def workspace : Workspace Unit :=
  ((((initial ()).build (.vector .unknown [.var .unknown "y", .var .unknown "x"])).join .unknown
    (.vector · [x, x])).join .unknown (.letIn · "y" pair body)).join .unknown (.letIn · "x" y inner)

theorem nodes_workspace : workspace.nodes = [body, y, x, pair, inner, outer] := rfl

theorem reached (call : Caller Unit) : (initial ()).Reaches call workspace := by
  refine .tail (.tail (.tail (.single (.build _))
    (.join _ (.vector · [x, x]) (fun _ => rfl) fun _ => ?_))
    (.join _ (.letIn · "y" pair body) (fun _ => rfl) fun _ => ?_))
    (.join _ (.letIn · "x" y inner) (fun _ => rfl) fun _ => ?_)
  · show ∀ c ∈ [x, x], c ∈ [body, y, x]
    simp
  · show ∀ c ∈ [pair, body], c ∈ [body, y, x, pair]
    simp
  · show ∀ c ∈ [y, inner], c ∈ [body, y, x, pair, inner]
    simp

end Capturing

theorem optimise_same_inline_capturing :
    Expr.same (Capturing.workspace.session.optimise Capturing.outer).1
      (.vector ⟨0, .unknown⟩ [.vector ⟨3, .unknown⟩ [Capturing.y, Capturing.y], Capturing.y]) = true := by
  have inlined := optimise_same_inline Node.giveBack () (Capturing.reached _) (n := Capturing.outer)
    (by simp [Capturing.nodes_workspace])
  exact inlined.2.1

/-- Sharing is maximal: of the results of all calls made in one context and in the contexts inside it,
two nodes that are equal are one node, every node is registered, and the registered nodes are all
different and without `let`s. -/
theorem shared_maximally (call : Caller σ) (world : σ) {w : Workspace σ}
    (reached : (initial world).Reaches call w) :
    (∀ k ∈ w.results.flatMap Expr.preorder, ∀ l ∈ w.results.flatMap Expr.preorder,
        Expr.same k l = true → k = l) ∧
      (∀ k ∈ w.results.flatMap Expr.preorder, k ∈ w.seen) ∧
      (w.seen.toList.Pairwise fun k l => Expr.same k l = false) ∧
      ∀ k ∈ w.seen, ∀ l ∈ Expr.preorder k, Expr.isLet l = false := by
  have wf := reached.wellFormed
  have registered : ∀ k ∈ w.results.flatMap Expr.preorder, k ∈ w.register.nodes := by
    intro k member
    obtain ⟨m, result, below⟩ := List.mem_flatMap.1 member
    exact wf.shared.preorder_subset (wf.results m result) below
  refine ⟨fun k first l second => wf.shared.unique (registered k first) (registered l second),
    fun k member => Array.mem_toList_iff.1 (registered k member), wf.shared.distinct, ?_⟩
  intro k member l below
  exact wf.shared.inlined l (wf.shared.preorder_subset (Array.mem_toList_iff.2 member) below)

namespace Repeating

def pair : Node := .vector ⟨0, .unknown⟩ [.var ⟨1, .unknown⟩ "a", .var ⟨2, .unknown⟩ "a"]

/-- `[x, [a, a]]`, in which `x` is going to stand for the result of sharing `[a, a]`. -/
def user : Node :=
  .vector ⟨3, .unknown⟩ [.var ⟨4, .unknown⟩ "x",
    .vector ⟨5, .unknown⟩ [.var ⟨6, .unknown⟩ "a", .var ⟨7, .unknown⟩ "a"]]

/-- The result of the first call, in which one node stands twice. -/
def first : Node := .vector ⟨8, .unknown⟩ [.var ⟨1, .unknown⟩ "a", .var ⟨1, .unknown⟩ "a"]

def workspace : Workspace Unit :=
  ((((initial ()).build (Expr.map Tag.position pair)).build (Expr.map Tag.position user)).share []
    pair).share [("x", first)] user

theorem reached (call : Caller Unit) : (initial ()).Reaches call workspace :=
  .tail (.tail (.tail (.single (.build _)) (.build _))
    (.share [] pair (fun _ member => by contradiction) List.mem_cons_self))
    (.share [("x", first)] user (List.forall_mem_singleton.2 List.mem_cons_self)
      (List.mem_append_left _ (List.mem_append_right _ List.mem_cons_self)))

end Repeating

/-- The result of the first call is still registered after the second one, and nothing else like it. -/
theorem shared_maximally_repeating :
    Repeating.first ∈ Repeating.workspace.seen ∧
      Repeating.workspace.seen.toList.Pairwise fun k l => Expr.same k l = false := by
  have maximal := shared_maximally Node.giveBack () (Repeating.reached _)
  refine ⟨maximal.2.1 _ (List.mem_flatMap.2 ⟨_, ?_, Expr.mem_preorder_self _⟩), maximal.2.2.1⟩
  exact List.mem_cons_of_mem _ List.mem_cons_self

end Workspace

end Formula
