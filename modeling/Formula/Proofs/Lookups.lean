import Formula.Proofs.Workspace

/-! Nodes that a host looks up itself. The register compares the children of nodes by identity alone, and
that decides whether the nodes are equal, as every lookup before has kept equal nodes one node. Main
statement: in whatever context a host has come to, looking a node up shallowly is looking it up in
depth. -/
namespace Formula

namespace Register

variable {pool : List Node} {r : Register} {n : Node}

/-- As `seek`, but nodes are compared in depth. -/
def seekDeep (r : Register) (n : Node) : Node × Register :=
  match r.seen.find? (Expr.same · n) with
  | some found => (found, r)
  | none => (n, { r with seen := r.seen.push n })

theorem seek_eq_seekDeep (shared : r.Shared pool) (children : ∀ c ∈ Expr.children n, c ∈ r.nodes)
    (inlined : Expr.isLet n = false) : r.seek n = r.seekDeep n := by
  have same : r.seen.find? (Node.sameShape · n) = r.seen.find? (Expr.same · n) := by
    rw [← Array.find?_toList, ← Array.find?_toList]
    exact List.find?_congr fun m seen =>
      Bool.eq_iff_iff.2 (shared.sameShape_iff seen children inlined)
  rw [seek, seekDeep, same]
  rfl

/-- The first equal node is given back, and the register is left alone, or there is none, and the node is
registered behind all others. -/
theorem seekDeep_cases (r : Register) (n : Node) :
    (∃ before m after, r.nodes = before ++ m :: after ∧ (∀ k ∈ before, Expr.same k n = false) ∧
        Expr.same m n = true ∧ r.seekDeep n = (m, r)) ∨
      ((∀ k ∈ r.nodes, Expr.same k n = false) ∧
        r.seekDeep n = (n, { r with seen := r.seen.push n })) := by
  unfold seekDeep
  rw [← Array.find?_toList]
  split
  · next m found =>
    obtain ⟨alike, before, after, whole, others⟩ := List.find?_eq_some_iff_append.1 found
    exact .inl ⟨before, m, after, whole, fun k early => by simpa using others k early, alike, rfl⟩
  · next unknown =>
    exact .inr ⟨fun k member => Bool.eq_false_iff.2 (List.find?_eq_none.1 unknown k member), rfl⟩

end Register

namespace Workspace

variable {σ : Type} {call : Caller σ} {w w' : Workspace σ} {n : Node}

/-- Looks a node up in the open context. -/
def seek (w : Workspace σ) (n : Node) : Workspace σ :=
  let (m, r) := w.register.seek n
  ⟨{ w.session with next := r.next }, w.nodes ++ Expr.preorder m, r.seen, m :: w.results⟩

/-- One act of a host that also looks up nodes itself: nodes at hand that are no `let`s, and whose children
are results of earlier calls in the same context. -/
inductive Move (call : Caller σ) (w : Workspace σ) : Workspace σ → Prop
  | act {w' : Workspace σ} (step : Step call w w') : Move call w w'
  | seek (n : Node) (atHand : n ∈ w.nodes) (inlined : Expr.isLet n = false)
      (children : ∀ c ∈ Expr.children n, c ∈ w.results) : Move call w (w.seek n)

/-- Whether such a host may come from one workspace to another. -/
def Arrives (call : Caller σ) : Workspace σ → Workspace σ → Prop :=
  Relation.ReflTransGen (Move call)

namespace WellFormed

theorem seek (wf : w.WellFormed) (atHand : n ∈ w.nodes) (inlined : Expr.isLet n = false)
    (children : ∀ c ∈ Expr.children n, c ∈ w.results) : (w.seek n).WellFormed := by
  have used : n ∈ w.nodes ++ w.register.nodes := List.mem_append_left _ atHand
  exact wf.of_shares (Register.seek_shares wf.shared
    (fun c child => wf.results c (children c child)) inlined
    (fun m member => wf.shared.coherent m member n used) (wf.shared.fresh n used))

theorem move (wf : w.WellFormed) (move : Move call w w') : w'.WellFormed := by
  cases move with
  | act step => exact wf.step step
  | seek n atHand inlined children => exact wf.seek atHand inlined children

end WellFormed

theorem Arrives.wellFormed {world : σ} (arrives : (initial world).Arrives call w) : w.WellFormed := by
  induction arrives with
  | refl => exact wellFormed_initial world
  | tail _ move wf => exact wf.move move

/-- The shallow lookup is the deep one. In whatever context a host has come to by lookups of nodes that are
no `let`s and whose children are results of earlier lookups, such a node is looked up as if nodes were
compared in depth: the first registered node that is equal to it is given back and the context stays as
it is, or no registered node is equal to it, and it is registered and given back itself. -/
theorem seek_compares_in_depth (call : Caller σ) (world : σ)
    (arrives : (initial world).Arrives call w) (inlined : Expr.isLet n = false)
    (children : ∀ c ∈ Expr.children n, c ∈ w.results) :
    w.register.seek n = w.register.seekDeep n ∧
      ((∃ before m after, w.seen.toList = before ++ m :: after ∧
          (∀ k ∈ before, Expr.same k n = false) ∧ Expr.same m n = true ∧
          w.register.seek n = (m, w.register)) ∨
        ((∀ k ∈ w.seen.toList, Expr.same k n = false) ∧
          w.register.seek n = (n, { w.register with seen := w.seen.push n }))) := by
  have wf := arrives.wellFormed
  have deep := Register.seek_eq_seekDeep wf.shared
    (fun c child => wf.results c (children c child)) inlined
  rw [deep]
  exact ⟨rfl, w.register.seekDeep_cases n⟩

namespace Lookups

def zero : Node := .literal ⟨0, .unknown⟩ (.number 0)

/-- A literal of the negative zero, which stands elsewhere. -/
def later : Node := .literal ⟨1, ⟨"later", 2, 1, 4⟩⟩ (.number (-0))

def nan : Node := .literal ⟨2, .unknown⟩ (.number (0 / 0))

/-- The application of the first zero to NaN. -/
def first : Node := .apply ⟨3, .unknown⟩ zero nan

def again : Node := .apply ⟨4, ⟨"later", 2, 1, 4⟩⟩ zero nan

def built : Workspace Unit :=
  (((initial ()).build (Expr.map Tag.position zero)).build (Expr.map Tag.position later)).build
    (Expr.map Tag.position nan)

/-- The literals have been looked up, and then the first application. -/
def workspace : Workspace Unit :=
  ((((((built.seek zero).seek later).seek nan).join .unknown (.apply · zero nan)).seek first).join
    ⟨"later", 2, 1, 4⟩ (.apply · zero nan))

theorem results_workspace : workspace.results = [first, nan, zero, zero] := rfl

theorem arrives (call : Caller Unit) : (initial ()).Arrives call workspace := by
  have literal {w : Workspace Unit} {t : Tag} {v : Value} :
      ∀ c ∈ Expr.children (.literal t v), c ∈ w.results := fun _ member => by contradiction
  have start : (initial ()).Arrives call built :=
    .tail (.tail (.single (.act (.build _))) (.act (.build _))) (.act (.build _))
  have literals : (initial ()).Arrives call (((built.seek zero).seek later).seek nan) := by
    refine .tail (.tail (.tail start (.seek zero ?_ rfl literal)) (.seek later ?_ rfl literal))
      (.seek nan ?_ rfl literal)
    · show zero ∈ [zero, later, nan]
      simp
    · show later ∈ [zero, later, nan, zero]
      simp
    · show nan ∈ [zero, later, nan, zero, zero]
      simp
  refine .tail (.tail (.tail literals (.act (.join _ _ (fun _ => rfl) fun _ => ?_)))
    (.seek first ?_ rfl ?_)) (.act (.join _ _ (fun _ => rfl) fun _ => ?_))
  · show ∀ c ∈ [zero, nan], c ∈ [zero, later, nan, zero, zero, nan]
    simp
  · show first ∈ [zero, later, nan, zero, zero, nan, first]
    simp
  · show ∀ c ∈ [zero, nan], c ∈ [nan, zero, zero]
    simp
  · show ∀ c ∈ [zero, nan], c ∈ [zero, later, nan, zero, zero, nan, first, first, zero, nan]
    simp

end Lookups

/-- The negative zero was answered with the zero, and the second application is with the first. -/
theorem seek_compares_in_depth_again :
    Lookups.workspace.seen.toList = [Lookups.zero, Lookups.nan, Lookups.first] ∧
      Expr.same Lookups.first Lookups.again = true ∧
      Lookups.workspace.register.seek Lookups.again = (Lookups.first, Lookups.workspace.register) := by
  have results : ∀ c ∈ Expr.children Lookups.again, c ∈ Lookups.workspace.results := by
    rw [Lookups.results_workspace]
    simp [Lookups.again, Expr.children]
  have alike : Expr.same Lookups.first Lookups.again = true :=
    Bool.and_eq_true_iff.2 ⟨Expr.same_refl _, Expr.same_refl _⟩
  obtain ⟨deep, _⟩ := seek_compares_in_depth Node.giveBack () (Lookups.arrives _)
    (n := Lookups.again) rfl results
  exact ⟨rfl, alike, deep.trans rfl⟩

end Workspace

end Formula
