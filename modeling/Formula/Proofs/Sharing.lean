import Formula.Proofs.Inlining
import Formula.Session

/-! The register of a pass. What it holds has its children in it too, is no `let`, and is different
from everything else in it, so that two of its nodes are equal exactly when they are one node, and
the shallow comparison finds what the deep one would. Main statement: sharing a tree gives a node of
the register that is the same as the inlined tree. -/
namespace Formula

/-- Nodes with one identity are one node. -/
def Coherent (ns : List Node) : Prop :=
  ∀ m ∈ ns, ∀ n ∈ ns, Node.identity m = Node.identity n → m = n

namespace Coherent

variable {ms ns : List Node}

theorem mono (coherent : Coherent ns) (part : ms ⊆ ns) : Coherent ms :=
  fun m first n second => coherent m (part first) n (part second)

theorem append (first : Coherent ms) (second : Coherent ns) {next : Nat}
    (old : ∀ m ∈ ms, Node.identity m < next) (new : ∀ n ∈ ns, next ≤ Node.identity n) :
    Coherent (ms ++ ns) := by
  intro m memberM n memberN same
  rcases List.mem_append.1 memberM with oldM | newM <;>
    rcases List.mem_append.1 memberN with oldN | newN
  · exact first m oldM n oldN same
  · have := old m oldM
    have := new n newN
    omega
  · have := old n oldN
    have := new m newM
    omega
  · exact second m newM n newN same

end Coherent

/-- Nodes with all the nodes below them, where one identity is one node. -/
structure Forest (nodes : List Node) : Prop where
  children : ∀ n ∈ nodes, ∀ c ∈ Expr.children n, c ∈ nodes
  coherent : Coherent nodes

namespace Forest

variable {nodes : List Node} {m n : Node}

theorem of_once (once : ((Expr.preorder n).map Node.identity).Nodup) : Forest (Expr.preorder n) where
  children := fun _ member _ child => Expr.child_mem_preorder child member
  coherent := fun _ first _ second same => List.inj_on_of_nodup_map once first second same

theorem below (forest : Forest nodes) (member : n ∈ nodes) : Expr.preorder n ⊆ nodes :=
  Expr.preorder_subset_of_closed forest.children member

theorem identity_ne_of_below (forest : Forest nodes) (member : n ∈ nodes)
    (below : m ∈ (Expr.children n).flatMap Expr.preorder) : m.identity ≠ n.identity := by
  intro same
  obtain ⟨c, child, deeper⟩ := List.mem_flatMap.1 below
  obtain rfl := forest.coherent m (forest.below (forest.children n member c child) deeper) n member same
  exact Expr.not_mem_preorder_of_child child deeper

end Forest

/-- Whether a node is a `let`. -/
def Expr.isLet {α : Type} : Expr α → Bool
  | .letIn _ _ _ _ => true
  | _ => false

namespace Register

/-- The nodes seen, in the order in which they came. -/
def nodes (r : Register) : List Node := r.seen.toList

/-- A register as a pass leaves it, while the nodes of `pool` are in use outside it. -/
structure Shared (r : Register) (pool : List Node) : Prop where
  children : ∀ n ∈ r.nodes, ∀ c ∈ Expr.children n, c ∈ r.nodes
  inlined : ∀ n ∈ r.nodes, Expr.isLet n = false
  distinct : r.nodes.Pairwise fun m n => Expr.same m n = false
  coherent : Coherent (pool ++ r.nodes)
  fresh : ∀ n ∈ pool ++ r.nodes, Node.identity n < r.next

namespace Shared

variable {r : Register} {pool : List Node}

theorem within (shared : r.Shared pool) {other : List Node} {next : Nat}
    (coherent : Coherent (other ++ r.nodes))
    (fresh : ∀ n ∈ other ++ r.nodes, Node.identity n < next) :
    Register.Shared ⟨r.seen, next⟩ other :=
  ⟨shared.children, shared.inlined, shared.distinct, coherent, fresh⟩

theorem forest (shared : r.Shared pool) : Forest r.nodes where
  children := shared.children
  coherent := shared.coherent.mono (List.subset_append_right _ _)

theorem unique (shared : r.Shared pool) {m n : Node} (first : m ∈ r.nodes) (second : n ∈ r.nodes)
    (alike : Expr.same m n = true) : m = n := by
  have symmetric : Std.Symm fun m n : Node => Expr.same m n = false :=
    ⟨fun m n differ => Bool.eq_false_iff.2 fun same => by simp [Expr.same_symm same] at differ⟩
  by_contra other
  have differ := shared.distinct.forall first second other
  simp [alike] at differ

theorem isSame_iff (shared : r.Shared pool) {m n : Node} (first : m ∈ r.nodes)
    (second : n ∈ r.nodes) : Node.isSame m n = true ↔ Expr.same m n = true := by
  rw [Node.isSame, beq_iff_eq]
  constructor
  · intro identity
    rw [shared.coherent m (List.mem_append_right _ first) n (List.mem_append_right _ second) identity]
    exact Expr.same_refl n
  · intro alike
    rw [shared.unique first second alike]

theorem areSame_iff (shared : r.Shared pool) {ms ns : List Node} (first : ∀ m ∈ ms, m ∈ r.nodes)
    (second : ∀ n ∈ ns, n ∈ r.nodes) :
    Node.areSame ms ns = true ↔ Expr.sameAll ms ns = true := by
  induction ms generalizing ns with
  | nil => cases ns <;> simp [Node.areSame, Expr.sameAll]
  | cons m ms ih =>
    cases ns with
    | nil => simp [Node.areSame, Expr.sameAll]
    | cons n ns =>
      obtain ⟨headM, tailM⟩ := List.forall_mem_cons.1 first
      obtain ⟨headN, tailN⟩ := List.forall_mem_cons.1 second
      rw [Node.areSame, Expr.sameAll, Bool.and_eq_true, Bool.and_eq_true,
        shared.isSame_iff headM headN, ih tailM tailN]

/-- Comparing children by identity is comparing them in depth. -/
theorem sameShape_iff (shared : r.Shared pool) {m n : Node} (seen : m ∈ r.nodes)
    (children : ∀ c ∈ Expr.children n, c ∈ r.nodes) (inlined : Expr.isLet n = false) :
    Node.sameShape m n = true ↔ Expr.same m n = true := by
  have below := shared.children m seen
  have noLet := shared.inlined m seen
  cases m <;> cases n <;> simp only [Expr.isLet, Bool.true_eq_false] at inlined noLet <;>
    simp only [Node.sameShape, Expr.same, Bool.false_eq_true]
  · exact shared.areSame_iff below children
  · simp only [Expr.children, List.forall_mem_cons] at below children
    rw [Bool.and_eq_true, Bool.and_eq_true, shared.isSame_iff below.1 children.1,
      shared.isSame_iff below.2.1 children.2.1]

end Shared

end Register

/-- What sharing a tree that is the same as `target` gives: a node of the register that is the same
too, while the register only grows. -/
structure Shares (pool : List Node) (r : Register) (target : Node) (result : Node × Register) :
    Prop where
  shared : result.2.Shared pool
  grows : r.nodes ⊆ result.2.nodes
  member : result.1 ∈ result.2.nodes
  alike : Expr.same result.1 target = true

/-- As `Shares`, for the trees of a list. -/
structure SharesAll (pool : List Node) (r : Register) (targets : List Node)
    (result : List Node × Register) : Prop where
  shared : result.2.Shared pool
  grows : r.nodes ⊆ result.2.nodes
  member : ∀ n ∈ result.1, n ∈ result.2.nodes
  alike : Expr.sameAll result.1 targets = true

variable {pool : List Node} {r : Register}

/-- Looking a node up finds the one node that is the same, or registers the node itself. -/
theorem Register.seek_shares (shared : r.Shared pool) {n : Node}
    (children : ∀ c ∈ Expr.children n, c ∈ r.nodes) (inlined : Expr.isLet n = false)
    (joins : ∀ m ∈ pool ++ r.nodes, Node.identity m = Node.identity n → m = n)
    (given : Node.identity n < r.next) : Shares pool r n (r.seek n) := by
  unfold Register.seek
  rw [← Array.find?_toList]
  split
  · next found known =>
    have seen : found ∈ r.nodes := List.mem_of_find?_eq_some known
    have alike : Node.sameShape found n = true := List.find?_some (p := (Node.sameShape · n)) known
    exact ⟨shared, List.Subset.refl _, seen, (shared.sameShape_iff seen children inlined).1 alike⟩
  · next unknown =>
    have nodes : Register.nodes { r with seen := r.seen.push n } = r.nodes ++ [n] :=
      Array.toList_push
    have part : r.nodes ⊆ r.nodes ++ [n] := List.subset_append_left _ _
    have here : n ∈ r.nodes ++ [n] := List.mem_append_right _ (List.mem_singleton.2 rfl)
    refine ⟨⟨?_, ?_, ?_, ?_, ?_⟩, ?_, ?_, Expr.same_refl n⟩ <;> simp only [nodes]
    · intro m member c child
      rcases List.mem_append.1 member with old | new
      · exact part (shared.children m old c child)
      · cases List.mem_singleton.1 new
        exact part (children c child)
    · intro m member
      rcases List.mem_append.1 member with old | new
      · exact shared.inlined m old
      · cases List.mem_singleton.1 new
        exact inlined
    · refine List.pairwise_append.2 ⟨shared.distinct, List.pairwise_singleton _ _, ?_⟩
      intro m old k new
      cases List.mem_singleton.1 new
      have differ := List.find?_eq_none.1 unknown m old
      exact Bool.eq_false_iff.2 (mt (shared.sameShape_iff old children inlined).2 differ)
    · rw [← List.append_assoc]
      intro m first k second identity
      rcases List.mem_append.1 first with oldM | newM <;>
        rcases List.mem_append.1 second with oldK | newK
      · exact shared.coherent m oldM k oldK identity
      · cases List.mem_singleton.1 newK
        exact joins m oldM identity
      · cases List.mem_singleton.1 newM
        exact (joins k oldK identity.symm).symm
      · exact (List.mem_singleton.1 newM).trans (List.mem_singleton.1 newK).symm
    · rw [← List.append_assoc]
      intro m member
      rcases List.mem_append.1 member with old | new
      · exact shared.fresh m old
      · cases List.mem_singleton.1 new
        exact given
    · exact part
    · exact here

theorem Register.build_shares (shared : r.Shared pool) (p : Position) (node : Tag → Node)
    (tagged : ∀ t, Expr.tag (node t) = t)
    (children : ∀ t, ∀ c ∈ Expr.children (node t), c ∈ r.nodes)
    (inlined : ∀ t, Expr.isLet (node t) = false) :
    Shares pool r (node ⟨r.next, p⟩) (r.build p node) := by
  have later : Register.Shared { r with next := r.next + 1 } pool :=
    ⟨shared.children, shared.inlined, shared.distinct, shared.coherent,
      fun m member => Nat.lt_succ_of_lt (shared.fresh m member)⟩
  have identity : Node.identity (node ⟨r.next, p⟩) = r.next := by
    rw [Node.identity, tagged]
  have found := Register.seek_shares later (children ⟨r.next, p⟩) (inlined _)
    (fun m member same => absurd (shared.fresh m member) (by omega))
    (by simp only [identity]; omega)
  exact ⟨found.shared, found.grows, found.member, found.alike⟩

/-- Whether sharing a tree gives what inlining gives, wherever the expressions that names stand for
are of the register. -/
def Node.SharesInline (pool : List Node) (n : Node) : Prop :=
  ∀ (r : Register) (scope : Scope) (other : List (String × Node)), r.Shared pool →
    (∀ p ∈ scope, p.2 ∈ r.nodes) → Expr.SameScopes scope other → Expr.preorder n ⊆ pool →
    Shares pool r (Expr.inline other n) (n.optimise scope r)

theorem Node.optimiseAll_shares {ns : List Node} (each : ∀ n ∈ ns, n.SharesInline pool)
    {r : Register} {scope : Scope} {other : List (String × Node)} (shared : r.Shared pool)
    (bound : ∀ p ∈ scope, p.2 ∈ r.nodes) (same : Expr.SameScopes scope other)
    (part : Expr.preorderAll ns ⊆ pool) :
    SharesAll pool r (Expr.inlineAll other ns) (Node.optimiseAll scope ns r) := by
  induction ns generalizing r with
  | nil => exact ⟨shared, List.Subset.refl _, fun _ member => by contradiction, rfl⟩
  | cons n ns ih =>
    obtain ⟨partN, partNs⟩ := List.append_subset.1 part
    have head := each n List.mem_cons_self r scope other shared bound same partN
    have tail := ih (fun m member => each m (List.mem_cons_of_mem _ member)) head.shared
      (fun p member => head.grows (bound p member)) partNs
    refine ⟨tail.shared, List.Subset.trans head.grows tail.grows, ?_, ?_⟩
    · exact List.forall_mem_cons.2 ⟨tail.grows head.member, tail.member⟩
    · exact Bool.and_eq_true_iff.2 ⟨head.alike, tail.alike⟩

/-- Sharing a tree gives a node of the register that is the same as the inlined tree. -/
theorem Node.optimise_shares (n : Node) : n.SharesInline pool := by
  induction n using Expr.induct with
  | literal t v =>
    intro r scope other shared bound same part
    have used := part (Expr.mem_preorder_self _)
    exact r.seek_shares shared (fun _ member => by contradiction) rfl
      (fun m member => shared.coherent m member _ (List.mem_append_left _ used))
      (shared.fresh _ (List.mem_append_left _ used))
  | var t x =>
    intro r scope other shared bound same part
    unfold Node.optimise Expr.inline
    rcases same.lookup x with ⟨b, c, found, foundOther, alike⟩ | ⟨absent, absentOther⟩
    · rw [found, foundOther]
      obtain ⟨before, after, rfl, _⟩ := List.lookup_eq_some_iff.1 found
      exact ⟨shared, List.Subset.refl _, bound (x, b) (by simp), alike⟩
    · rw [absent, absentOther]
      have used := part (Expr.mem_preorder_self _)
      exact r.seek_shares shared (fun _ member => by contradiction) rfl
        (fun m member => shared.coherent m member _ (List.mem_append_left _ used))
        (shared.fresh _ (List.mem_append_left _ used))
  | vector t es ih =>
    intro r scope other shared bound same part
    have elems := Node.optimiseAll_shares ih shared bound same (List.cons_subset.1 part).2
    have built := Register.build_shares elems.shared t.position
      (fun t => .vector t (Node.optimiseAll scope es r).1) (fun _ => rfl)
      (fun _ => elems.member) (fun _ => rfl)
    exact ⟨built.shared, List.Subset.trans elems.grows built.grows, built.member,
      Expr.same_trans built.alike elems.alike⟩
  | apply t f x ihf ihx =>
    intro r scope other shared bound same part
    obtain ⟨partF, partX⟩ := List.append_subset.1 (List.cons_subset.1 part).2
    have function := ihf r scope other shared bound same partF
    have argument := ihx _ scope other function.shared
      (fun p member => function.grows (bound p member)) same partX
    have built := Register.build_shares argument.shared t.position
      (fun t => .apply t (Node.optimise scope f r).1
        (Node.optimise scope x (Node.optimise scope f r).2).1) (fun _ => rfl)
      (fun _ => List.forall_mem_cons.2 ⟨argument.grows function.member,
        List.forall_mem_singleton.2 argument.member⟩) (fun _ => rfl)
    refine ⟨built.shared, List.Subset.trans function.grows (List.Subset.trans argument.grows built.grows),
      built.member, Expr.same_trans built.alike ?_⟩
    exact Bool.and_eq_true_iff.2 ⟨function.alike, argument.alike⟩
  | letIn t x b e ihb ihe =>
    intro r scope other shared bound same part
    obtain ⟨partB, partE⟩ := List.append_subset.1 (List.cons_subset.1 part).2
    have value := ihb r scope other shared bound same partB
    have body := ihe _ ((x, (Node.optimise scope b r).1) :: scope) ((x, Expr.inline other b) :: other)
      value.shared (List.forall_mem_cons.2 ⟨value.member, fun p member => value.grows (bound p member)⟩)
      (.cons ⟨rfl, value.alike⟩ same) partE
    exact ⟨body.shared, List.Subset.trans value.grows body.grows, body.member, body.alike⟩

/-- Where the nodes of a register come from: they were in it before, are leaves of the tree that is
shared, or are branches that were built new. -/
structure Register.Keeps (before : Register) (leaves : List Node) (after : Register) : Prop where
  next : before.next ≤ after.next
  origin : ∀ k ∈ after.nodes, k ∈ before.nodes ∨ k ∈ leaves ∨
    (before.next ≤ Node.identity k ∧ Expr.isLeaf k = false)

namespace Register.Keeps

variable {before middle after : Register} {first second : List Node}

theorem refl (r : Register) (leaves : List Node) : r.Keeps leaves r :=
  ⟨Nat.le_refl _, fun _ old => .inl old⟩

theorem trans (earlier : before.Keeps first middle) (later : middle.Keeps second after) :
    before.Keeps (first ++ second) after where
  next := Nat.le_trans earlier.next later.next
  origin := by
    intro k member
    rcases later.origin k member with old | leaf | ⟨new, branch⟩
    · rcases earlier.origin k old with older | leaf | built
      · exact .inl older
      · exact .inr (.inl (List.mem_append_left _ leaf))
      · exact .inr (.inr built)
    · exact .inr (.inl (List.mem_append_right _ leaf))
    · exact .inr (.inr ⟨Nat.le_trans earlier.next new, branch⟩)

end Register.Keeps

theorem Register.mem_seek {r : Register} {n k : Node} (member : k ∈ (r.seek n).2.nodes) :
    k ∈ r.nodes ∨ k = n := by
  unfold Register.seek at member
  split at member
  · exact .inl member
  · simpa [Register.nodes] using member

theorem Register.next_seek (r : Register) (n : Node) : (r.seek n).2.next = r.next := by
  unfold Register.seek
  split <;> rfl

theorem Register.seek_keeps (r : Register) (n : Node) : r.Keeps [n] (r.seek n).2 where
  next := Nat.le_of_eq (r.next_seek n).symm
  origin := fun _ member => (Register.mem_seek member).imp_right fun new =>
    .inl (List.mem_singleton.2 new)

theorem Register.build_keeps (r : Register) (p : Position) (node : Tag → Node)
    (tagged : ∀ t, Expr.tag (node t) = t) (branch : ∀ t, Expr.isLeaf (node t) = false) :
    r.Keeps [] (r.build p node).2 where
  next := by
    rw [Register.build, Register.next_seek]
    exact Nat.le_succ _
  origin := by
    intro k member
    rcases Register.mem_seek member with old | rfl
    · exact .inl old
    · exact .inr (.inr ⟨Nat.le_of_eq (by rw [Node.identity, tagged]), branch _⟩)

theorem Node.optimise_keeps (n : Node) (scope : Scope) (r : Register) :
    r.Keeps (Expr.leaves (scope.map Prod.fst) n) (n.optimise scope r).2 := by
  induction n using Expr.induct generalizing scope r with
  | literal t v => exact r.seek_keeps _
  | vector t es ih =>
    have elems : r.Keeps (Expr.leavesAll (scope.map Prod.fst) es) (Node.optimiseAll scope es r).2 := by
      induction es generalizing r with
      | nil => exact .refl r _
      | cons e es rest =>
        exact (ih e List.mem_cons_self scope r).trans
          (rest (fun c member => ih c (List.mem_cons_of_mem _ member)) _)
    have built := Register.build_keeps (Node.optimiseAll scope es r).2 t.position
      (fun t => .vector t (Node.optimiseAll scope es r).1) (fun _ => rfl) (fun _ => rfl)
    rw [← List.append_nil (Expr.leaves _ _)]
    exact elems.trans built
  | var t x =>
    unfold Node.optimise Expr.leaves
    cases found : scope.lookup x with
    | some b => exact .refl r _
    | none =>
      have free : x ∉ scope.map Prod.fst := by
        rintro named
        obtain ⟨p, member, rfl⟩ := List.mem_map.1 named
        simpa using List.lookup_eq_none_iff.1 found p member
      rw [if_neg free]
      exact r.seek_keeps _
  | apply t f x ihf ihx =>
    have parts := (ihf scope r).trans (ihx scope (Node.optimise scope f r).2)
    have built := Register.build_keeps (Node.optimise scope x (Node.optimise scope f r).2).2 t.position
      (fun t => .apply t (Node.optimise scope f r).1
        (Node.optimise scope x (Node.optimise scope f r).2).1) (fun _ => rfl) (fun _ => rfl)
    rw [← List.append_nil (Expr.leaves _ _)]
    exact parts.trans built
  | letIn t x b e ihb ihe =>
    exact (ihb scope r).trans
      (ihe ((x, (Node.optimise scope b r).1) :: scope) (Node.optimise scope b r).2)

end Formula
