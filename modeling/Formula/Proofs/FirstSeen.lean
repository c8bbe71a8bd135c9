import Formula.Proofs.Overflow

/-! Sharing and failures. A shared node stands where it was seen first. Nodes are seen in the order in
which they are evaluated, so when evaluation comes to a later occurrence, the first one has a value,
and so has this one: the first failure is always at a node that stands for itself. Main statement:
without `let`s, the optimised tree comes to exactly what the tree comes to. -/
namespace Formula

namespace Expr

variable {α β : Type}

theorem preorder_map (g : α → β) (e : Expr α) : (e.map g).preorder = e.preorder.map (map g) := by
  induction e with
  | literal | var => rfl
  | vector t es ih =>
    refine congrArg (List.cons _) ?_
    rw [preorderAll_eq_flatMap, preorderAll_eq_flatMap, mapAll_eq_map, List.flatMap_map,
      List.map_flatMap]
    exact List.flatMap_congr ih
  | apply t f x ihf ihx => simp [map, preorder, ihf, ihx]
  | letIn t x b e ihb ihe => simp [map, preorder, ihb, ihe]

theorem isLet_map (g : α → β) (e : Expr α) : (e.map g).isLet = e.isLet := by
  cases e <;> rfl

theorem meanings_mem {f : Functions} {place : α → Position} {es : List (Expr α)} {names : Names}
    {vs : List Value} (values : meanings f place es names = .ok vs) {e : Expr α} (member : e ∈ es) :
    ∃ v, e.meaning f place names = .ok v := by
  induction es generalizing vs with
  | nil => contradiction
  | cons d es ih =>
    obtain ⟨w, ws, head, tail, rfl⟩ := meanings_cons_ok.1 values
    rcases List.mem_cons.1 member with rfl | later
    · exact ⟨w, head⟩
    · exact ih tail later

end Expr

theorem Node.valued_below {f : Functions} {names : Names} {n k : Node} {v : Value}
    (letFree : ∀ k ∈ Expr.preorder n, Expr.isLet k = false) (value : n.meaning f names = .ok v)
    (below : k ∈ Expr.preorder n) : ∃ w, k.meaning f names = .ok w := by
  induction n using Expr.induct_children generalizing v with
  | node n ih =>
    rcases Expr.mem_preorder.1 below with rfl | ⟨c, child, deeper⟩
    · exact ⟨v, value⟩
    have valued : ∃ w, Node.meaning f c names = .ok w := by
      cases n with
      | literal | var => contradiction
      | vector t es =>
        obtain ⟨vs, values, _⟩ := Expr.meaning_vector_ok.1 value
        exact Expr.meanings_mem values child
      | apply t g x =>
        obtain ⟨callee, captured, arg, function, argument, _⟩ := Expr.meaning_apply_ok.1 value
        rcases List.mem_cons.1 child with rfl | last
        · exact ⟨_, function⟩
        · exact List.mem_singleton.1 last ▸ ⟨_, argument⟩
      | letIn =>
        have bound := letFree _ (Expr.mem_preorder_self _)
        contradiction
    obtain ⟨w, found⟩ := valued
    exact ih c child (fun k deeper => letFree k (Expr.preorder_subset_of_child child deeper)) found deeper

namespace Register

variable {r r' : Register} {pool : List Node} {n : Node}

/-- Equal nodes of which one is registered, and so are the children of the other, have the very same
children. -/
theorem Shared.children_eq (shared : r.Shared pool) {m : Node} (seen : m ∈ r.nodes)
    (children : ∀ c ∈ Expr.children n, c ∈ r.nodes) (alike : Expr.same m n = true) :
    Expr.children m = Expr.children n := by
  have below := shared.children m seen
  have equal {c d : Node} (first : c ∈ r.nodes) (second : d ∈ r.nodes) (same : Expr.same c d = true) :
      c = d := shared.unique first second same
  cases m <;> cases n <;> simp only [Expr.same, Bool.false_eq_true] at alike
  · rfl
  · have each := Expr.sameAll_iff.1 alike
    simp only [Expr.children] at below children ⊢
    clear alike seen
    induction each with
    | nil => rfl
    | cons head tail ih =>
      obtain ⟨here, below⟩ := List.forall_mem_cons.1 below
      obtain ⟨here', children⟩ := List.forall_mem_cons.1 children
      rw [equal here here' head, ih below children]
  · rfl
  · simp only [Expr.children, List.forall_mem_cons] at below children ⊢
    rw [Bool.and_eq_true] at alike
    rw [equal below.1 children.1 alike.1, equal below.2.1 children.2.1 alike.2]
  · have bound := shared.inlined _ seen
    contradiction

/-- The first node that is equal to a node whose children have just been looked up is the node itself,
or was there before them; and what has been registered since lies below it. -/
theorem seek_first (shared : r'.Shared pool) (children : ∀ c ∈ Expr.children n, c ∈ r'.nodes)
    (inlined : Expr.isLet n = false)
    (origin : ∀ k ∈ r'.nodes, k ∈ r.nodes ∨ k ∈ (Expr.children n).flatMap Expr.preorder) :
    ((r'.seek n).1 = n ∨ (r'.seek n).1 ∈ r.nodes) ∧
      ∀ k ∈ (r'.seek n).2.nodes, k ∈ r.nodes ∨ k ∈ Expr.preorder (r'.seek n).1 := by
  unfold Register.seek
  rw [← Array.find?_toList]
  split
  · next found known =>
    have seen : found ∈ r'.nodes := List.mem_of_find?_eq_some known
    have alike : Node.sameShape found n = true := List.find?_some (p := (Node.sameShape · n)) known
    have same := shared.children_eq seen children ((shared.sameShape_iff seen children inlined).1 alike)
    rw [← same] at origin
    constructor
    · refine .inr ((origin found seen).resolve_right fun below => ?_)
      obtain ⟨c, child, deeper⟩ := List.mem_flatMap.1 below
      exact Expr.not_mem_preorder_of_child child deeper
    · intro k member
      rw [Expr.preorder_eq]
      exact (origin k member).imp_right (List.mem_cons_of_mem _)
  · refine ⟨.inl rfl, fun k member => ?_⟩
    rw [Expr.preorder_eq]
    simp only [nodes, Array.toList_push] at member
    rcases List.mem_append.1 member with old | new
    · exact (origin k old).imp_right (List.mem_cons_of_mem _)
    · exact .inr (List.mem_singleton.1 new ▸ List.mem_cons_self)

theorem build_first (shared : r'.Shared pool) {p : Position} {node : Tag → Node}
    (children : ∀ c ∈ Expr.children (node ⟨r'.next, p⟩), c ∈ r'.nodes)
    (inlined : Expr.isLet (node ⟨r'.next, p⟩) = false)
    (origin : ∀ k ∈ r'.nodes, k ∈ r.nodes ∨
      k ∈ (Expr.children (node ⟨r'.next, p⟩)).flatMap Expr.preorder) :
    ((r'.build p node).1 = node ⟨r'.next, p⟩ ∨ (r'.build p node).1 ∈ r.nodes) ∧
      ∀ k ∈ (r'.build p node).2.nodes, k ∈ r.nodes ∨ k ∈ Expr.preorder (r'.build p node).1 :=
  seek_first (shared.within shared.coherent fun m member => Nat.lt_succ_of_lt (shared.fresh m member))
    children inlined origin

end Register

/-- What sharing a printable tree without `let`s gives. Everything new is registered below the result, and
where all that was registered has a value, the result comes to what the tree comes to. -/
structure Meets (f : Functions) (names : Names) (pool : List Node) (r : Register) (n : Node)
    (result : Node × Register) : Prop where
  shares : Shares pool r n result
  origin : ∀ k ∈ result.2.nodes, k ∈ r.nodes ∨ k ∈ Expr.preorder result.1
  printable : Expr.Printable result.1
  meaning : (∀ k ∈ r.nodes, ∃ v, k.meaning f names = .ok v) →
    result.1.meaning f names = n.meaning f names

namespace Meets

variable {f : Functions} {names : Names} {pool : List Node} {r r' : Register} {n c : Node}
  {result : Node × Register}

theorem registered (meets : Meets f names pool r n result) (before : ∀ k ∈ r.nodes, Expr.Printable k) :
    ∀ k ∈ result.2.nodes, Expr.Printable k := fun k member =>
  (meets.origin k member).elim (before k) meets.printable.of_mem

theorem valued (meets : Meets f names pool r n result) (before : ∀ k ∈ r.nodes, ∃ v, k.meaning f names = .ok v)
    {v : Value} (value : n.meaning f names = .ok v) :
    ∀ k ∈ result.2.nodes, ∃ v, k.meaning f names = .ok v := by
  intro k member
  rcases meets.origin k member with old | new
  · exact before k old
  · have below := meets.shares.shared.preorder_subset meets.shares.member
    exact Node.valued_below (fun l lower => meets.shares.shared.inlined l (below lower))
      ((meets.meaning before).trans value) new

/-- A node that was there before has a value, and so has the tree; the node itself comes to what
its children come to. -/
theorem of_first (found : Shares pool r' c result) (grows : r.nodes ⊆ r'.nodes)
    (before : ∀ k ∈ r.nodes, Expr.Printable k)
    (first : (result.1 = c ∨ result.1 ∈ r.nodes) ∧
      ∀ k ∈ result.2.nodes, k ∈ r.nodes ∨ k ∈ Expr.preorder result.1)
    (alike : Expr.same c n = true) (printable : Expr.Printable n) (built : Expr.Printable c)
    (meaning : (∀ k ∈ r.nodes, ∃ v, k.meaning f names = .ok v) →
      c.meaning f names = n.meaning f names) : Meets f names pool r n result where
  shares := ⟨found.shared, List.Subset.trans grows found.grows, found.member, Expr.same_trans found.alike alike⟩
  origin := first.2
  printable := first.1.elim (fun same => same ▸ built) (before _)
  meaning := by
    intro valued
    rcases first.1 with same | old
    · rw [same, meaning valued]
    · obtain ⟨v, value⟩ := valued _ old
      rw [value]
      exact (Expr.meaning_same (fun _ _ _ _ => id) (before _ old) printable
        (Expr.same_trans found.alike alike) value).symm

end Meets

/-- As `Meets`, for the trees of a list. -/
structure MeetsAll (f : Functions) (names : Names) (pool : List Node) (r : Register) (ns : List Node)
    (result : List Node × Register) : Prop where
  shares : SharesAll pool r ns result
  origin : ∀ k ∈ result.2.nodes, k ∈ r.nodes ∨ k ∈ result.1.flatMap Expr.preorder
  printable : ∀ m ∈ result.1, Expr.Printable m
  meanings : (∀ k ∈ r.nodes, ∃ v, k.meaning f names = .ok v) →
    Expr.meanings f Tag.position result.1 names = Expr.meanings f Tag.position ns names

namespace Node

variable {f : Functions} {names : Names} {pool : List Node} {n : Node}

/-- Whether sharing a tree keeps what it comes to, whatever is registered. -/
def MeetsIn (f : Functions) (names : Names) (pool : List Node) (n : Node) : Prop :=
  ∀ r : Register, r.Shared pool → (∀ k ∈ r.nodes, Expr.Printable k) →
    Meets f names pool r n (n.optimise [] r)

theorem optimiseAll_meets {ns : List Node} (each : ∀ n ∈ ns, n.MeetsIn f names pool) {r : Register}
    (shared : r.Shared pool) (before : ∀ k ∈ r.nodes, Expr.Printable k) :
    MeetsAll f names pool r ns (optimiseAll [] ns r) := by
  induction ns generalizing r with
  | nil =>
    exact ⟨⟨shared, List.Subset.refl _, fun _ member => by contradiction, rfl⟩,
      fun _ => .inl, fun _ member => by contradiction, fun _ => rfl⟩
  | cons n ns ih =>
    have head := each n List.mem_cons_self r shared before
    have tail := ih (fun m member => each m (List.mem_cons_of_mem _ member)) head.shares.shared
      (head.registered before)
    refine ⟨⟨tail.shares.shared, List.Subset.trans head.shares.grows tail.shares.grows, ?_, ?_⟩, ?_, ?_, ?_⟩
    · exact List.forall_mem_cons.2 ⟨tail.shares.grows head.shares.member, tail.shares.member⟩
    · exact Bool.and_eq_true_iff.2 ⟨head.shares.alike, tail.shares.alike⟩
    · intro k member
      rcases tail.origin k member with old | new
      · exact (head.origin k old).imp_right (List.mem_append_left _)
      · exact .inr (List.mem_append_right _ new)
    · exact List.forall_mem_cons.2 ⟨head.printable, tail.printable⟩
    · intro valued
      have first : Expr.meaning f Tag.position (n.optimise [] r).1 names = n.meaning f names :=
        head.meaning valued
      rw [optimiseAll, Expr.meanings, Expr.meanings, first]
      cases value : n.meaning f names with
      | error e => rw [show Expr.meaning f Tag.position n names = _ from value]; rfl
      | ok v =>
        rw [show Expr.meaning f Tag.position n names = _ from value,
          tail.meanings (head.valued valued value)]

theorem optimise_meets (letFree : ∀ k ∈ Expr.preorder n, Expr.isLet k = false)
    (printable : Expr.Printable n) (part : Expr.preorder n ⊆ pool) : n.MeetsIn f names pool := by
  have leaf {n : Node} (none : Expr.children n = []) (inlined : Expr.isLet n = false)
      (used : n ∈ pool) (printable : Expr.Printable n) {r : Register} (shared : r.Shared pool)
      (before : ∀ k ∈ r.nodes, Expr.Printable k) : Meets f names pool r n (r.seek n) := by
    have found := r.seek_shares shared (by simp [none]) inlined
      (fun m member => shared.coherent m member _ (List.mem_append_left _ used))
      (shared.fresh _ (List.mem_append_left _ used))
    exact .of_first found (List.Subset.refl _) before
      (Register.seek_first shared (by simp [none]) inlined fun _ => .inl) (Expr.same_refl n) printable
      printable fun _ => rfl
  have below {c : Node} (child : c ∈ Expr.children n) : Expr.preorder c ⊆ Expr.preorder n :=
    Expr.preorder_subset_of_child child
  induction n using Expr.induct with
  | literal | var =>
    intro r shared before
    exact leaf rfl rfl (part List.mem_cons_self) printable shared before
  | vector t es ih =>
    intro r shared before
    have each : ∀ e ∈ es, MeetsIn f names pool e := fun e member =>
      ih e member (fun k lower => letFree k (below member lower)) (printable.child member)
        (List.Subset.trans (below member) part) Expr.preorder_subset_of_child
    have elems := optimiseAll_meets each shared before
    refine .of_first (Register.build_shares elems.shares.shared t.position
      (fun t => .vector t (optimiseAll [] es r).1) (fun _ => rfl) (fun _ => elems.shares.member)
      (fun _ => rfl)) elems.shares.grows before
      (Register.build_first elems.shares.shared elems.shares.member rfl elems.origin)
      elems.shares.alike printable (.vector elems.printable) fun valued => ?_
    simp only [meaning, Expr.meaning, elems.meanings valued]
  | apply t g x ihg ihx =>
    intro r shared before
    have childX : x ∈ Expr.children (.apply t g x) := List.mem_cons_of_mem _ (List.mem_singleton.2 rfl)
    have function := ihg (fun k lower => letFree k (below List.mem_cons_self lower))
      (printable.child List.mem_cons_self) (List.Subset.trans (below List.mem_cons_self) part)
      Expr.preorder_subset_of_child r shared before
    have argument := ihx (fun k lower => letFree k (below childX lower)) (printable.child childX)
      (List.Subset.trans (below childX) part) Expr.preorder_subset_of_child _ function.shares.shared
      (function.registered before)
    have children : ∀ c ∈ [(optimise [] g r).1, (optimise [] x (optimise [] g r).2).1],
        c ∈ (optimise [] x (optimise [] g r).2).2.nodes :=
      List.forall_mem_cons.2 ⟨argument.shares.grows function.shares.member,
        List.forall_mem_singleton.2 argument.shares.member⟩
    refine .of_first (Register.build_shares argument.shares.shared t.position
      (fun t => .apply t (optimise [] g r).1 (optimise [] x (optimise [] g r).2).1) (fun _ => rfl)
      (fun _ => children) (fun _ => rfl))
      (List.Subset.trans function.shares.grows argument.shares.grows) before
      (Register.build_first argument.shares.shared children rfl fun k member => ?_)
      (Bool.and_eq_true_iff.2 ⟨function.shares.alike, argument.shares.alike⟩) printable
      (.apply function.printable argument.printable) fun valued => ?_
    · simp only [Expr.children, List.flatMap_cons, List.mem_append]
      rcases argument.origin k member with old | new
      · exact (function.origin k old).imp_right .inl
      · exact .inr (.inr (.inl new))
    · have first : Expr.meaning f Tag.position (optimise [] g r).1 names = _ := function.meaning valued
      rw [meaning, meaning, Expr.meaning, Expr.meaning, first]
      cases value : meaning f g names with
      | error e => rw [show Expr.meaning f Tag.position g names = _ from value]; rfl
      | ok v =>
        have second : Expr.meaning f Tag.position (optimise [] x (optimise [] g r).2).1 names = _ :=
          argument.meaning (function.valued valued value)
        rw [show Expr.meaning f Tag.position g names = _ from value, second]
        cases v <;> rfl
  | letIn =>
    have bound := letFree _ (Expr.mem_preorder_self _)
    contradiction

/-- Of a printable tree without `let`s, in which no node stands twice and none has a value, the shared
tree comes to what the tree comes to, unless that overflows. -/
theorem eval_shared {σ : Type} {call : Caller σ} (pure : call.Answers f) {next limit : Nat}
    (once : ((Expr.preorder n).map Node.identity).Nodup)
    (older : ∀ k ∈ Expr.preorder n, Node.identity k < next)
    (printable : Expr.Printable n) (letFree : ∀ k ∈ Expr.preorder n, Expr.isLet k = false) {env : Env}
    {s : Machine σ} (empty : ∀ k, s.memo.kept? k = none) (within : ¬ n.Overflows call limit env s) :
    ((n.optimise [] (.empty next)).1.eval call limit env s).1 = (n.eval call limit env s).1 := by
  have inOrder : n.MeetsIn f env.lookup? (Expr.preorder n) :=
    optimise_meets letFree printable (List.Subset.refl _)
  have meets := inOrder (.empty next) (.empty (Forest.of_once once).coherent older)
    fun _ member => by contradiction
  generalize n.optimise [] (.empty next) = result at meets
  have registered := meets.shares.shared
  have unshared : n.GuardedIn call limit f (n.occurrences f env.lookup?) (Expr.preorder n) :=
    eval_guarded pure (settled_of_once once _) (.of_once once) (Expr.mem_preorder_self n)
  have shared : result.1.GuardedIn call limit f (result.1.occurrences f env.lookup?) result.2.nodes :=
    eval_guarded pure (registered.settled meets.shares.member _) registered.forest meets.shares.member
  have sound (m : Node) (nodes : List Node) : s.memo.Sound f (m.occurrences f env.lookup?) nodes :=
    ⟨agrees_of_empty (fun k _ => empty k) _, .of_empty fun k _ => empty k⟩
  have room := visits_within pure printable once (fun k _ => empty k) within
  have room' := (visits_lt_iff (fun _ _ _ _ => Iff.rfl) printable meets.printable
    (Expr.same_symm meets.shares.alike)).1 room
  rw [(unshared env s (List.Subset.refl _) (sound _ _)).exact room,
    (shared env s (List.Subset.refl _) (sound _ _)).exact room',
    meets.meaning fun _ member => by contradiction]

end Node

namespace Session

/-- Optimising a tree without `let`s does not change what it comes to: unless the evaluation of the tree
as it was read overflows, the optimised tree comes within the same limit to the same value, or to the
same failure with the same trace. -/
theorem eval_optimise_eq {σ : Type} (call : Caller σ) (f : Functions) (pure : call.Answers f)
    (env : Env) (world : σ) {depth limit : Nat} {source text : String} {tree : Expr Position}
    (parsed : parseWithin depth source text = .ok tree)
    (letFree : ∀ k ∈ tree.preorder, k.isLet = false) :
    let (n, built) := (initial world).build tree
    let (m, _, shared) := built.optimise n
    ¬ n.Overflows call limit env built.machine →
      (shared.eval call limit m env).1 = (built.eval call limit n env).1 := by
  intro within
  have optimised := (initial world).optimised tree
  have plain : ∀ k ∈ Expr.preorder ((initial world).build tree).1, Expr.isLet k = false := by
    have mapped : Expr.map Tag.position ((initial world).build tree).1 = tree :=
      (Node.labelled tree _).mapped
    intro k below
    rw [← Expr.isLet_map Tag.position]
    refine letFree _ ?_
    rw [← mapped, Expr.preorder_map]
    exact List.mem_map_of_mem below
  exact Node.eval_shared pure optimised.once optimised.older
    ((initial world).printable_build (parseWithin_printable parsed)) plain
    (fun _ => Std.HashMap.getElem?_empty) within

/-- The tree of `[x x, x x]`, in which `x` is used as a function. -/
def repeated : Expr Position :=
  .vector ⟨"s", 1, 1, 0⟩ [
    .apply ⟨"s", 1, 4, 3⟩ (.var ⟨"s", 1, 2, 1⟩ "x") (.var ⟨"s", 1, 4, 3⟩ "x"),
    .apply ⟨"s", 1, 9, 8⟩ (.var ⟨"s", 1, 7, 6⟩ "x") (.var ⟨"s", 1, 9, 8⟩ "x")]

/-- The one application of the optimised tree stands where the first one stood. -/
theorem eval_optimise_eq_repeated :
    let (n, built) := (initial ()).build repeated
    let (m, _, shared) := built.optimise n
    (shared.eval Node.giveBack 3 m (Env.empty.register "x" (.bool true))).1 =
      .error ⟨[⟨"s", 1, 4, 3⟩], .mistyped (.just .function) .bool⟩ := by
  have parsed : parseWithin 3 "s" "[x x, x x]" = .ok repeated := by
    with_unfolding_all rfl
  have letFree : ∀ k ∈ repeated.preorder, k.isLet = false := by
    simp [repeated, Expr.preorder, Expr.preorderAll, Expr.isLet]
  have run := build_faithful Node.giveBack_answers () repeated 3 (Env.empty.register "x" (.bool true))
  have muted := build_faithful (Caller.muted_answers Node.giveBack_answers) () repeated 3
    (Env.empty.register "x" (.bool true))
  have within : ¬ Node.Overflows Node.giveBack 3 ((initial ()).build repeated).1
      (Env.empty.register "x" (.bool true)) ((initial ()).build repeated).2.machine := by
    rintro ⟨p, depth, overflow⟩
    have mistyped := overflow.symm.trans ((muted.exact (by decide)).trans rfl)
    cases mistyped
  have same := eval_optimise_eq Node.giveBack _ Node.giveBack_answers
    (Env.empty.register "x" (.bool true)) () parsed letFree within
  exact same.trans ((run.exact (by decide)).trans rfl)

end Session

end Formula
