import Formula.Proofs.FirstSeen

/-! Inlining and failures of bound expressions. An expression that is bound to a name that is used is
inlined somewhere, so that it has a value where the inlined tree has one; only a name that is never
used could hide its failure. Main statement: where every bound name is used, a value of the
optimised tree is the value of the tree as it was read. -/
namespace Formula

namespace Expr

variable {α β : Type}

mutual

/-- The names that a tree uses outside the `let`s that bind them. -/
def freeNames : Expr α → List String
  | .literal _ _ => []
  | .vector _ es => freeNamesAll es
  | .var _ x => [x]
  | .apply _ f x => freeNames f ++ freeNames x
  | .letIn _ x b e => freeNames b ++ (freeNames e).filter (· ≠ x)

def freeNamesAll : List (Expr α) → List String
  | [] => []
  | e :: es => freeNames e ++ freeNamesAll es

end

/-- Whether every name that is bound by a `let` is used in the body of the `let`. -/
def UsesNames (e : Expr α) : Prop :=
  ∀ t x b c, .letIn t x b c ∈ e.preorder → x ∈ c.freeNames

variable {e : Expr α} {scope : List (String × Expr α)} {b : Expr α} {x : String}

theorem freeNamesAll_eq_flatMap (es : List (Expr α)) : freeNamesAll es = es.flatMap freeNames := by
  induction es with
  | nil => rfl
  | cons e es ih => rw [freeNamesAll, ih, List.flatMap_cons]

theorem freeNames_map (g : α → β) (e : Expr α) : (e.map g).freeNames = e.freeNames := by
  induction e with
  | literal | var => rfl
  | vector t es ih =>
    rw [map, mapAll_eq_map, freeNames, freeNames, freeNamesAll_eq_flatMap, freeNamesAll_eq_flatMap,
      List.flatMap_map]
    exact List.flatMap_congr ih
  | apply t f x ihf ihx => rw [map, freeNames, ihf, ihx, freeNames]
  | letIn t x b e ihb ihe => rw [map, freeNames, ihb, ihe, freeNames]

theorem UsesNames.child {c : Expr α} (uses : e.UsesNames) (child : c ∈ e.children) : c.UsesNames :=
  fun t x b d below => uses t x b d (preorder_subset_of_child child below)

theorem UsesNames.of_map {g : α → β} (uses : (e.map g).UsesNames) : e.UsesNames := by
  intro t x b c below
  rw [← freeNames_map g]
  refine uses (g t) x (b.map g) (c.map g) ?_
  rw [preorder_map]
  exact List.mem_map_of_mem below

theorem preorder_subset {m : Expr α} (below : m ∈ e.preorder) : m.preorder ⊆ e.preorder :=
  preorder_subset_of_closed (fun _ member _ child => child_mem_preorder child member) below

theorem inlineAll_eq_map (scope : List (String × Expr α)) (es : List (Expr α)) :
    inlineAll scope es = es.map (inline scope) := by
  induction es with
  | nil => rfl
  | cons e es ih => rw [inlineAll, ih, List.map_cons]

/-- What a free name stands for occurs in the inlined tree. A name that only a bound expression uses is
inlined together with that expression, whose own name is used in turn. -/
theorem mem_preorder_inline (uses : e.UsesNames) (free : x ∈ e.freeNames)
    (found : scope.lookup x = some b) : b ∈ (e.inline scope).preorder := by
  induction e generalizing scope b x with
  | literal => contradiction
  | vector t es ih =>
    rw [freeNames, freeNamesAll_eq_flatMap] at free
    obtain ⟨e, member, used⟩ := List.mem_flatMap.1 free
    refine mem_preorder.2 (.inr ⟨e.inline scope, ?_, ih e member (uses.child member) used found⟩)
    rw [inline, inlineAll_eq_map]
    exact List.mem_map_of_mem member
  | var t y =>
    cases List.mem_singleton.1 free
    rw [inline, found]
    exact mem_preorder_self b
  | apply t f y ihf ihy =>
    have child {c : Expr α} (member : c ∈ [f, y]) : c.UsesNames := uses.child member
    rcases List.mem_append.1 free with here | here
    · have below := ihf (child (by simp)) here found
      exact mem_preorder.2 (.inr ⟨_, List.mem_cons_self, below⟩)
    · have below := ihy (child (by simp)) here found
      exact mem_preorder.2 (.inr ⟨_, List.mem_cons_of_mem _ List.mem_cons_self, below⟩)
  | letIn t y c d ihc ihd =>
    have child {e : Expr α} (member : e ∈ [c, d]) : e.UsesNames := uses.child member
    rcases List.mem_append.1 free with here | later
    · have below := ihc (child (by simp)) here found
      have used : y ∈ d.freeNames := uses t y c d (mem_preorder_self _)
      have bound : c.inline scope ∈ (d.inline ((y, c.inline scope) :: scope)).preorder :=
        ihd (child (by simp)) used (by simp)
      exact preorder_subset bound below
    · obtain ⟨here, other⟩ := List.mem_filter.1 later
      refine ihd (child (by simp)) here ?_
      rwa [List.lookup_cons, beq_eq_false_iff_ne.2 (of_decide_eq_true other)]

theorem letFree_inline (letFree : ∀ p ∈ scope, ∀ k ∈ p.2.preorder, k.isLet = false) :
    ∀ k ∈ (e.inline scope).preorder, k.isLet = false := by
  induction e generalizing scope with
  | literal => exact List.forall_mem_singleton.2 rfl
  | vector t es ih =>
    rw [inline, inlineAll_eq_map, preorder_eq]
    refine List.forall_mem_cons.2 ⟨rfl, List.forall_mem_flatMap.2 fun c child => ?_⟩
    obtain ⟨e, member, rfl⟩ := List.mem_map.1 child
    exact ih e member letFree
  | var t x =>
    rw [inline]
    cases found : scope.lookup x with
    | none => exact List.forall_mem_singleton.2 rfl
    | some b =>
      obtain ⟨before, after, rfl, _⟩ := List.lookup_eq_some_iff.1 found
      exact letFree (x, b) (by simp)
  | apply t f x ihf ihx =>
    exact List.forall_mem_cons.2 ⟨rfl, List.forall_mem_append.2 ⟨ihf letFree, ihx letFree⟩⟩
  | letIn t x b e ihb ihe => exact ihe (List.forall_mem_cons.2 ⟨ihb letFree, letFree⟩)

end Expr

/-- Where every bound name is used, a value of the inlined tree is a value of the tree. -/
theorem Node.meaning_of_inline {f : Functions} {n : Node} {scope : Scope} {outside names : Names}
    {v : Value} (uses : Expr.UsesNames n)
    (letFree : ∀ p ∈ scope, ∀ k ∈ Expr.preorder p.2, Expr.isLet k = false)
    (resolves : Expr.Resolves f Tag.position scope outside names)
    (value : Node.meaning f (Expr.inline scope n) outside = .ok v) :
    n.meaning f names = .ok v := by
  induction n using Expr.induct generalizing scope names v with
  | literal => exact value
  | vector t es ih =>
    obtain ⟨vs, values, rfl⟩ := Expr.meaning_vector_ok.1 value
    refine Expr.meaning_vector_ok.2 ⟨vs, ?_, rfl⟩
    have child : ∀ e ∈ es, Expr.UsesNames e := fun e member => uses.child member
    clear value uses
    induction es generalizing vs with
    | nil => exact values
    | cons e es elems =>
      obtain ⟨w, ws, head, tail, rfl⟩ := Expr.meanings_cons_ok.1 values
      obtain ⟨here, later⟩ := List.forall_mem_cons.1 child
      exact Expr.meanings_cons_ok.2 ⟨w, ws, ih e List.mem_cons_self here letFree resolves head,
        elems (fun c member => ih c (List.mem_cons_of_mem _ member)) ws tail later, rfl⟩
  | var t x =>
    refine Expr.meaning_var_ok.2 ?_
    have known := resolves x
    rw [Expr.inline] at value
    cases found : scope.lookup x with
    | some b =>
      rw [found] at known value
      obtain ⟨w, named, meant⟩ := known
      cases meant.symm.trans value
      exact named
    | none =>
      rw [found] at known value
      exact known.trans (Expr.meaning_var_ok.1 value)
  | apply t g x ihg ihx =>
    obtain ⟨callee, captured, arg, function, argument, answer⟩ := Expr.meaning_apply_ok.1 value
    have func : Expr.UsesNames g := uses.child (by simp [Expr.children])
    have args : Expr.UsesNames x := uses.child (by simp [Expr.children])
    exact Expr.meaning_apply_ok.2 ⟨callee, captured, arg, ihg func letFree resolves function,
      ihx args letFree resolves argument, answer⟩
  | letIn t x b e ihb ihe =>
    have bound : Expr.UsesNames b := uses.child (by simp [Expr.children])
    have body : Expr.UsesNames e := uses.child (by simp [Expr.children])
    have inside : ∀ p ∈ (x, Expr.inline scope b) :: scope, ∀ k ∈ Expr.preorder p.2,
        Expr.isLet k = false :=
      List.forall_mem_cons.2 ⟨Expr.letFree_inline letFree, letFree⟩
    -- The bound expression lies below the inlined body, so it has a value.
    have below : Expr.inline scope b ∈
        Expr.preorder (Expr.inline ((x, Expr.inline scope b) :: scope) e) :=
      Expr.mem_preorder_inline body (uses t x b e (Expr.mem_preorder_self _)) (by simp)
    obtain ⟨w, meant⟩ := Node.valued_below (Expr.letFree_inline inside) value below
    exact Expr.meaning_letIn_ok.2 ⟨w, ihb bound letFree resolves meant,
      ihe body inside (resolves.bind meant) value⟩

namespace Session

/-- Where every bound name is used, a value that evaluation of the shared tree finds is the value of the
tree, if the values that its nodes kept before are right. -/
theorem Optimised.meaning_of_eval {σ : Type} {call : Caller σ} {f : Functions} {n : Node} {next : Nat}
    {result : Node × Register} {env : Env} {s : Machine σ} {limit : Nat} {v : Value}
    (pure : call.Answers f) (optimised : Optimised n next result) (printable : Expr.Printable n)
    (uses : Expr.UsesNames n) (agrees : s.memo.Agrees f (result.1.occurrences f env.lookup?))
    (value : (result.1.eval call limit env s).1 = .ok v) : n.meaning f env.lookup? = .ok v := by
  have shares := optimised.shares
  have inlined : (Expr.inline [] n).Printable := printable.inline fun _ member => by contradiction
  have shared := shares.shared.printable printable optimised.keeps shares.member
  have meant := (optimised.faithful pure agrees limit).sound v value
  exact Node.meaning_of_inline uses (fun _ member => by contradiction) .nil
    (Expr.meaning_same (fun _ _ _ _ => id) shared inlined shares.alike meant)

/-- Optimising hides no failure of a binding that is used: if every bound name of a tree that was parsed
is used and the optimised tree has a value, then so has the tree as it was read, in every limit that
its height keeps to, and it is the same value. The optimised tree may be evaluated before or after
the tree as it was read, however that evaluation ends. -/
theorem eval_of_eval_optimise {σ : Type} (call : Caller σ) (f : Functions) (pure : call.Answers f)
    (env : Env) (world : σ) {depth : Nat} {source text : String} {tree : Expr Position}
    (parsed : parseWithin depth source text = .ok tree) (uses : tree.UsesNames)
    (limit limit' : Nat) {v : Value} :
    let (n, built) := (initial world).build tree
    let (_, evaluated) := built.eval call limit n env
    ∀ s ∈ [built, evaluated],
      let (m, _, shared) := s.optimise n
      (shared.eval call limit' m env).1 = .ok v →
        ∀ limit'', Expr.height n ≤ limit'' → (built.eval call limit'' n env).1 = .ok v := by
  have optimised := (initial world).optimised tree
  have mapped : Expr.map Tag.position ((initial world).build tree).1 = tree :=
    (Node.labelled tree _).mapped
  have used : Expr.UsesNames ((initial world).build tree).1 := .of_map (mapped.symm ▸ uses)
  have printable := (initial world).printable_build (parseWithin_printable parsed)
  have run := build_faithful pure world tree
  intro s member value limit'' room
  have meant : ((initial world).build tree).1.meaning f env.lookup? = .ok v := by
    rcases List.mem_cons.1 member with rfl | rest
    · exact optimised.meaning_of_eval pure printable used (optimised.agrees (.refl _ _)) value
    · cases List.mem_singleton.1 rest
      exact optimised.meaning_of_eval pure printable used (optimised.agrees (run limit env).grows) value
  exact ((run limit'' env).exact (Nat.le_trans (Nat.le_of_eq (Nat.zero_add _)) room)).trans meant

/-- The tree of `let x = a in let y = [x] in [y, y]`, in which only a bound expression uses `x`. -/
def passedOn : Expr Position :=
  .letIn ⟨"s", 1, 1, 0⟩ "x" (.var ⟨"s", 1, 9, 8⟩ "a")
    (.letIn ⟨"s", 1, 14, 13⟩ "y" (.vector ⟨"s", 1, 22, 21⟩ [.var ⟨"s", 1, 23, 22⟩ "x"])
      (.vector ⟨"s", 1, 29, 28⟩ [.var ⟨"s", 1, 30, 29⟩ "y", .var ⟨"s", 1, 33, 32⟩ "y"]))

theorem eval_of_eval_optimise_passedOn :
    let built := (initial ()).build passedOn
    let evaluated := (built.2.eval Node.giveBack 2 built.1 (Env.empty.register "a" (.bool true))).2
    let shared := evaluated.optimise built.1
    passedOn.UsesNames ∧
      (shared.2.2.eval Node.giveBack 3 shared.1 (Env.empty.register "a" (.bool true))).1 =
        .ok (.vector [.vector [.bool true], .vector [.bool true]]) ∧
      (built.2.eval Node.giveBack 4 built.1 (Env.empty.register "a" (.bool true))).1 =
        .ok (.vector [.vector [.bool true], .vector [.bool true]]) := by
  have parsed : parseWithin 3 "s" "let x = a in let y = [x] in [y, y]" = .ok passedOn := by
    with_unfolding_all rfl
  have uses : passedOn.UsesNames := by
    intro t x b c below
    simp [passedOn, Expr.preorder, Expr.preorderAll] at below
    rcases below with ⟨_, rfl, _, rfl⟩ | ⟨_, rfl, _, rfl⟩ <;> decide
  have optimised := (initial ()).optimised passedOn
  have run := build_faithful Node.giveBack_answers () passedOn 2 (Env.empty.register "a" (.bool true))
  have room : Expr.height (((initial ()).build passedOn).1.optimise []
      (.empty ((initial ()).build passedOn).2.next)).1 ≤ 3 := by decide
  have value := optimised.eval (v := .vector [.vector [.bool true], .vector [.bool true]])
    Node.giveBack_answers (by with_unfolding_all rfl) (optimised.agrees run.grows) run.depth room
  exact ⟨uses, value, eval_of_eval_optimise _ _ Node.giveBack_answers _ () parsed uses 2 3 _
    (List.mem_cons_of_mem _ List.mem_cons_self) value 4 (by decide)⟩

end Session

end Formula
