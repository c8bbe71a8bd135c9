import Formula.Proofs.Calls
import Formula.Proofs.FirstSeen
import Formula.Proofs.RoundTrip

/-! What optimising costs and saves. A bound expression is optimised once, where its `let` stands, and
every use of its name is then answered with the one node; so each node of the tree that was read
adds at most one node to the register, of its own form, however long the inlined tree may be. Main
statement: the optimised tree has at most as many distinct nodes as are registered, at most as many
are registered as the tree has nodes other than `let`s, and evaluating it makes no more calls. -/
namespace Formula

/-- The number of nodes that count: a `let` never does, and another node by whether it is an
application. -/
def tally (counts : Bool → Bool) (ns : List Node) : Nat :=
  ns.countP fun n => !Expr.isLet n && counts (Expr.isApply n)

section Registered
variable (counts : Bool → Bool)

theorem tally_append (ms ns : List Node) : tally counts (ms ++ ns) = tally counts ms + tally counts ns :=
  List.countP_append

theorem tally_cons (n : Node) (ns : List Node) :
    tally counts (n :: ns) = tally counts [n] + tally counts ns := tally_append counts [n] ns

theorem tally_true {ns : List Node} (inlined : ∀ n ∈ ns, Expr.isLet n = false) :
    tally (fun _ => true) ns = ns.length :=
  List.countP_eq_length.2 fun n member => by rw [inlined n member]; rfl

theorem tally_id (ns : List Node) : tally id ns = ns.countP Expr.isApply :=
  List.countP_congr fun n _ => by cases n <;> simp [Expr.isLet, Expr.isApply]

theorem Register.tally_seek (r : Register) (n : Node) :
    tally counts (r.seek n).2.nodes ≤ tally counts r.nodes + tally counts [n] := by
  unfold Register.seek
  split
  · exact Nat.le_add_right _ _
  · exact Nat.le_of_eq (by rw [← tally_append, Register.nodes, Array.toList_push]; rfl)

theorem Register.tally_build (r : Register) (p : Position) (node : Tag → Node) :
    tally counts (r.build p node).2.nodes ≤ tally counts r.nodes + tally counts [node ⟨r.next, p⟩] :=
  Register.tally_seek counts { r with next := r.next + 1 } _

/-- Every node of a tree registers at most one node, of its own form. -/
theorem Node.optimise_tally (n : Node) (scope : Scope) (r : Register) :
    tally counts (n.optimise scope r).2.nodes ≤ tally counts r.nodes + tally counts (Expr.preorder n) := by
  induction n using Expr.induct generalizing scope r with
  | literal t v => exact r.tally_seek counts _
  | vector t es ih =>
    have elems : tally counts (Node.optimiseAll scope es r).2.nodes ≤
        tally counts r.nodes + tally counts (Expr.preorderAll es) := by
      clear t
      induction es generalizing r with
      | nil => exact Nat.le_add_right _ _
      | cons e es rest =>
        have head := ih e List.mem_cons_self scope r
        have tail := rest (fun c member => ih c (List.mem_cons_of_mem _ member))
          (Node.optimise scope e r).2
        rw [Expr.preorderAll, tally_append]
        exact Nat.le_trans tail (by omega)
    have built : tally counts (Node.optimise scope (.vector t es) r).2.nodes ≤
        tally counts (Node.optimiseAll scope es r).2.nodes + tally counts [.vector t es] :=
      Register.tally_build counts _ t.position fun t => .vector t (Node.optimiseAll scope es r).1
    rw [Expr.preorder, tally_cons]
    omega
  | var t x =>
    unfold Node.optimise
    cases scope.lookup x with
    -- What a bound name stands for was registered where its `let` stands.
    | some b => exact Nat.le_add_right _ _
    | none => exact r.tally_seek counts _
  | apply t f x ihf ihx =>
    have function := ihf scope r
    have argument := ihx scope (Node.optimise scope f r).2
    have built : tally counts (Node.optimise scope (.apply t f x) r).2.nodes ≤
        tally counts (Node.optimise scope x (Node.optimise scope f r).2).2.nodes +
          tally counts [.apply t f x] :=
      Register.tally_build counts _ t.position fun t => .apply t (Node.optimise scope f r).1
        (Node.optimise scope x (Node.optimise scope f r).2).1
    rw [Expr.preorder, tally_cons, tally_append]
    omega
  | letIn t x b e ihb ihe =>
    have value := ihb scope r
    have body := ihe ((x, (Node.optimise scope b r).1) :: scope) (Node.optimise scope b r).2
    rw [Expr.preorder, tally_cons, tally_append]
    exact Nat.le_trans body (by omega)

end Registered

section Calls
variable {σ : Type} {call : Caller σ} {limit : Nat} {nodes : List Node} {n : Node} {env : Env}
  {s : Machine σ} {v : Value}

theorem card_applications_le (ns : List Node) : (applications ns).card ≤ ns.countP Expr.isApply := by
  refine (List.toFinset_card_le _).trans ?_
  rw [List.length_map, List.countP_eq_length_filter]

theorem card_applications_of_once {ns : List Node} (once : (ns.map Node.identity).Nodup) :
    (applications ns).card = ns.countP Expr.isApply := by
  have distinct := once.sublist ((List.filter_sublist (p := Expr.isApply)).map Node.identity)
  rw [applications, List.toFinset_card_of_nodup distinct, List.length_map, List.countP_eq_length_filter]

/-- An evaluation that finds a value calls no application twice. -/
theorem Node.calls_le (forest : Forest nodes) (member : n ∈ nodes)
    (found : (n.eval call limit env s).1 = .ok v) :
    n.calls call limit env s ≤ (applications nodes).card := by
  have tallies : n.TalliesIn call limit nodes := Node.eval_tallies forest member
  obtain ⟨total, same, balance⟩ := tallies env s 0
  have counted := balance v found
  have most : (n.eval call limit env s).2.memo.applied nodes ≤ (applications nodes).card :=
    Finset.card_filter_le _ _
  rw [Node.calls, same]
  show total ≤ _
  omega

theorem Node.calls_of_empty (forest : Forest nodes) (member : n ∈ nodes)
    (empty : ∀ m ∈ Expr.preorder n, s.memo.kept? m = none)
    (found : (n.eval call limit env s).1 = .ok v) :
    n.calls call limit env s = (applications (Expr.preorder n)).card := by
  have tree := forest.tree member
  have root := Expr.mem_preorder_self n
  have fills : Node.FillsIn call limit (Expr.preorder n) n := Node.eval_fills tree root
  have tallies : Node.TalliesIn call limit (Expr.preorder n) n := Node.eval_tallies tree root
  have run := fills env s
  have keeps : (n.eval call limit env s).2.memo.kept? n = some v :=
    run.found.trans (congrArg Except.toOption found)
  have full := fun m below => (run.closed (.of_empty empty)).kept_below (m := m) tree root keeps below
  obtain ⟨total, same, balance⟩ := tallies env s 0
  have counted := balance v found
  rw [Memo.applied_empty empty, Memo.applied_full full] at counted
  rw [Node.calls, same]
  show total = _
  omega

end Calls

namespace Expr

section Doubling
variable {α β : Type}

theorem inline_same {e : Expr α} {f : Expr β} {scope : List (String × Expr α)}
    {other : List (String × Expr β)} (scopes : SameScopes scope other) (alike : e.same f = true) :
    (e.inline scope).same (f.inline other) = true := by
  induction e generalizing f scope other with
  | literal t v => cases f <;> simp_all [same, inline]
  | vector t es ih =>
    cases f <;> simp only [same, Bool.false_eq_true] at alike
    next t' fs =>
    rw [inline, inline, same]
    clear t t'
    induction es generalizing fs with
    | nil => cases fs <;> simp_all [sameAll, inlineAll]
    | cons e es rest =>
      cases fs <;> simp only [sameAll, Bool.false_eq_true, Bool.and_eq_true] at alike
      next f fs =>
      rw [inlineAll, inlineAll, sameAll, ih e List.mem_cons_self scopes alike.1,
        rest (fun c member => ih c (List.mem_cons_of_mem _ member)) fs alike.2]
      rfl
  | var t x =>
    cases f <;> simp only [same, Bool.false_eq_true, beq_iff_eq] at alike
    next t' y =>
    subst alike
    rw [inline, inline]
    rcases scopes.lookup x with ⟨b, c, found, foundOther, alike⟩ | ⟨absent, absentOther⟩
    · rw [found, foundOther]
      exact alike
    · rw [absent, absentOther]
      exact beq_self_eq_true x
  | apply t g x ihg ihx =>
    cases f <;> simp only [same, Bool.false_eq_true, Bool.and_eq_true] at alike
    rw [inline, inline, same, ihg scopes alike.1, ihx scopes alike.2]
    rfl
  | letIn t x b e ihb ihe =>
    cases f <;> simp only [same, Bool.false_eq_true, Bool.and_eq_true, beq_iff_eq] at alike
    next t' y c f =>
    obtain ⟨⟨rfl, bound⟩, body⟩ := alike
    rw [inline, inline]
    exact ihe (.cons ⟨rfl, ihb scopes bound⟩ scopes) body

/-- The vector in which a tree stands twice. -/
def twice (e : Expr Unit) : Expr Unit := .vector () [e, e]

/-- `let a = [a, a] in` … `in a`, with `k` times a `let`. -/
def doubling : Nat → Expr Unit
  | 0 => .var () "a"
  | k + 1 => .letIn () "a" (twice (.var () "a")) (doubling k)

theorem printable_doubling (k : Nat) : (doubling k).Printable := by
  have leaf : (Expr.var () "a").Printable := .var (by decide)
  induction k with
  | zero => exact leaf
  | succ k ih =>
    refine .letIn (by decide) (.vector ?_) ih
    simpa using leaf

theorem length_doubling (k : Nat) : (doubling k).text.length = 18 * k + 1 := by
  have leaf : (Expr.var () "a").text = "a" := by decide
  induction k with
  | zero => rw [doubling, leaf]; rfl
  | succ k ih =>
    have bound : (twice (.var () "a")).text = "[a, a]" := by decide
    rw [doubling, text, bound]
    simp only [String.length_append, ih]
    have : "let ".length + "a".length + " = ".length + "[a, a]".length + " in ".length = 18 := by decide
    omega

theorem inline_doubling (k : Nat) (scope : List (String × Expr Unit)) :
    (doubling k).inline scope = twice^[k] ((scope.lookup "a").getD (.var () "a")) := by
  induction k generalizing scope with
  | zero => rfl
  | succ k ih =>
    rw [doubling, inline, ih, Function.iterate_succ_apply]
    simp [twice, inline, inlineAll]

/-- The written form of what has been doubled is at least twice as long each time. -/
theorem length_text_twice {k : Nat} {e : Expr α} (alike : e.same (twice^[k] (.var () "a")) = true) :
    2 ^ k ≤ e.text.length := by
  induction k generalizing e with
  | zero =>
    cases e <;> simp only [Function.iterate_zero, id, same, Bool.false_eq_true, beq_iff_eq] at alike
    subst alike
    rw [text]
    decide
  | succ k ih =>
    rw [Function.iterate_succ_apply'] at alike
    cases e <;> simp only [twice, same, Bool.false_eq_true] at alike
    next t es =>
    obtain ⟨d, ds, first, others, rfl⟩ := List.forall₂_cons_right_iff.1 (sameAll_iff.1 alike)
    obtain ⟨e, es, second, rest, rfl⟩ := List.forall₂_cons_right_iff.1 others
    obtain rfl := List.forall₂_nil_right_iff.1 rest
    have left := ih first
    have right := ih second
    have written := congrArg List.length (chars_vector t [d, e])
    simp only [chars, elements, List.length_cons, List.length_append, String.length_toList] at written
    rw [Nat.pow_succ]
    omega

theorem Printable.parses {e : Expr α} (printable : e.Printable) (source : String) :
    ∃ limit tree, parseWithin limit source e.text = .ok tree ∧ tree.same e = true := by
  obtain ⟨draft, read, alike⟩ := printable.readText
  have room := printable.nestingExcess?_eq_none (Nat.le_refl _)
  exact ⟨_, _, parseWithin_ok.2 ⟨room, draft, read, rfl⟩, same_trans (map_same _ draft) alike⟩

end Doubling

end Expr

namespace Session

section
variable {σ : Type} (s : Session σ) (tree : Expr Position)

/-- Optimising a tree that was read gives the inlined tree. -/
theorem optimise_alike : let (n, built) := s.build tree
    Expr.same (built.optimise n).1 (tree.inline []) = true := by
  have labelled : Expr.same (s.build tree).1 tree = true := by
    have alike := Expr.map_same Tag.position (s.build tree).1
    rw [map_build] at alike
    exact Expr.same_symm alike
  exact Expr.same_trans (s.optimised tree).shares.alike (Expr.inline_same .nil labelled)

theorem card_optimise_le : let (n, built) := s.build tree
    let (m, seen, _) := built.optimise n
    ((Expr.preorder m).map Node.identity).toFinset.card ≤ seen := by
  have shares := (s.optimised tree).shares
  have registered := List.map_subset Node.identity (shares.shared.preorder_subset shares.member)
  have most := (Finset.card_le_card fun i below => List.mem_toFinset.2
    (registered (List.mem_toFinset.1 below))).trans (List.toFinset_card_le _)
  rw [List.length_map, Register.nodes, Array.length_toList] at most
  exact most

theorem optimise_le_countP : let (n, built) := s.build tree
    (built.optimise n).2.1 ≤ tree.preorder.countP (!·.isLet) := by
  have shared := (s.optimised tree).shares.shared
  have bound := Node.optimise_tally (fun _ => true) (s.build tree).1 []
    (.empty (s.build tree).2.next)
  have read : tree.preorder.countP (!·.isLet) = tally (fun _ => true) (Expr.preorder (s.build tree).1) := by
    conv_lhs => rw [← s.map_build tree, Expr.preorder_map, List.countP_map]
    exact List.countP_congr fun n _ => by simp [Expr.isLet_map]
  rw [tally_true shared.inlined, Register.nodes, Array.length_toList] at bound
  exact bound.trans (Nat.le_of_eq (by rw [read]; exact Nat.zero_add _))

theorem countP_optimise_le : let (n, built) := s.build tree
    (n.optimise [] (.empty built.next)).2.nodes.countP Expr.isApply ≤
      (Expr.preorder n).countP Expr.isApply := by
  have bound := Node.optimise_tally id (s.build tree).1 [] (.empty (s.build tree).2.next)
  rw [tally_id, tally_id, tally_id] at bound
  exact bound.trans (Nat.le_of_eq (Nat.zero_add _))

end

/-- Where a tree that is read has a value, the optimised tree has it too, for no more calls, whatever right
values its nodes keep already. -/
theorem eval_optimise_calls {σ : Type} {call : Caller σ} {f : Functions} (pure : call.Answers f)
    (world : σ) {tree : Expr Position} (printable : tree.Printable) {limit : Nat} {env : Env} {v : Value} :
    let (n, built) := (initial world).build tree
    let (m, _, _) := built.optimise n
    (built.eval call limit n env).1 = .ok v → ∀ s : Machine σ, s.depth = 0 →
      s.memo.Agrees f (m.occurrences f env.lookup?) → ∀ limit', Expr.height m ≤ limit' →
        (m.eval call limit' env s).1 = .ok v ∧
          m.calls call limit' env s ≤ n.calls call limit env built.machine := by
  intro value s ground agrees limit' room
  have optimised := (initial world).optimised tree
  have shares := optimised.shares
  have meant := (build_faithful pure world tree limit env).sound v value
  have means := optimised.meaning ((initial world).printable_build printable) meant
  have found := optimised.eval pure means agrees ground room
  have plain := Node.calls_of_empty (.of_once optimised.once) (Expr.mem_preorder_self _)
    (fun _ _ => Std.HashMap.getElem?_empty) value
  refine ⟨found, ?_⟩
  let read := Expr.preorder ((initial world).build tree).1
  let registered := (((initial world).build tree).1.optimise [] (.empty ((initial world).build tree).2.next)).2
  calc
    _ ≤ (applications registered.nodes).card := Node.calls_le shares.shared.forest shares.member found
    _ ≤ registered.nodes.countP Expr.isApply := card_applications_le _
    _ ≤ read.countP Expr.isApply := countP_optimise_le _ tree
    _ = (applications read).card := (card_applications_of_once optimised.once).symm
    _ = _ := plain.symm

/-- Optimising never increases work. The optimised tree of a tree that was parsed has at most as many
distinct nodes as were registered, and at most as many were registered as the tree has nodes other
than `let`s, although its written form may be exponentially longer than the text that was parsed;
and where the tree has a value, the optimised tree has it in every limit that its height keeps to,
whether the tree has been evaluated before or not, for at most as many calls. -/
theorem optimise_economical {σ : Type} (world : σ) :
    (∀ {depth : Nat} {source text : String} {tree : Expr Position},
      parseWithin depth source text = .ok tree →
        let (n, built) := (initial world).build tree
        let (m, seen, _) := built.optimise n
        ((Expr.preorder m).map Node.identity).toFinset.card ≤ seen ∧
          seen ≤ tree.preorder.countP (!·.isLet) ∧
          ∀ (call : Caller σ) (f : Functions), call.Answers f → ∀ (env : Env) (limit : Nat) (v : Value),
            (built.eval call limit n env).1 = .ok v →
              ∀ s ∈ [built, (built.eval call limit n env).2],
                let (m, _, shared) := s.optimise n
                ∀ limit', Expr.height m ≤ limit' →
                  (shared.eval call limit' m env).1 = .ok v ∧
                    m.calls call limit' env shared.machine ≤ n.calls call limit env built.machine) ∧
    ∀ (k : Nat) (source : String), ∃ depth text tree, parseWithin depth source text = .ok tree ∧
      text.length = 18 * k + 1 ∧
      let (n, built) := (initial world).build tree
      2 ^ k ≤ (built.optimise n).1.text.length := by
  constructor
  · intro depth source text tree parsed
    refine ⟨card_optimise_le _ tree, optimise_le_countP _ tree, ?_⟩
    intro call f pure env limit v value s member limit' room
    have optimised := (initial world).optimised tree
    have run := build_faithful pure world tree limit env
    have saves := eval_optimise_calls pure world (parseWithin_printable parsed) value
    rcases List.mem_cons.1 member with rfl | rest
    · exact saves _ rfl (optimised.agrees (.refl _ _)) limit' room
    · cases List.mem_singleton.1 rest
      exact saves _ run.depth (optimised.agrees run.grows) limit' room
  · intro k source
    obtain ⟨depth, tree, parsed, alike⟩ := (Expr.printable_doubling k).parses source
    refine ⟨depth, _, tree, parsed, Expr.length_doubling k, ?_⟩
    have inlined := Expr.inline_same .nil alike
    rw [Expr.inline_doubling] at inlined
    exact Expr.length_text_twice (Expr.same_trans (optimise_alike _ tree) inlined)

/-- The tree of `let x = f y in [x, f y]`, in which `f` is applied twice to the same. -/
def reusing : Expr Position :=
  .letIn ⟨"s", 1, 1, 0⟩ "x"
    (.apply ⟨"s", 1, 11, 10⟩ (.var ⟨"s", 1, 9, 8⟩ "f") (.var ⟨"s", 1, 11, 10⟩ "y"))
    (.vector ⟨"s", 1, 16, 15⟩ [.var ⟨"s", 1, 17, 16⟩ "x",
      .apply ⟨"s", 1, 22, 21⟩ (.var ⟨"s", 1, 20, 19⟩ "f") (.var ⟨"s", 1, 22, 21⟩ "y")])

/-- Four of the eight nodes that are no `let` are registered, and the application is one of them. -/
theorem optimise_economical_reusing :
    let (n, built) := (initial ()).build reusing
    let (m, seen, shared) := built.optimise n
    let env := (Env.empty.register "f" (.function (.host 0) [])).register "y" (.bool true)
    ((Expr.preorder m).map Node.identity).toFinset.card ≤ seen ∧ seen = 4 ∧
      reusing.preorder.countP (!·.isLet) = 8 ∧
      (shared.eval Node.giveBack 3 m env).1 = .ok (.vector [.bool true, .bool true]) ∧
      m.calls Node.giveBack 3 env shared.machine ≤ n.calls Node.giveBack 4 env built.machine := by
  have parsed : parseWithin 3 "s" "let x = f y in [x, f y]" = .ok reusing := by
    with_unfolding_all rfl
  obtain ⟨distinct, seen, work⟩ := (optimise_economical ()).1 parsed
  have run := build_faithful Node.giveBack_answers () reusing 4
    ((Env.empty.register "f" (.function (.host 0) [])).register "y" (.bool true))
  have saves := work Node.giveBack _ Node.giveBack_answers _ 4 _ ((run.exact (by decide)).trans rfl) _
    List.mem_cons_self 3 (by decide)
  exact ⟨distinct, by cbv, by decide, saves⟩

end Session

end Formula
