import Formula.Proofs.NestingScan
import Formula.Proofs.ReadTrees
import Formula.Proofs.Trees

/-! How deep a tree nests whose text keeps to the limit. What the reader has open is part of what the
scan has open, as long as the scan takes nothing for a comment that opens a level. Main statement:
then no way down the tree goes through more vectors and `let`s than the limit says. -/
namespace Formula

namespace Expr

variable {α β : Type}

/-- Whether a node is a vector or a `let`. -/
def nests : Expr α → Bool
  | .vector _ _ | .letIn _ _ _ _ => true
  | _ => false

/-- A way from the root of a tree down to a leaf. -/
inductive Path : Expr α → List (Expr α) → Prop where
  | leaf {e} (bottom : e.children = []) : Path e [e]
  | node {e c p} (child : c ∈ e.children) (rest : Path c p) : Path e (e :: p)

mutual

/-- The most vectors and `let`s on a way down. -/
def levels : Expr α → Nat
  | .literal _ _ | .var _ _ => 0
  | .vector _ es => levelsAll es + 1
  | .apply _ f x => max (levels f) (levels x)
  | .letIn _ _ b e => max (levels b) (levels e) + 1

def levelsAll : List (Expr α) → Nat
  | [] => 0
  | e :: es => max (levels e) (levelsAll es)

end

theorem levelsAll_le {es : List (Expr α)} {n : Nat} :
    levelsAll es ≤ n ↔ ∀ e ∈ es, e.levels ≤ n := by
  induction es with
  | nil => simp [levelsAll]
  | cons e es ih => rw [levelsAll, Nat.max_le, ih, List.forall_mem_cons]

theorem levels_of_child {c e : Expr α} (child : c ∈ e.children) :
    c.levels + (if e.nests then 1 else 0) ≤ e.levels := by
  cases e with
  | literal | var => contradiction
  | vector t es =>
    have below := levelsAll_le.1 (Nat.le_refl (levelsAll es)) c child
    simp only [nests, levels, if_true]
    omega
  | apply t f x =>
    simp only [children, List.mem_cons, List.not_mem_nil, or_false] at child
    rcases child with rfl | rfl <;> simp [nests, levels]
  | letIn t x b e =>
    simp only [children, List.mem_cons, List.not_mem_nil, or_false] at child
    rcases child with rfl | rfl <;> simp [nests, levels]

theorem Path.nests_le {e : Expr α} {p : List (Expr α)} (path : e.Path p) :
    (p.filter nests).length ≤ e.levels := by
  induction path with
  | @leaf e bottom =>
    cases e with
    | vector t es => exact Nat.le_trans (List.length_filter_le _ _) (Nat.le_add_left 1 _)
    | letIn => contradiction
    | _ => simp [nests]
  | @node e c p child rest ih =>
    have step := levels_of_child child
    cases nesting : e.nests <;> simp [nesting] at step ⊢ <;> omega

theorem levels_map (f : α → β) (e : Expr α) : (e.map f).levels = e.levels := by
  induction e with
  | literal | var => rfl
  | vector t es ih =>
    rw [map, levels, levels]
    congr 1
    induction es with
    | nil => rfl
    | cons e es rest =>
      rw [mapAll, levelsAll, levelsAll, ih e List.mem_cons_self,
        rest fun c member => ih c (List.mem_cons_of_mem _ member)]
  | apply t g x ihg ihx => rw [map, levels, levels, ihg, ihx]
  | letIn t x b e ihb ihe => rw [map, levels, levels, ihb, ihe]

end Expr

/-- What a frame was opened by, as the scan counts it. -/
def Frame.opener? : Frame → Option Opener
  | .whole => none
  | .group _ | .vector _ _ => some .bracket
  | .bound _ _ | .body _ _ _ => some .binding

/-- What is open around an expression under construction. -/
def openers (ls : List Level) : List Opener := ls.filterMap fun l => l.frame.opener?

/-- What is open where reading has come to. -/
def State.openers : State → List Opener
  | .within level outer | .afterOp _ level outer => Formula.openers (level :: outer)
  | .afterLet _ level outer | .afterName _ _ level outer =>
    .binding :: Formula.openers (level :: outer)

theorem openers_cons (level : Level) (outer : List Level) :
    openers (level :: outer) = level.frame.opener?.toList ++ openers outer := by
  cases h : level.frame.opener? <;> simp [openers, h]

theorem openers_endBodies {frame : Frame} {value : Draft} {outer : List Level} {result : Ended}
    (ends : endBodies frame value outer = result) :
    ∃ n, frame.opener?.toList ++ openers outer =
      List.replicate n .binding ++ (result.frame.opener?.toList ++ openers result.outer) := by
  induction outer generalizing frame value with
  | nil => subst ends; exact ⟨0, rfl⟩
  | cons level outer ih =>
    unfold endBodies at ends
    split at ends
    · obtain ⟨n, around⟩ := ih ends
      exact ⟨n + 1, by rw [openers_cons, around]; rfl⟩
    · subst ends
      exact ⟨0, rfl⟩

theorem openers_ended {level : Level} {outer : List Level} {e : Draft} {result : Ended}
    (ends : State.ended level outer e = result) :
    ∃ n, openers (level :: outer) =
      List.replicate n .binding ++ (result.frame.opener?.toList ++ openers result.outer) := by
  rw [openers_cons]
  exact openers_endBodies ends

theorem sublist_ended {level : Level} {outer : List Level} {e : Draft} {result : Ended}
    (ends : State.ended level outer e = result) :
    (result.frame.opener?.toList ++ openers result.outer).Sublist (openers (level :: outer)) := by
  obtain ⟨n, same⟩ := openers_ended ends
  rw [same]
  exact List.sublist_append_right _ _

namespace Nesting

theorem sublist_endBindings {opened rest : List Opener}
    (part : (.bracket :: rest : List Opener).Sublist opened) :
    (.bracket :: rest : List Opener).Sublist (endBindings opened) := by
  induction opened with
  | nil => contradiction
  | cons o opened ih =>
    cases o with
    | bracket => exact part
    | binding =>
      cases part with
      | cons _ later => exact ih later

theorem sublist_closeBracket {opened rest : List Opener}
    (part : (.bracket :: rest : List Opener).Sublist opened) :
    rest.Sublist ((endBindings opened).drop 1) := by
  simpa using (sublist_endBindings part).drop 1

/-- What reading has open stays part of what the scan has open. -/
theorem openers_after {s s' : State} {o : Nat} {l : Lexeme} (step : State.Step s ⟨o, l⟩ s')
    {opened : List Opener} (part : s.openers.Sublist opened) : s'.openers.Sublist (after l opened) := by
  cases step with
  | atom atom =>
    cases atom with
    | numeral value => exact part
    | nan | infinity => exact part
    | @word cs free =>
      have noLet : cs ≠ ['l', 'e', 't'] := by rintro rfl; exact free (by decide)
      rwa [after, if_neg noLet]
  | op => exact part
  | named named => cases named <;> exact part
  | letWord empty => exact part.cons_cons _
  | @name _ _ _ _ cs free =>
    have noLet : cs ≠ ['l', 'e', 't'] := by rintro rfl; exact free (by decide)
    rwa [after, if_neg noLet]
  | equals => exact part
  | inWord operand ends => exact (sublist_ended ends).trans part
  | sign empty symbol => exact part
  | operator operand symbol => exact part
  | openGroup | openVector => exact part.cons_cons _
  | closeEmpty fresh frame =>
    rw [State.openers, openers_cons, frame] at part
    exact sublist_closeBracket part
  | closeGroup operand ends | closeVector operand ends =>
    exact sublist_closeBracket ((sublist_ended ends).trans part)
  | comma operand ends => exact sublist_endBindings ((sublist_ended ends).trans part)

theorem openers_sublist {s s' : State} {o : Nat} {l : Lexeme} (step : State.Step s ⟨o, l⟩ s')
    (closed : opens l = false) : s'.openers.Sublist s.openers := by
  cases step with
  | atom atom => exact List.Sublist.refl _
  | op | named | name | equals | sign | operator => exact List.Sublist.refl _
  | letWord | openGroup | openVector => simp [opens] at closed
  | inWord operand ends => exact sublist_ended ends
  | @closeEmpty level _ _ _ _ fresh frame =>
    rw [State.openers, State.openers, openers_cons level]
    exact List.sublist_append_right _ _
  | closeGroup operand ends | closeVector operand ends =>
    exact (List.sublist_cons_self _ _).trans (sublist_ended ends)
  | comma operand ends => exact sublist_ended ends

end Nesting

/-- Every tree that has been read nests no deeper than the limit allows where it stands. -/
def Nested (limit : Nat) : List Level → Prop
  | [] => True
  | level :: outer =>
    level.All (fun e => e.levels + (openers (level :: outer)).length ≤ limit) (fun _ => True) ∧
      Nested limit outer

/-- As `Nested`, for all that has been read of a text. -/
def State.Nested (limit : Nat) : State → Prop
  | .within level outer | .afterOp _ level outer | .afterLet _ level outer
  | .afterName _ _ level outer => Formula.Nested limit (level :: outer)

/-- Signs, operators and arguments do not nest. -/
theorem joined_levels (depth limit : Nat) : Joined fun e => e.levels + depth ≤ limit where
  sign := fun s operand => by simpa [Sign.apply, Expr.levels] using operand
  join := fun op left right => by
    simp only [Operator.join, Expr.levels] at *
    omega
  apply := fun func arg => by
    simp only [Expr.levels] at *
    omega

section Nested

variable {limit : Nat} {level : Level} {outer : List Level}

theorem nested_endBodies {frame : Frame} {value : Draft} {result : Ended}
    (frameAll : frame.All (fun e => e.levels + (frame.opener?.toList ++ openers outer).length ≤ limit)
      (fun _ => True))
    (valueAll : value.levels + (frame.opener?.toList ++ openers outer).length ≤ limit)
    (nested : Nested limit outer) (ends : endBodies frame value outer = result) :
    result.frame.All (fun e =>
        e.levels + (result.frame.opener?.toList ++ openers result.outer).length ≤ limit)
        (fun _ => True) ∧
      result.value.levels + (result.frame.opener?.toList ++ openers result.outer).length ≤ limit ∧
      Nested limit result.outer := by
  induction outer generalizing frame value with
  | nil => subst ends; exact ⟨frameAll, valueAll, nested⟩
  | cons level outer ih =>
    unfold endBodies at ends
    split at ends
    · obtain ⟨here, others⟩ := nested
      rw [openers_cons] at here
      refine ih here.frame ?_ others ends
      refine (joined_levels _ limit).finish here.terms ?_
      have bound := frameAll.2
      simp only [Frame.opener?, Option.toList, List.length_append, List.length_singleton,
        Expr.levels, openers_cons] at bound valueAll ⊢
      omega
    · subst ends
      exact ⟨frameAll, valueAll, nested⟩

theorem nested_ended (nested : Nested limit (level :: outer)) {e : Draft}
    (operand : level.operand = some e) {result : Ended}
    (ends : State.ended level outer e = result) :
    result.frame.All (fun e =>
        e.levels + (result.frame.opener?.toList ++ openers result.outer).length ≤ limit)
        (fun _ => True) ∧
      result.value.levels + (result.frame.opener?.toList ++ openers result.outer).length ≤ limit ∧
      Nested limit result.outer := by
  obtain ⟨here, others⟩ := nested
  rw [openers_cons] at here
  exact nested_endBodies here.frame
    ((joined_levels _ limit).finish here.terms (here.operand e operand)) others ends

theorem nested_addAtom (nested : Nested limit (level :: outer)) {o : Nat} {e : Draft}
    (atom : e.levels + (openers (level :: outer)).length ≤ limit) :
    Nested limit (level.addAtom o e :: outer) :=
  ⟨(joined_levels _ limit).addAtom nested.1 atom, nested.2⟩

theorem nested_fresh {frame : Frame}
    (frameAll : frame.All (fun e => e.levels + (frame.opener?.toList ++ openers outer).length ≤ limit)
      (fun _ => True)) (nested : Nested limit outer) : Nested limit (.fresh frame :: outer) := by
  refine ⟨⟨?_, fun _ member => by contradiction, fun _ found => by contradiction⟩, nested⟩
  rw [openers_cons]
  exact frameAll

theorem levels_vector {o : Nat} {es : List Draft} {outer : List Level}
    (each : ∀ e ∈ es, e.levels + (.bracket :: openers outer : List Opener).length ≤ limit)
    (room : (openers outer).length < limit) :
    (Expr.vector o es).levels + (openers outer).length ≤ limit := by
  have below : Expr.levelsAll es ≤ limit - (openers outer).length - 1 :=
    Expr.levelsAll_le.2 fun e member => by
      have here := each e member
      rw [List.length_cons] at here
      omega
  rw [Expr.levels]
  omega

theorem nested_step {s s' : State} {t : Token} (step : State.Step s t s')
    (deep : s.openers.length ≤ limit) (nested : s.Nested limit) : s'.Nested limit := by
  cases step with
  | atom atom =>
    rw [State.openers] at deep
    refine nested_addAtom nested ?_
    cases atom <;> simpa [Expr.levels] using deep
  | op | letWord => exact nested
  | named named =>
    rw [State.openers] at deep
    exact nested_addAtom nested (by simpa [Expr.levels] using deep)
  | name free => exact nested
  | equals => exact nested_fresh trivial nested
  | inWord operand ends =>
    obtain ⟨_, value, rest⟩ := nested_ended nested operand ends
    exact nested_fresh ⟨trivial, value⟩ rest
  | sign empty symbol => exact ⟨⟨nested.1.frame, nested.1.terms, nested.1.operand⟩, nested.2⟩
  | operator operand symbol =>
    refine ⟨⟨nested.1.frame, ?_, fun _ found => by contradiction⟩, nested.2⟩
    exact List.forall_mem_cons.2 ⟨nested.1.operand _ operand, nested.1.terms⟩
  | openGroup => exact nested_fresh trivial nested
  | openVector => exact nested_fresh (fun _ member => by contradiction) nested
  | @closeEmpty level around outer _ _ fresh frame =>
    refine nested_addAtom nested.2 ?_
    rw [State.openers, openers_cons level, frame] at deep
    exact levels_vector (fun _ member => by contradiction) deep
  | closeGroup operand ends =>
    obtain ⟨_, value, rest⟩ := nested_ended nested operand ends
    refine nested_addAtom rest ?_
    simp only [Frame.opener?, List.length_append] at value
    omega
  | closeVector operand ends =>
    obtain ⟨elems, value, rest⟩ := nested_ended nested operand ends
    refine nested_addAtom rest (levels_vector (fun e member => ?_) ?_)
    · rcases List.mem_cons.1 (List.mem_reverse.1 member) with rfl | member
      · exact value
      · exact elems e member
    · exact Nat.lt_of_lt_of_le (Nat.lt_succ_self _) (Nat.le_trans (Nat.le_add_left _ _) value)
  | comma operand ends =>
    obtain ⟨elems, value, rest⟩ := nested_ended nested operand ends
    exact nested_fresh (List.forall_mem_cons.2 ⟨value, elems⟩) rest

end Nested

namespace Nesting

/-- A token that opens a level behind a `#` of the same line: the scan takes it for part of a comment,
although a carriage return has ended the comment. -/
def Hidden (text : List Char) (t : Token) : Prop :=
  opens t.lexeme = true ∧ ∃ before later, text = before ++ later ∧ byteLength before = t.offset ∧
    '#' ∈ lastLine before

instance (text : List Char) (t : Token) : Decidable (Hidden text t) :=
  decidable_of_iff (opens t.lexeme = true ∧
      ∃ before ∈ text.inits, byteLength before = t.offset ∧ '#' ∈ lastLine before) (by
    simp only [List.mem_inits]
    constructor
    · rintro ⟨opening, before, ⟨later, whole⟩, size, marked⟩
      exact ⟨opening, before, later, whole.symm, size, marked⟩
    · rintro ⟨opening, before, later, whole, size, marked⟩
      exact ⟨opening, before, ⟨later, whole.symm⟩, size, marked⟩)

/-- Reading has an operand before it, so that no `let` may follow. -/
def HasOperand (s : State) : Prop :=
  ∃ level outer e, s = .within level outer ∧ level.operand = some e

/-- What reading has open is within what the scan has open, and that is within the limit. -/
structure Covers (limit : Nat) (m : Mode) (opened : List Opener) (s : State) : Prop where
  part : s.openers.Sublist opened
  shallow : opened.length ≤ limit
  word : m = .inWord → HasOperand s

variable {limit : Nat} {text : List Char} {m : Mode} {opened : List Opener} {offset : Nat}
  {cs rest : List Char} {afterOp : Bool} {l : Lexeme} {s s' : State}

theorem length_after_le (shallow : opened.length ≤ limit)
    (room : opens l = true → opened.length < limit) : (after l opened).length ≤ limit := by
  have ended : (endBindings opened).length ≤ opened.length :=
    (List.dropWhile_sublist _).length_le
  cases l with
  | mark c =>
    simp only [opens, Bool.or_eq_true, decide_eq_true_eq] at room
    rw [after]
    split_ifs with opening
    · exact room opening
    · rw [List.length_drop]
      omega
    · exact ended.trans shallow
    · exact shallow
  | word cs =>
    simp only [opens, decide_eq_true_eq] at room
    rw [after]
    split_ifs with opening
    · exact room opening
    · exact shallow
  | _ => exact shallow

theorem hasOperand_numeral {t : List Char} (step : State.Step s ⟨offset, .numeral t⟩ s') :
    HasOperand s' := by
  cases step with
  | atom atom => exact ⟨_, _, _, rfl, rfl⟩
  | named named => cases named

theorem HasOperand.not_opens {t : List Char} (operand : HasOperand s)
    (word : l = .numeral t ∨ l = .word t) (step : State.Step s ⟨offset, l⟩ s') : opens l = false := by
  obtain ⟨level, outer, e, rfl, some⟩ := operand
  rcases word with rfl | rfl
  · rfl
  · cases step with
    | atom atom =>
      cases atom with
      | nan | infinity => decide
      | word free =>
        have noLet : t ≠ ['l', 'e', 't'] := by rintro rfl; exact free (by decide)
        simp [opens, noLet]
    | op | inWord => decide
    | letWord empty => rw [some] at empty; contradiction

/-- Where no level is opened behind a `#`, a step of reading keeps to what the scan has open. -/
theorem Covers.step (covers : Covers limit m opened s)
    (follows : Follows limit text m opened offset cs) (cuts : Lexeme.Cuts afterOp cs l rest)
    (step : State.Step s ⟨offset, l⟩ s') (seen : ¬ Hidden text ⟨offset, l⟩) :
    ∃ m' opened', Follows limit text m' opened' (offset + l.text.length) rest ∧
      Covers limit m' opened' s' := by
  have whenAligned (aligned : Follows limit text .aligned opened offset cs) :
      ∃ m' opened', Follows limit text m' opened' (offset + l.text.length) rest ∧
        Covers limit m' opened' s' := by
    obtain ⟨room, m', next, _, word⟩ := aligned.lexeme_aligned cuts
    refine ⟨m', after l opened, next, openers_after step covers.part,
      length_after_le covers.shallow room, fun inWord => ?_⟩
    obtain ⟨t, rfl⟩ := word inWord
    exact hasOperand_numeral step
  cases m with
  | aligned => exact whenAligned follows
  | inWord =>
    rcases follows.lexeme_inWord cuts with aligned | ⟨⟨t, word⟩, m', next, _, numeral⟩
    · exact whenAligned aligned
    · have closed := (covers.word rfl).not_opens word step
      refine ⟨m', opened, next, (openers_sublist step closed).trans covers.part, covers.shallow,
        fun inWord => ?_⟩
      obtain ⟨t, rfl⟩ := numeral inWord
      exact hasOperand_numeral step
  | inComment =>
    obtain ⟨before, place, size, marked⟩ := follows.place
    have closed : opens l = false := Bool.eq_false_iff.2 fun opening =>
      seen ⟨opening, before, cs, place, size, marked rfl⟩
    exact ⟨.inComment, opened, follows.lexeme_inComment cuts,
      (openers_sublist step closed).trans covers.part, covers.shallow, nofun⟩

/-- Reading a text that the scan passes keeps what has been read within the limit. -/
theorem Covers.run (covers : Covers limit m opened s)
    (follows : Follows limit text m opened offset cs)
    (seen : ∀ t ∈ (Scan.scanFrom afterOp offset cs).tokens, ¬ Hidden text t)
    (nested : s.Nested limit) (run : s.run (Scan.scanFrom afterOp offset cs).tokens = .ok s') :
    s'.Nested limit := by
  induction afterOp, offset, cs using Scan.scanFrom.induct generalizing m opened s with
  | @case1 afterOp offset cs start stops =>
    rw [Scan.scanFrom_none stops] at run
    cases run
    exact nested
  | @case2 afterOp offset cs start l rest found ih =>
    rw [Scan.scanFrom_some found] at run seen
    obtain ⟨here, later⟩ := List.forall_mem_cons.1 seen
    obtain ⟨middle, step, run⟩ := State.run_cons_ok.1 run
    obtain ⟨m', next, word⟩ := follows.layout (fun inside : false = true => by contradiction)
    have covers : Covers limit m' opened s :=
      ⟨covers.part, covers.shallow, fun inWord => covers.word (word inWord)⟩
    have deep : s.openers.length ≤ limit := covers.part.length_le.trans covers.shallow
    obtain ⟨m'', opened', next, covers⟩ :=
      covers.step next (Lexeme.cut?_some_iff.1 found) step here
    exact ih covers next later (nested_step step deep nested) run

end Nesting

/-- Where no level is opened behind a `#` of the same line, no way from the root of a tree to a leaf
goes through more vectors and `let`s than the limit says. -/
theorem parseWithin_nests_le {limit : Nat} {source text : String} {tree : Expr Position}
    (parsed : parseWithin limit source text = .ok tree)
    (seen : ∀ t ∈ (Scan.ofText text.toList).tokens, ¬ Nesting.Hidden text.toList t)
    {path : List (Expr Position)} (down : tree.Path path) :
    (path.filter Expr.nests).length ≤ limit := by
  obtain ⟨shallow, draft, read, rfl⟩ := parseWithin_ok.1 parsed
  obtain ⟨_, s, run, result⟩ := readText_ok.1 read
  have follows : Nesting.Follows limit text.toList .aligned [] 0 text.toList :=
    ⟨⟨[], rfl, rfl, nofun⟩, 0, 0, shallow⟩
  have covers : Nesting.Covers limit .aligned [] .initial :=
    ⟨List.Sublist.refl _, Nat.zero_le _, nofun⟩
  have start : State.initial.Nested limit :=
    nested_fresh trivial trivial
  have nested := covers.run follows seen start run
  obtain ⟨level, outer, e, rfl, operand, ends⟩ := State.result?_some.1 result
  obtain ⟨_, value, _⟩ := nested_ended nested operand ends
  have levels := down.nests_le
  rw [Expr.levels_map] at levels
  exact levels.trans (Nat.le_of_add_right_le value)

/-- The tree of a text with a bracket in a comment. -/
def commented : Expr Position :=
  .vector ⟨"s", 2, 1, 4⟩ [.letIn ⟨"s", 2, 2, 5⟩ "x" (.var ⟨"s", 2, 10, 13⟩ "y")
    (.vector ⟨"s", 2, 15, 18⟩ [.var ⟨"s", 2, 16, 19⟩ "x"])]

theorem parseWithin_nests_le_commented :
    ∃ path, commented.Path path ∧ path.length = 4 ∧ (path.filter Expr.nests).length ≤ 3 := by
  have parsed : parseWithin 3 "s" "# [\n[let x = y in [x]]" = .ok commented := by
    with_unfolding_all rfl
  have down : commented.Path [commented, _, _, _] :=
    .node List.mem_cons_self
      (.node (List.mem_cons_of_mem _ List.mem_cons_self) (.node List.mem_cons_self (.leaf rfl)))
  exact ⟨_, down, rfl, parseWithin_nests_le parsed (by decide +kernel) down⟩

/-- Behind a carriage return brackets are read that the scan takes for part of a comment. -/
example : (parseWithin 1 "s" "#\r[[x]]").toOption.map Expr.levels = some 2 := by decide +kernel

end Formula
