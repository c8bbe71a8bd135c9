import Formula.Proofs.Lexing
import Formula.Proofs.Reading

/-! What holds of every tree that is read: whatever holds of the operands that lexemes stand for, and
passes from the parts of an application, a vector or a `let` to the whole. -/
namespace Formula

/-- A property that passes to what signs, operators and arguments are joined to. -/
structure Joined (P : Draft → Prop) : Prop where
  sign {o : Nat} {e : Draft} (s : Sign) : P e → P (s.apply o e)
  join {o : Nat} {left right : Draft} (op : Operator) :
    P left → P right → P (op.join o left right)
  apply {o : Nat} {f x : Draft} : P f → P x → P (.apply o f x)

/-- A property that passes to every tree that reading builds, and one that every name of a `let` has. -/
structure Closed (P : Draft → Prop) (N : String → Prop) : Prop extends Joined P where
  atom {o : Nat} {l : Lexeme} {e : Draft} : l.Cut → State.Atom o l e → P e
  named {o : Nat} {l : Lexeme} {name : String} : l.Cut → State.Named l name → P (.var o name)
  vector {o : Nat} {es : List Draft} : (∀ e ∈ es, P e) → P (.vector o es)
  name {cs : List Char} : (Lexeme.word cs).Cut → cs ∉ State.reserved → N (String.ofList cs)
  letIn {o : Nat} {x : String} {b e : Draft} : N x → P b → P e → P (.letIn o x b e)

/-- All that has been read for the sake of a frame has a property. -/
def Frame.All (P : Draft → Prop) (N : String → Prop) : Frame → Prop
  | .whole | .group _ => True
  | .vector _ es => ∀ e ∈ es, P e
  | .bound _ x => N x
  | .body _ x b => N x ∧ P b

/-- All that has been read of an expression has a property. -/
structure Level.All (P : Draft → Prop) (N : String → Prop) (l : Level) : Prop where
  frame : l.frame.All P N
  terms : ∀ t ∈ l.terms, P t.1.operand
  operand : ∀ e, l.operand = some e → P e

/-- All that has been read of a text has a property. -/
def State.All (P : Draft → Prop) (N : String → Prop) : State → Prop
  | .within level outer | .afterOp _ level outer | .afterLet _ level outer =>
    ∀ l ∈ level :: outer, l.All P N
  | .afterName _ x level outer => N x ∧ ∀ l ∈ level :: outer, l.All P N

namespace Joined

variable {P : Draft → Prop} {N : String → Prop}

theorem term (joins : Joined P) {t : Term Nat} (operand : P t.operand) : P t.toExpr := by
  obtain ⟨signs, e⟩ := t
  unfold Term.toExpr
  induction signs generalizing e with
  | nil => exact operand
  | cons s signs ih => exact ih _ (joins.sign s.1 operand)

theorem joinLevel (joins : Joined P) (level : Nat) {first : Draft}
    {links : List (Link Draft Nat)} (head : P first) (each : ∀ link ∈ links, P link.operand) :
    P (joinLevel level first links).1 ∧
      ∀ link ∈ (joinLevel level first links).2, P link.operand := by
  induction links generalizing first with
  | nil => exact ⟨head, each⟩
  | cons link links ih =>
    have here := each link List.mem_cons_self
    have others := fun other member => each other (List.mem_cons_of_mem link member)
    unfold Formula.joinLevel
    split
    · exact ih (joins.join _ head here) others
    · obtain ⟨second, later⟩ := ih here others
      refine ⟨head, fun other member => ?_⟩
      rcases List.mem_cons.1 member with rfl | member
      · exact second
      · exact later other member

theorem joinLevels (joins : Joined P) {levels : List Nat} {first : Draft}
    {links : List (Link Draft Nat)} (head : P first) (each : ∀ link ∈ links, P link.operand) :
    P (joinLevels levels first links).1 := by
  unfold Formula.joinLevels
  induction levels generalizing first links with
  | nil => exact head
  | cons level levels ih =>
    obtain ⟨joined, later⟩ := joins.joinLevel level head each
    exact ih joined later

theorem chain (joins : Joined P) {c : Chain Nat} (first : P c.first.operand)
    (links : ∀ link ∈ c.links, P link.operand.operand) : P c.toExpr := by
  refine joins.joinLevels (joins.term first) fun link member => ?_
  obtain ⟨plain, found, rfl⟩ := List.mem_map.1 member
  exact joins.term (links plain found)

theorem finish (joins : Joined P) {level : Level} {e : Draft}
    (terms : ∀ t ∈ level.terms, P t.1.operand) (operand : P e) : P (level.finish e) := by
  have each (last : Term Nat) (links : List (Link (Term Nat) Nat))
      (ts : List (Term Nat × Operator × Nat)) (head : P last.operand)
      (tail : ∀ link ∈ links, P link.operand.operand) (before : ∀ t ∈ ts, P t.1.operand) :
      P (Level.chain last links ts).toExpr := by
    induction ts generalizing last links with
    | nil => exact joins.chain head tail
    | cons t ts ih =>
      obtain ⟨term, op, o⟩ := t
      refine ih term _ (before _ List.mem_cons_self) (fun link member => ?_)
        fun t member => before t (List.mem_cons_of_mem _ member)
      rcases List.mem_cons.1 member with rfl | member
      · exact head
      · exact tail link member
  exact each ⟨level.signs, e⟩ [] level.terms operand (fun _ member => by contradiction) terms

theorem addAtom (joins : Joined P) {level : Level} {o : Nat} {e : Draft}
    (all : level.All P N) (atom : P e) : (level.addAtom o e).All P N where
  frame := all.frame
  terms := all.terms
  operand := by
    intro f found
    cases operand : level.operand with
    | none => simp_all [Level.addAtom]
    | some g =>
      simp only [Level.addAtom, operand, Option.some.injEq] at found
      subst found
      exact joins.apply (all.operand g operand) atom

end Joined

namespace Closed

variable {P : Draft → Prop} {N : String → Prop}

theorem endBodies (closed : Closed P N) {frame : Frame} {value : Draft} {outer : List Level}
    (frameAll : frame.All P N) (valueAll : P value) (outerAll : ∀ l ∈ outer, l.All P N) :
    (endBodies frame value outer).frame.All P N ∧ P (endBodies frame value outer).value ∧
      ∀ l ∈ (endBodies frame value outer).outer, l.All P N := by
  induction outer generalizing frame value with
  | nil => exact ⟨frameAll, valueAll, outerAll⟩
  | cons level outer ih =>
    unfold Formula.endBodies
    split
    · have here := outerAll level List.mem_cons_self
      exact ih here.frame (closed.finish here.terms (closed.letIn frameAll.1 frameAll.2 valueAll))
        fun l member => outerAll l (List.mem_cons_of_mem _ member)
    · exact ⟨frameAll, valueAll, outerAll⟩

theorem ended (closed : Closed P N) {level : Level} {outer : List Level} {e : Draft}
    (all : ∀ l ∈ level :: outer, l.All P N) (operand : level.operand = some e)
    {result : Ended} (ends : State.ended level outer e = result) :
    result.frame.All P N ∧ P result.value ∧ ∀ l ∈ result.outer, l.All P N := by
  have here := all level List.mem_cons_self
  subst ends
  exact closed.endBodies here.frame (closed.finish here.terms (here.operand e operand))
    fun l member => all l (List.mem_cons_of_mem _ member)

/-- What holds of all that has been read holds after another token. -/
theorem step (closed : Closed P N) {s s' : State} {t : Token} (cut : t.lexeme.Cut)
    (step : State.Step s t s') (all : s.All P N) : s'.All P N := by
  have fresh {frame : Frame} (frameAll : frame.All P N) : (Level.fresh frame).All P N :=
    ⟨frameAll, fun _ member => by contradiction, fun _ found => by contradiction⟩
  cases step with
  | atom atom =>
    exact List.forall_mem_cons.2 ⟨closed.addAtom (List.forall_mem_cons.1 all).1 (closed.atom cut atom),
      (List.forall_mem_cons.1 all).2⟩
  | op | letWord => exact all
  | named named =>
    exact List.forall_mem_cons.2 ⟨closed.addAtom (List.forall_mem_cons.1 all).1 (closed.named cut named),
      (List.forall_mem_cons.1 all).2⟩
  | name free => exact ⟨closed.name cut free, all⟩
  | equals => exact List.forall_mem_cons.2 ⟨fresh all.1, all.2⟩
  | inWord operand ends =>
    obtain ⟨named, value, rest⟩ := closed.ended all operand ends
    exact List.forall_mem_cons.2 ⟨fresh ⟨named, value⟩, rest⟩
  | sign empty symbol =>
    obtain ⟨here, others⟩ := List.forall_mem_cons.1 all
    exact List.forall_mem_cons.2 ⟨⟨here.frame, here.terms, here.operand⟩, others⟩
  | operator operand symbol =>
    obtain ⟨here, others⟩ := List.forall_mem_cons.1 all
    refine List.forall_mem_cons.2 ⟨⟨here.frame, ?_, fun _ found => by contradiction⟩, others⟩
    exact List.forall_mem_cons.2 ⟨here.operand _ operand, here.terms⟩
  | openGroup => exact List.forall_mem_cons.2 ⟨fresh trivial, all⟩
  | openVector => exact List.forall_mem_cons.2 ⟨fresh (fun _ member => by contradiction), all⟩
  | closeEmpty isFresh frame =>
    obtain ⟨_, around, others⟩ := (List.forall_mem_cons.1 all).imp_right List.forall_mem_cons.1
    exact List.forall_mem_cons.2
      ⟨closed.addAtom around (closed.vector fun _ member => by contradiction), others⟩
  | closeGroup operand ends =>
    obtain ⟨_, value, rest⟩ := closed.ended all operand ends
    obtain ⟨around, others⟩ := List.forall_mem_cons.1 rest
    exact List.forall_mem_cons.2 ⟨closed.addAtom around value, others⟩
  | closeVector operand ends =>
    obtain ⟨elems, value, rest⟩ := closed.ended all operand ends
    obtain ⟨around, others⟩ := List.forall_mem_cons.1 rest
    refine List.forall_mem_cons.2 ⟨closed.addAtom around (closed.vector fun e member => ?_), others⟩
    rcases List.mem_cons.1 (List.mem_reverse.1 member) with rfl | member
    · exact value
    · exact elems e member
  | comma operand ends =>
    obtain ⟨elems, value, rest⟩ := closed.ended all operand ends
    exact List.forall_mem_cons.2 ⟨fresh (List.forall_mem_cons.2 ⟨value, elems⟩), rest⟩

theorem run (closed : Closed P N) {s s' : State} {ts : List Token}
    (cut : ∀ t ∈ ts, t.lexeme.Cut) (run : s.run ts = .ok s') (all : s.All P N) : s'.All P N := by
  induction ts generalizing s with
  | nil => cases run; exact all
  | cons t ts ih =>
    obtain ⟨middle, step, later⟩ := State.run_cons_ok.1 run
    exact ih (fun u member => cut u (List.mem_cons_of_mem _ member)) later
      (closed.step (cut t List.mem_cons_self) step all)

/-- What passes to every tree that reading builds holds of the tree of a text. -/
theorem readText (closed : Closed P N) {text : List Char} {tree : Draft}
    (read : readText text = .ok tree) : P tree := by
  obtain ⟨_, s, run, result⟩ := readText_ok.1 read
  have start : State.initial.All P N := List.forall_mem_singleton.2
    ⟨trivial, fun _ member => by contradiction, fun _ found => by contradiction⟩
  have all := closed.run (fun t member => Scan.cut_of_mem member) run start
  obtain ⟨level, outer, e, rfl, operand, ends⟩ := State.result?_some.1 result
  exact (closed.ended all operand ends).2.1

end Closed

end Formula
