import Formula.Proofs.Reading
import Formula.Proofs.Spelling

/-! Reading the lexemes of a tree. An expression, a function and an argument are read alike wherever they
stand. Main statement: the lexemes of a printable tree are read as a tree that is the same. -/
namespace Formula

namespace State

/-- Tokens with these lexemes are all read, and lead to a state with a property. -/
def Runs (s : State) (ls : List Lexeme) (Q : State → Prop) : Prop :=
  ∀ ts : List Token, ts.map Token.lexeme = ls → ∃ s', s.run ts = .ok s' ∧ Q s'

variable {s : State} {l : Lexeme} {ls ms : List Lexeme} {P Q : State → Prop}

theorem Runs.nil (here : Q s) : Runs s [] Q := by
  intro ts lexemes
  obtain rfl := List.map_eq_nil_iff.1 lexemes
  exact ⟨s, rfl, here⟩

theorem Runs.cons (step : ∀ o, ∃ s', Step s ⟨o, l⟩ s' ∧ Runs s' ls Q) : Runs s (l :: ls) Q := by
  intro ts lexemes
  obtain ⟨t, us, rfl, rfl, later⟩ := List.map_eq_cons_iff.1 lexemes
  obtain ⟨middle, first, others⟩ := step t.offset
  obtain ⟨s', run, found⟩ := others us later
  exact ⟨s', run_cons_ok.2 ⟨middle, first, run⟩, found⟩

theorem Runs.append (first : Runs s ls P) (second : ∀ s', P s' → Runs s' ms Q) :
    Runs s (ls ++ ms) Q := by
  intro ts lexemes
  obtain ⟨us, vs, rfl, before, later⟩ := List.map_eq_append_iff.1 lexemes
  obtain ⟨middle, run, found⟩ := first us before
  obtain ⟨s', run', found'⟩ := second middle found vs later
  exact ⟨s', run_append_ok.2 ⟨middle, run, run'⟩, found'⟩

theorem Runs.mono (runs : Runs s ls P) (weaker : ∀ s', P s' → Q s') : Runs s ls Q := by
  intro ts lexemes
  obtain ⟨s', run, found⟩ := runs ts lexemes
  exact ⟨s', run, weaker s' found⟩

end State

open State

namespace Expr

variable {α : Type} {e f x : Expr α} {t : α}

/-- The tree has been read as an operand, or as the next argument. -/
def Added (e : Expr α) (level : Level) (outer : List Level) (s : State) : Prop :=
  ∃ (o : Nat) (d : Draft), d.same e = true ∧ s = .within (level.addAtom o d) outer

/-- The tree has been read up to where an expression may end that is part of a frame. -/
def Finished (e : Expr α) (frame : Frame) (outer : List Level) (s : State) : Prop :=
  ∃ level rest operand, ∃ d : Draft, d.same e = true ∧ s = .within level rest ∧
    level.operand = some operand ∧ ended level rest operand = endBodies frame d outer

theorem Added.finished {frame : Frame} {outer : List Level} {s : State}
    (added : e.Added (.fresh frame) outer s) : e.Finished frame outer s := by
  obtain ⟨o, d, alike, rfl⟩ := added
  exact ⟨_, _, d, d, alike, rfl, rfl, rfl⟩

/-- The lexemes of a tree are read as the tree: where an expression may stand, as a function without
parentheses, and as an argument without parentheses. -/
structure Reread (e : Expr α) : Prop where
  whole (frame : Frame) (outer : List Level) :
    Runs (.within (.fresh frame) outer) e.lexemes (e.Finished frame outer)
  function (plain : e.bracketedAsFunction = false) (frame : Frame) (outer : List Level) :
    Runs (.within (.fresh frame) outer) e.lexemes (e.Added (.fresh frame) outer)
  argument (simple : e.isSimple = true) (level : Level) (outer : List Level) :
    Runs (.within level outer) e.lexemes (e.Added level outer)

theorem Reread.of_argument (runs : ∀ level outer,
    Runs (.within level outer) e.lexemes (e.Added level outer)) : e.Reread where
  whole frame outer := (runs (.fresh frame) outer).mono fun _ => Added.finished
  function _ frame outer := runs (.fresh frame) outer
  argument _ level outer := runs level outer

theorem Reread.group (reread : e.Reread) (level : Level) (outer : List Level) :
    Runs (.within level outer) (.mark '(' :: (e.lexemes ++ [.mark ')'])) (e.Added level outer) := by
  refine .cons fun o => ⟨_, .openGroup, (reread.whole (.group o) (level :: outer)).append ?_⟩
  rintro _ ⟨inner, rest, operand, d, alike, rfl, found, ends⟩
  exact .cons fun o' => ⟨_, .closeGroup found ends, .nil ⟨o, d, alike, rfl⟩⟩

theorem Reread.wrapped_argument (reread : x.Reread) (level : Level) (outer : List Level) :
    Runs (.within level outer) (wrappedLexemes (!x.isSimple) x.lexemes) (x.Added level outer) := by
  cases simple : x.isSimple with
  | false => exact reread.group level outer
  | true => exact reread.argument simple level outer

theorem Reread.wrapped_function (reread : f.Reread) (frame : Frame) (outer : List Level) :
    Runs (.within (.fresh frame) outer) (wrappedLexemes f.bracketedAsFunction f.lexemes)
      (f.Added (.fresh frame) outer) := by
  cases brackets : f.bracketedAsFunction with
  | false => exact reread.function brackets frame outer
  | true => exact reread.group (.fresh frame) outer

theorem runs_number {x : Float} {cs : List Char} {l : Lexeme} (form : NumberForm x cs l)
    (level : Level) (outer : List Level) :
    Runs (.within level outer) [l] ((literal t (.number x)).Added level outer) := by
  have added {o : Nat} {y : Float} (atom : Atom o l (.literal o (.number y)))
      (alike : sameNumber y x = true) : ∃ s', Step (.within level outer) ⟨o, l⟩ s' ∧
        Runs s' [] ((literal t (.number x)).Added level outer) := by
    refine ⟨_, .atom atom, .nil ⟨o, _, ?_, rfl⟩⟩
    rwa [same, Value.same]
  refine .cons fun o => ?_
  cases form with
  | nan nan =>
    have none : (0.0 / 0.0 : Float).isNaN = true := by decide
    exact added .nan (by rw [sameNumber, none, nan, Bool.and_self, Bool.or_true])
  | infinity infinite => exact added .infinity (sameNumber_iff.2 (.inl infinite.symm))
  | decimal form alike => exact added (.numeral form.value?) alike

theorem reread_var {name : String} (named : isVariable name = true) : (var t name).Reread := by
  refine .of_argument fun level outer => ?_
  have added (o : Nat) : (var t name).Added level outer
      (.within (level.addAtom o (.var o (String.ofList name.toList))) outer) :=
    ⟨o, _, by simp [same], rfl⟩
  unfold lexemes
  split_ifs with operator sign
  · have free : name.toList ≠ ['='] := fun same => by
      obtain rfl : name = "=" := String.toList_injective same
      revert named
      decide
    exact .cons fun o => ⟨_, .op, .cons fun o' => ⟨_, .named (.operator free), .nil (added o)⟩⟩
  · exact .cons fun o => ⟨_, .op, .cons fun o' => ⟨_, .named .sign, .nil (added o)⟩⟩
  · have free : name.toList ∉ reserved := by
      obtain ⟨c, cs, whole, _, _, free⟩ :=
        isIdentifier_iff.1 (isIdentifier_of_isVariable named operator sign)
      rwa [whole]
    exact .cons fun o => ⟨_, .atom (.word free), .nil (added o)⟩

theorem reread_apply (func : f.Reread) (arg : x.Reread) (sign : f.sign? = none) :
    (apply t f x).Reread := by
  have runs (frame : Frame) (outer : List Level) :
      Runs (.within (.fresh frame) outer) (apply t f x).lexemes
        ((apply t f x).Added (.fresh frame) outer) := by
    unfold lexemes
    simp only [sign]
    refine (func.wrapped_function frame outer).append ?_
    rintro _ ⟨o, g, alike, rfl⟩
    refine (arg.wrapped_argument _ _).mono ?_
    rintro _ ⟨o', y, alike', rfl⟩
    exact ⟨o', .apply o' g y, by rw [same, alike, alike']; rfl, rfl⟩
  exact {
    whole := fun frame outer => (runs frame outer).mono fun _ => Added.finished
    function := fun _ => runs
    argument := fun simple => by simp [isSimple] at simple }

theorem reread_sign {s : Sign} (arg : x.Reread) (sign : f.sign? = some s) :
    (apply t f x).Reread where
  function plain := by simp [bracketedAsFunction, sign] at plain
  argument simple := by simp [isSimple] at simple
  whole frame outer := by
    unfold lexemes
    simp only [sign]
    have symbol : Sign.ofSymbol? s.symbol.toList = some s := by cases s <;> decide
    refine .cons fun o => ⟨_, .sign rfl symbol, (arg.wrapped_argument _ _).mono ?_⟩
    rintro _ ⟨o', y, alike, rfl⟩
    refine ⟨_, _, y, s.apply o y, ?_, rfl, rfl, rfl⟩
    cases f with
    | var t name =>
      obtain rfl := ofName?_some sign
      simp [Sign.apply, same, alike]
    | _ => contradiction

theorem reread_letIn {name : String} {b : Expr α} (named : isIdentifier name = true)
    (bound : b.Reread) (body : e.Reread) : (letIn t name b e).Reread where
  function plain := by simp [bracketedAsFunction] at plain
  argument simple := by simp [isSimple] at simple
  whole frame outer := by
    obtain ⟨c, cs, whole, _, _, free⟩ := isIdentifier_iff.1 named
    rw [← whole] at free
    unfold lexemes
    refine .cons fun o => ⟨_, .letWord rfl, .cons fun o' => ⟨_, .name free, ?_⟩⟩
    refine .cons fun o' => ⟨_, .equals, (bound.whole _ _).append ?_⟩
    rintro _ ⟨level, rest, operand, d, alike, rfl, found, ends⟩
    refine .cons fun o' => ⟨_, .inWord found ends, (body.whole _ _).mono ?_⟩
    rintro _ ⟨level', rest', operand', d', alike', rfl, found', ends'⟩
    refine ⟨level', rest', operand', .letIn o (String.ofList name.toList) d d', ?_, rfl, found', ends'⟩
    simp [same, alike, alike']

theorem runs_elements {es : List (Expr α)} (each : ∀ e ∈ es, e.Reread) (some : es ≠ []) (o : Nat)
    (before : List Draft) (level : Level) (outer : List Level) :
    Runs (.within (.fresh (.vector o before)) (level :: outer)) (lexemesAll es ++ [.mark ']'])
      fun s => ∃ ds, sameAll ds es = true ∧
        s = .within (level.addAtom o (.vector o (before.reverse ++ ds))) outer := by
  induction es generalizing before with
  | nil => contradiction
  | cons e es ih =>
    have first := (each e List.mem_cons_self).whole (.vector o before) (level :: outer)
    cases es with
    | nil =>
      refine first.append ?_
      rintro _ ⟨inner, rest, operand, d, alike, rfl, found, ends⟩
      refine .cons fun o' => ⟨_, .closeVector found ends, .nil ⟨[d], ?_, ?_⟩⟩
      · simp [sameAll, alike]
      · simp
    | cons f es =>
      rw [lexemesAll_cons_cons, List.append_assoc]
      refine first.append ?_
      rintro _ ⟨inner, rest, operand, d, alike, rfl, found, ends⟩
      have later := ih (fun e member => each e (List.mem_cons_of_mem _ member)) (by simp)
        (d :: before)
      refine .cons fun o' => ⟨_, .comma found ends, later.mono ?_⟩
      rintro _ ⟨ds, others, rfl⟩
      exact ⟨d :: ds, by rw [sameAll, alike, others]; rfl, by simp⟩

theorem reread_vector {es : List (Expr α)} (each : ∀ e ∈ es, e.Reread) : (vector t es).Reread := by
  refine .of_argument fun level outer => ?_
  unfold lexemes
  refine .cons fun o => ⟨_, .openVector, ?_⟩
  by_cases some : es = []
  · subst some
    exact .cons fun o' => ⟨_, .closeEmpty rfl rfl, .nil ⟨o, .vector o [], rfl, rfl⟩⟩
  · refine (runs_elements each some o [] level outer).mono ?_
    rintro _ ⟨ds, alike, rfl⟩
    exact ⟨o, .vector o ds, by rwa [same], rfl⟩

/-- The lexemes of a printable tree are read as the tree. -/
theorem Printable.reread (printable : e.Printable) : e.Reread := by
  induction printable with
  | number unsigned => exact .of_argument (runs_number (numberForm unsigned))
  | vector elems ih => exact reread_vector ih
  | var named => exact reread_var named
  | @apply t f x func arg ihf ihx =>
    cases sign : f.sign? with
    | none => exact reread_apply ihf ihx sign
    | some s => exact reread_sign ihx sign
  | letIn named bound body ihb ihe => exact reread_letIn named ihb ihe

theorem Printable.readText (printable : e.Printable) :
    ∃ d : Draft, Formula.readText e.chars = .ok d ∧ d.same e = true := by
  obtain ⟨rest, lexemes⟩ := printable.ofText
  obtain ⟨s, run, level, outer, operand, d, alike, rfl, found, ends⟩ :=
    printable.reread.whole .whole [] _ lexemes
  exact ⟨d, readText_ok.2 ⟨rest, _, run, result?_some.2 ⟨level, outer, operand, rfl, found, ends⟩⟩,
    alike⟩

end Expr

end Formula
