import Formula.Parse
import Mathlib

/-! The steps of reading. Every step that is not refused is one of a few kinds; what is said about
reading is proved kind by kind. Main statement: the steps are exactly those of the kinds listed. -/
namespace Formula.State

/-- A lexeme that is an operand by itself. -/
inductive Atom (o : Nat) : Lexeme → Draft → Prop where
  | numeral {cs x} (value : Numeral.value? cs = some x) :
    Atom o (.numeral cs) (.literal o (.number x))
  | nan : Atom o (.word "NaN".toList) (.literal o (.number (0.0 / 0.0)))
  | infinity : Atom o (.word "Infinity".toList) (.literal o (.number (1.0 / 0.0)))
  | word {cs} (free : cs ∉ reserved) : Atom o (.word cs) (.var o (String.ofList cs))

/-- A lexeme that stands for a variable after `op`. -/
inductive Named : Lexeme → String → Prop where
  | sign {cs} : Named (.signName cs) (String.ofList cs)
  | operator {cs} (free : cs ≠ ['=']) : Named (.operators cs) (String.ofList cs)

/-- The kinds of steps. -/
inductive Step : State → Token → State → Prop where
  | atom {level outer o l e} (atom : Atom o l e) :
    Step (.within level outer) ⟨o, l⟩ (.within (level.addAtom o e) outer)
  | op {level outer o} : Step (.within level outer) ⟨o, .op⟩ (.afterOp o level outer)
  | named {level outer start o l name} (named : Named l name) :
    Step (.afterOp start level outer) ⟨o, l⟩ (.within (level.addAtom start (.var start name)) outer)
  | letWord {level outer o} (empty : level.operand = none) :
    Step (.within level outer) ⟨o, .word "let".toList⟩ (.afterLet o level outer)
  | name {level outer start o cs} (free : cs ∉ reserved) :
    Step (.afterLet start level outer) ⟨o, .word cs⟩
      (.afterName start (String.ofList cs) level outer)
  | equals {level outer start o name} :
    Step (.afterName start name level outer) ⟨o, .operators ['=']⟩
      (.within (.fresh (.bound start name)) (level :: outer))
  | inWord {level outer o e start name bound rest} (operand : level.operand = some e)
    (ends : ended level outer e = ⟨.bound start name, bound, rest⟩) :
    Step (.within level outer) ⟨o, .word "in".toList⟩
      (.within (.fresh (.body start name bound)) rest)
  | sign {level outer o cs s} (empty : level.operand = none) (symbol : Sign.ofSymbol? cs = some s) :
    Step (.within level outer) ⟨o, .operators cs⟩ (.within (level.addSign o s) outer)
  | operator {level outer o cs op e} (operand : level.operand = some e)
    (symbol : Operator.ofSymbol? cs = some op) :
    Step (.within level outer) ⟨o, .operators cs⟩ (.within (level.addOperator o op e) outer)
  | openGroup {level outer o} :
    Step (.within level outer) ⟨o, .mark '('⟩ (.within (.fresh (.group o)) (level :: outer))
  | openVector {level outer o} :
    Step (.within level outer) ⟨o, .mark '['⟩ (.within (.fresh (.vector o [])) (level :: outer))
  | closeEmpty {level around outer o start} (fresh : level.isFresh = true)
    (frame : level.frame = .vector start []) :
    Step (.within level (around :: outer)) ⟨o, .mark ']'⟩
      (.within (around.addAtom start (.vector start [])) outer)
  | closeGroup {level around outer rest o start e value} (operand : level.operand = some e)
    (ends : ended level outer e = ⟨.group start, value, around :: rest⟩) :
    Step (.within level outer) ⟨o, .mark ')'⟩ (.within (around.addAtom start value) rest)
  | closeVector {level around outer rest o start e value elems} (operand : level.operand = some e)
    (ends : ended level outer e = ⟨.vector start elems, value, around :: rest⟩) :
    Step (.within level outer) ⟨o, .mark ']'⟩
      (.within (around.addAtom start (.vector start (value :: elems).reverse)) rest)
  | comma {level around outer rest o start e value elems} (operand : level.operand = some e)
    (ends : ended level outer e = ⟨.vector start elems, value, around :: rest⟩) :
    Step (.within level outer) ⟨o, .mark ','⟩
      (.within (.fresh (.vector start (value :: elems))) (around :: rest))

variable {level : Level} {outer : List Level} {o : Nat}

theorem readWord_some {cs : List Char} {s : State} (read : readWord o cs level outer = some s) :
    Step (.within level outer) ⟨o, .word cs⟩ s := by
  unfold readWord at read
  split at read
  · next nan => cases read; subst nan; exact .atom .nan
  split at read
  · next infinity => cases read; subst infinity; exact .atom .infinity
  split at read
  · next op => cases read; subst op; exact .op
  split at read
  · next word =>
    subst word
    split at read
    · contradiction
    · next empty => cases read; exact .letWord (Option.not_isSome_iff_eq_none.1 empty)
  split at read
  · next word =>
    subst word
    split at read
    · contradiction
    · next operand =>
      split at read
      · next ends => cases read; exact .inWord operand ends
      · contradiction
  · cases read
    exact .atom (.word (by simp_all [reserved]))

theorem readOperators_some {cs : List Char} {s : State}
    (read : readOperators o cs level outer = some s) :
    Step (.within level outer) ⟨o, .operators cs⟩ s := by
  unfold readOperators at read
  split at read
  · next empty =>
    obtain ⟨sign, symbol, rfl⟩ := Option.map_eq_some_iff.1 read
    exact .sign empty symbol
  · next operand =>
    obtain ⟨op, symbol, rfl⟩ := Option.map_eq_some_iff.1 read
    exact .operator operand symbol

theorem readMark_some {c : Char} {s : State} (read : readMark o c level outer = some s) :
    Step (.within level outer) ⟨o, .mark c⟩ s := by
  unfold readMark at read
  split at read
  · next bracket => cases read; subst bracket; exact .openGroup
  split at read
  · next bracket => cases read; subst bracket; exact .openVector
  split at read
  · split at read
    · next fresh frame =>
      split at read
      · next bracket => cases read; subst bracket; exact .closeEmpty fresh frame
      · contradiction
    · contradiction
  · next operand =>
    split at read
    · next ends =>
      split at read
      · next bracket => cases read; subst bracket; exact .closeGroup operand ends
      · contradiction
    · next ends =>
      split at read
      · next bracket => cases read; subst bracket; exact .closeVector operand ends
      split at read
      · next comma => cases read; subst comma; exact .comma operand ends
      · contradiction
    · contradiction

theorem orUnexpected_ok {found : Option State} {s : State}
    (read : step.orUnexpected found = .ok s) : found = some s := by
  cases found <;> simp_all [step.orUnexpected]

/-- The steps are those of the kinds listed. -/
theorem step_ok_iff {s s' : State} {t : Token} : s.step t = .ok s' ↔ Step s t s' := by
  obtain ⟨o, l⟩ := t
  constructor
  · intro read
    unfold step at read
    split at read
    · next lexeme =>
      cases lexeme
      split at read
      · next value => cases read; exact .atom (.numeral value)
      · contradiction
    · next lexeme => cases lexeme; exact readWord_some (orUnexpected_ok read)
    · next lexeme => cases lexeme; exact readOperators_some (orUnexpected_ok read)
    · next lexeme => cases lexeme; exact readMark_some (orUnexpected_ok read)
    · next lexeme => cases lexeme; cases read; exact .named .sign
    · next lexeme =>
      cases lexeme
      split at read
      · contradiction
      · next free => cases read; exact .named (.operator free)
    · next lexeme =>
      cases lexeme
      split at read
      · contradiction
      · next free => cases read; exact .name (by simpa using free)
    · next lexeme =>
      cases lexeme
      split at read
      · next sign => cases read; subst sign; exact .equals
      · contradiction
    · contradiction
  · intro read
    cases read with
    | atom atom =>
      cases atom with
      | numeral value => simp [step, value]
      | nan | infinity => rfl
      | word free => simp_all [step, readWord, reserved, step.orUnexpected]
    | op => rfl
    | named named => cases named <;> simp_all [step]
    | letWord empty => simp [step, readWord, empty, step.orUnexpected]
    | name free => simp_all [step]
    | equals => simp [step]
    | inWord operand ends => simp [step, readWord, operand, ends, step.orUnexpected]
    | sign empty symbol => simp [step, readOperators, empty, symbol, step.orUnexpected]
    | operator operand symbol => simp [step, readOperators, operand, symbol, step.orUnexpected]
    | openGroup | openVector => simp [step, readMark, step.orUnexpected]
    | @closeEmpty level _ _ _ _ fresh frame =>
      have empty : level.operand = none := by simp_all [Level.isFresh]
      simp [step, readMark, empty, fresh, frame, step.orUnexpected]
    | closeGroup operand ends | closeVector operand ends | comma operand ends =>
      simp [step, readMark, operand, ends, step.orUnexpected]

theorem run_cons_ok {s s' : State} {t : Token} {ts : List Token} :
    s.run (t :: ts) = .ok s' ↔ ∃ middle, Step s t middle ∧ middle.run ts = .ok s' := by
  rw [run]
  split
  · next middle read =>
    constructor
    · exact fun later => ⟨middle, step_ok_iff.1 read, later⟩
    · rintro ⟨other, step, later⟩
      rw [step_ok_iff.2 step] at read
      cases read
      exact later
  · next read =>
    constructor
    · exact fun failed => by cases failed
    · rintro ⟨other, step, _⟩
      rw [step_ok_iff.2 step] at read
      contradiction

theorem run_append_ok {s s' : State} {ts us : List Token} :
    s.run (ts ++ us) = .ok s' ↔ ∃ middle, s.run ts = .ok middle ∧ middle.run us = .ok s' := by
  induction ts generalizing s with
  | nil => simp [run]
  | cons t ts ih =>
    rw [List.cons_append, run_cons_ok]
    constructor
    · rintro ⟨next, step, later⟩
      obtain ⟨middle, first, second⟩ := ih.1 later
      exact ⟨middle, run_cons_ok.2 ⟨next, step, first⟩, second⟩
    · rintro ⟨middle, first, second⟩
      obtain ⟨next, step, later⟩ := run_cons_ok.1 first
      exact ⟨next, step, ih.2 ⟨middle, later, second⟩⟩

theorem result?_some {s : State} {tree : Draft} :
    s.result? = some tree ↔ ∃ level outer e, s = .within level outer ∧ level.operand = some e ∧
      ended level outer e = ⟨.whole, tree, []⟩ := by
  constructor
  · intro found
    unfold result? at found
    split at found
    · next level outer =>
      split at found
      · contradiction
      · next e operand =>
        split at found
        · next ends => cases found; exact ⟨level, outer, e, rfl, operand, ends⟩
        · contradiction
    · contradiction
  · rintro ⟨level, outer, e, rfl, operand, ends⟩
    simp [result?, operand, ends]

end Formula.State

namespace Formula

/-- A text is read as the tree at the end of a run over all its tokens. -/
theorem readText_ok {text : List Char} {tree : Draft} :
    readText text = .ok tree ↔ (Scan.ofText text).rest = [] ∧
      ∃ s, State.initial.run (Scan.ofText text).tokens = .ok s ∧ s.result? = some tree := by
  unfold readText
  dsimp only
  constructor
  · intro read
    split at read
    · contradiction
    · next s run =>
      split at read
      · next rest result => cases read; exact ⟨rest, s, run, result⟩
      · contradiction
  · rintro ⟨rest, s, run, result⟩
    rw [run]
    simp only [rest, result]

/-- A text whose nesting stays within the limit is parsed as the tree it is read as. -/
theorem parseWithin_ok {limit : Nat} {source text : String} {tree : Expr Position} :
    parseWithin limit source text = .ok tree ↔ nestingExcess? limit text.toList = none ∧
      ∃ draft, readText text.toList = .ok draft ∧
        tree = draft.map (.ofOffset source text.toList) := by
  unfold parseWithin
  dsimp only
  constructor
  · intro parsed
    split at parsed
    · contradiction
    · next shallow =>
      split at parsed
      · next draft read => cases parsed; exact ⟨shallow, draft, read, rfl⟩
      · contradiction
  · rintro ⟨shallow, draft, read, rfl⟩
    rw [shallow, read]

end Formula
