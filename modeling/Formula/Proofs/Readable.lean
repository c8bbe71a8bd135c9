import Formula.Proofs.Grammar
import Formula.Proofs.Rereading

/-! Reading what the grammar derives. Every symbol takes the reader from one stage to another, and
so does every form of a nonterminal. Main statement: a sentence is read to its end, to where a text
may end. -/
namespace Formula

open State Grammar

/-- What is part of a frame inside `rest` is, some bodies of `let`s further out, part of `home`
inside `outer`. -/
inductive Inside (home : Frame) (outer : List Level) : Frame → List Level → Prop where
  | here : Inside home outer home outer
  | body {o x b level rest} (inside : Inside home outer level.frame rest) :
    Inside home outer (.body o x b) (level :: rest)

/-- The bodies between two expressions that end together. -/
theorem Inside.endBodies {home frame : Frame} {outer rest : List Level}
    (inside : Inside home outer frame rest) (value : Draft) :
    ∃ d, endBodies frame value rest = endBodies home d outer := by
  induction inside generalizing value with
  | here => exact ⟨value, rfl⟩
  | body inside ih => exact ih _

/-- How far the reading of an expression is: the states it may be in, for each frame that it is
part of and the levels around it. -/
abbrev Stage := Frame → List Level → State → Prop

namespace Stage

/-- An operand or another argument may follow. -/
def anywhere : Stage := fun home outer s =>
  ∃ level rest, s = .within level rest ∧ Inside home outer level.frame rest

/-- An operand follows. -/
def before : Stage := fun home outer s =>
  ∃ level rest, s = .within level rest ∧ level.operand = none ∧ Inside home outer level.frame rest

/-- The expression may end. -/
def after : Stage := fun home outer s => ∃ level rest e, s = .within level rest ∧
  level.operand = some e ∧ Inside home outer level.frame rest

def afterOp : Stage := fun home outer s =>
  ∃ o level rest, s = .afterOp o level rest ∧ Inside home outer level.frame rest

def afterLet : Stage := fun home outer s =>
  ∃ o level rest, s = .afterLet o level rest ∧ Inside home outer level.frame rest

def afterName : Stage := fun home outer s =>
  ∃ o x level rest, s = .afterName o x level rest ∧ Inside home outer level.frame rest

/-- A stage of an expression that is part of the operand of another. -/
def nested (opened : Frame → Prop) (P : Stage) : Stage := fun home outer s =>
  ∃ frame level rest, opened frame ∧ P frame (level :: rest) s ∧ Inside home outer level.frame rest

def group : Frame → Prop := fun frame => ∃ o, frame = .group o

def bound : Frame → Prop := fun frame => ∃ o x, frame = .bound o x

def vector : Frame → Prop := fun frame => ∃ o es, frame = .vector o es

/-- Nothing of a vector has been read but its bracket. -/
def opened : Stage := fun home outer s => ∃ o level rest,
  s = .within (.fresh (.vector o [])) (level :: rest) ∧ Inside home outer level.frame rest

/-- A vector may end. -/
def closable : Stage := fun home outer s =>
  opened home outer s ∨ nested vector after home outer s

/-- The lexemes that take the reader from one stage to another. -/
def carries (P Q : Stage) : Language Lexeme :=
  {ls | ∀ home outer s, P home outer s → Runs s ls (Q home outer)}

variable {P P' Q Q' R : Stage} {A B : Language Lexeme}

theorem one_le_carries (stays : P ≤ Q) : 1 ≤ carries P Q := by
  rintro _ rfl home outer s here
  exact .nil (stays home outer s here)

theorem mul_le_carries (first : A ≤ carries P Q) (second : B ≤ carries Q R) :
    A * B ≤ carries P R := by
  intro ls words home outer s here
  obtain ⟨ks, front, ms, back, rfl⟩ := Language.mem_mul.1 words
  exact (first front home outer s here).append fun s' there => second back home outer s' there

theorem carries_mono (starts : P' ≤ P) (ends : Q ≤ Q') : carries P Q ≤ carries P' Q' :=
  fun _ reads home outer s here =>
    (reads home outer s (starts home outer s here)).mono fun s' there => ends home outer s' there

theorem carries_le_nested (opened : Frame → Prop) :
    carries P Q ≤ carries (nested opened P) (nested opened Q) := by
  rintro ls reads home outer s ⟨frame, level, rest, opens, here, inside⟩
  exact (reads frame (level :: rest) s here).mono fun s' there =>
    ⟨frame, level, rest, opens, there, inside⟩

end Stage

namespace Grammar

open Stage

/-- The lexemes that stand for a symbol: one of a kind, or those that take the reader from one stage
to another. -/
def meaning : Sym → Language Lexeme
  | .terminal t => {ls | ∃ l, ls = [l] ∧ l.Stands t}
  | .nonterminal .expression | .nonterminal .operand | .nonterminal .binding
  | .nonterminal .application => carries before after
  | .nonterminal .signs | .nonterminal .sign => carries before before
  | .nonterminal .operations | .nonterminal .atoms => carries after after
  | .nonterminal .connective => carries after before
  | .nonterminal .atom | .nonterminal .grouped | .nonterminal .vector
  | .nonterminal .opVariable => carries anywhere after
  | .nonterminal .elements => carries opened closable
  | .nonterminal .more => carries (nested Stage.vector after) (nested Stage.vector after)
  | .nonterminal .operator => carries afterOp after

theorem terminal_le_carries {t : Terminal} {P Q : Stage}
    (step : ∀ l, l.Stands t → ∀ home outer s, P home outer s → ∀ o,
      ∃ s', Step s ⟨o, l⟩ s' ∧ Q home outer s') : meaning (.terminal t) ≤ carries P Q := by
  rintro _ ⟨l, rfl, stands⟩ home outer s here
  refine .cons fun o => ?_
  obtain ⟨s', read, there⟩ := step l stands home outer s here o
  exact ⟨s', read, .nil there⟩

theorem before_le_anywhere : before ≤ anywhere := by
  rintro home outer s ⟨level, rest, rfl, _, inside⟩
  exact ⟨level, rest, rfl, inside⟩

theorem after_le_anywhere : after ≤ anywhere := by
  rintro home outer s ⟨level, rest, e, rfl, _, inside⟩
  exact ⟨level, rest, rfl, inside⟩

theorem after_addAtom {home : Frame} {outer rest : List Level} {level : Level}
    (inside : Inside home outer level.frame rest) (o : Nat) (e : Draft) :
    after home outer (.within (level.addAtom o e) rest) :=
  ⟨level.addAtom o e, rest, _, rfl, rfl, inside⟩

theorem nested_fresh {opens : Frame → Prop} {home frame : Frame} {outer rest : List Level}
    {level : Level} (opened : opens frame) (inside : Inside home outer level.frame rest) :
    nested opens before home outer (.within (.fresh frame) (level :: rest)) :=
  ⟨frame, level, rest, opened, ⟨_, _, rfl, rfl, .here⟩, inside⟩

theorem nested_ends {opens : Frame → Prop} {home : Frame} {outer : List Level} {s : State}
    (here : nested opens after home outer s) : ∃ frame level rest inner rest' e value,
      opens frame ∧ Inside home outer level.frame rest ∧ s = .within inner rest' ∧
      inner.operand = some e ∧ ended inner rest' e = endBodies frame value (level :: rest) := by
  obtain ⟨frame, level, rest, opened, ⟨inner, rest', e, rfl, operand, reached⟩, inside⟩ := here
  obtain ⟨value, ends⟩ := reached.endBodies (inner.finish e)
  exact ⟨frame, level, rest, inner, rest', e, value, opened, inside, rfl, operand, ends⟩

theorem atom_le_carries {t : Terminal} (atoms : ∀ l, l.Stands t → ∀ o, ∃ e, Atom o l e) :
    meaning (.terminal t) ≤ carries anywhere after := by
  refine terminal_le_carries fun l stands home outer s here o => ?_
  obtain ⟨level, rest, rfl, inside⟩ := here
  obtain ⟨e, atom⟩ := atoms l stands o
  exact ⟨_, .atom atom, after_addAtom inside o e⟩

theorem sign_le (op : Operator) (sign : op = .plus ∨ op = .minus) :
    meaning (.terminal (.symbol op)) ≤ carries before before := by
  refine terminal_le_carries fun l stands home outer s here o => ?_
  obtain ⟨level, rest, rfl, empty, inside⟩ := here
  cases stands
  obtain ⟨s, symbol⟩ : ∃ s, Sign.ofSymbol? op.symbol.toList = some s := by
    rcases sign with rfl | rfl
    · exact ⟨.plus, rfl⟩
    · exact ⟨.minus, rfl⟩
  exact ⟨_, .sign empty symbol, level.addSign o s, rest, rfl, empty, inside⟩

theorem connective_le (op : Operator) :
    meaning (.terminal (.symbol op)) ≤ carries after before := by
  refine terminal_le_carries fun l stands home outer s here o => ?_
  obtain ⟨level, rest, e, rfl, operand, inside⟩ := here
  cases stands
  exact ⟨_, .operator operand (Operator.ofSymbol?_symbol op), level.addOperator o op e, rest, rfl,
    rfl, inside⟩

theorem letWord_le : meaning (.terminal (.reserved "let".toList)) ≤ carries before afterLet := by
  refine terminal_le_carries fun l stands home outer s here o => ?_
  obtain ⟨level, rest, rfl, empty, inside⟩ := here
  cases stands
  exact ⟨_, .letWord empty, o, level, rest, rfl, inside⟩

theorem name_le : meaning (.terminal .identifier) ≤ carries afterLet afterName := by
  refine terminal_le_carries fun l stands home outer s here o => ?_
  obtain ⟨start, level, rest, rfl, inside⟩ := here
  cases stands with
  | identifier free => exact ⟨_, .name free, start, _, level, rest, rfl, inside⟩

theorem equals_le : meaning (.terminal .equals) ≤ carries afterName (nested bound before) := by
  refine terminal_le_carries fun l stands home outer s here o => ?_
  obtain ⟨start, x, level, rest, rfl, inside⟩ := here
  cases stands
  exact ⟨_, .equals, nested_fresh ⟨start, x, rfl⟩ inside⟩

theorem inWord_le :
    meaning (.terminal (.reserved "in".toList)) ≤ carries (nested bound after) before := by
  refine terminal_le_carries fun l stands home outer s here o => ?_
  obtain ⟨_, level, rest, inner, _, _, b, ⟨start, x, rfl⟩, inside, rfl, operand, ends⟩ :=
    nested_ends here
  cases stands
  exact ⟨_, .inWord operand ends, _, _, rfl, rfl, .body inside⟩

theorem openGroup_le :
    meaning (.terminal (.mark '(')) ≤ carries anywhere (nested group before) := by
  refine terminal_le_carries fun l stands home outer s here o => ?_
  obtain ⟨level, rest, rfl, inside⟩ := here
  cases stands
  exact ⟨_, .openGroup, nested_fresh ⟨o, rfl⟩ inside⟩

theorem closeGroup_le : meaning (.terminal (.mark ')')) ≤ carries (nested group after) after := by
  refine terminal_le_carries fun l stands home outer s here o => ?_
  obtain ⟨_, level, rest, inner, _, _, value, ⟨start, rfl⟩, inside, rfl, operand, ends⟩ :=
    nested_ends here
  cases stands
  exact ⟨_, .closeGroup operand ends, after_addAtom inside start value⟩

theorem openVector_le : meaning (.terminal (.mark '[')) ≤ carries anywhere opened := by
  refine terminal_le_carries fun l stands home outer s here o => ?_
  obtain ⟨level, rest, rfl, inside⟩ := here
  cases stands
  exact ⟨_, .openVector, o, level, rest, rfl, inside⟩

theorem closeVector_le : meaning (.terminal (.mark ']')) ≤ carries closable after := by
  refine terminal_le_carries fun l stands home outer s here o => ?_
  cases stands
  rcases here with ⟨start, level, rest, rfl, inside⟩ | some
  · exact ⟨_, .closeEmpty rfl rfl, after_addAtom inside start _⟩
  · obtain ⟨_, level, rest, inner, _, _, value, ⟨start, elems, rfl⟩, inside, rfl, operand, ends⟩ :=
      nested_ends some
    exact ⟨_, .closeVector operand ends, after_addAtom inside start _⟩

theorem comma_le : meaning (.terminal (.mark ',')) ≤
    carries (nested Stage.vector after) (nested Stage.vector before) := by
  refine terminal_le_carries fun l stands home outer s here o => ?_
  obtain ⟨_, level, rest, inner, _, _, value, ⟨start, elems, rfl⟩, inside, rfl, operand, ends⟩ :=
    nested_ends here
  cases stands
  exact ⟨_, .comma operand ends, nested_fresh ⟨start, _, rfl⟩ inside⟩

theorem opWord_le : meaning (.terminal (.reserved "op".toList)) ≤ carries anywhere afterOp := by
  refine terminal_le_carries fun l stands home outer s here o => ?_
  obtain ⟨level, rest, rfl, inside⟩ := here
  cases stands
  exact ⟨_, .op, o, level, rest, rfl, inside⟩

theorem named_le {t : Terminal} (names : ∀ l, l.Stands t → ∃ name, Named l name) :
    meaning (.terminal t) ≤ carries afterOp after := by
  refine terminal_le_carries fun l stands home outer s here o => ?_
  obtain ⟨start, level, rest, rfl, inside⟩ := here
  obtain ⟨name, named⟩ := names l stands
  exact ⟨_, .named named, after_addAtom inside start _⟩

theorem opened_le : opened ≤ nested Stage.vector before := by
  rintro home outer s ⟨start, level, rest, rfl, inside⟩
  exact nested_fresh ⟨start, [], rfl⟩ inside

theorem opened_le_closable : opened ≤ closable := fun _ _ _ here => .inl here

theorem nested_le_closable : nested Stage.vector after ≤ closable := fun _ _ _ here => .inr here

section Forms

variable {P Q R : Stage} {x : Sym} {form : List Sym}

theorem nil_le (stays : P ≤ Q) : (([] : List Sym).map meaning).prod ≤ carries P Q :=
  one_le_carries stays

theorem cons_le (first : meaning x ≤ carries P Q)
    (others : (form.map meaning).prod ≤ carries Q R) :
    ((x :: form).map meaning).prod ≤ carries P R :=
  mul_le_carries first others

theorem single_le (reads : meaning x ≤ carries P Q) : ([x].map meaning).prod ≤ carries P Q :=
  cons_le reads (nil_le le_rfl)

end Forms

/-- Every form of a nonterminal is read as the nonterminal is. An expression inside another is read at
its own stages, nested in those of the other. -/
theorem prod_meaning_le {A : Nonterminal} {form : List Sym} (member : form ∈ alternatives A) :
    (form.map meaning).prod ≤ meaning (.nonterminal A) := by
  have expression (opens : Frame → Prop) : meaning (.nonterminal .expression) ≤
      carries (nested opens before) (nested opens after) := carries_le_nested opens
  have atom : meaning (.nonterminal .atom) ≤ carries anywhere after := le_rfl
  cases A <;> simp only [alternatives, List.mem_cons, List.not_mem_nil, or_false] at member
  case expression =>
    subst member
    exact cons_le le_rfl (cons_le le_rfl (single_le le_rfl))
  case signs =>
    rcases member with rfl | rfl
    · exact nil_le le_rfl
    · exact cons_le le_rfl (single_le le_rfl)
  case sign =>
    rcases member with rfl | rfl
    · exact single_le (sign_le .plus (.inl rfl))
    · exact single_le (sign_le .minus (.inr rfl))
  case operations =>
    rcases member with rfl | rfl
    · exact nil_le le_rfl
    · exact cons_le le_rfl (cons_le le_rfl (cons_le le_rfl (single_le le_rfl)))
  case connective =>
    obtain ⟨op, rfl⟩ := mem_symbols.1 member
    exact single_le (connective_le op)
  case operand => rcases member with rfl | rfl <;> exact single_le le_rfl
  case binding =>
    subst member
    exact cons_le letWord_le (cons_le name_le (cons_le equals_le (cons_le (expression bound)
      (cons_le inWord_le (single_le le_rfl)))))
  case application =>
    subst member
    exact cons_le (atom.trans (carries_mono before_le_anywhere le_rfl)) (single_le le_rfl)
  case atoms =>
    rcases member with rfl | rfl
    · exact nil_le le_rfl
    · exact cons_le (atom.trans (carries_mono after_le_anywhere le_rfl)) (single_le le_rfl)
  case atom =>
    rcases member with rfl | rfl | rfl | rfl | rfl | rfl | rfl
    · refine single_le (atom_le_carries fun l stands o => ?_)
      cases stands with
      | number value => exact ⟨_, .numeral value⟩
    · refine single_le (atom_le_carries fun l stands o => ?_)
      cases stands
      exact ⟨_, .nan⟩
    · refine single_le (atom_le_carries fun l stands o => ?_)
      cases stands
      exact ⟨_, .infinity⟩
    · exact single_le le_rfl
    · exact single_le le_rfl
    · refine single_le (atom_le_carries fun l stands o => ?_)
      cases stands with
      | identifier free => exact ⟨_, .word free⟩
    · exact single_le le_rfl
  case grouped =>
    subst member
    exact cons_le openGroup_le (cons_le (expression group) (single_le closeGroup_le))
  case vector =>
    subst member
    exact cons_le openVector_le (cons_le le_rfl (single_le closeVector_le))
  case elements =>
    rcases member with rfl | rfl
    · exact nil_le opened_le_closable
    · exact cons_le ((expression Stage.vector).trans (carries_mono opened_le le_rfl))
        (single_le (carries_mono le_rfl nested_le_closable))
  case more =>
    rcases member with rfl | rfl
    · exact nil_le le_rfl
    · exact cons_le comma_le (cons_le (expression Stage.vector) (single_le le_rfl))
  case opVariable =>
    rcases member with rfl | rfl
    · refine cons_le opWord_le (single_le (named_le fun l stands => ?_))
      cases stands
      exact ⟨_, .sign⟩
    · exact cons_le opWord_le (single_le le_rfl)
  case operator =>
    rcases member with rfl | member
    · refine single_le (named_le fun l stands => ?_)
      cases stands with
      | otherOperator free none => exact ⟨_, .operator free⟩
    · obtain ⟨op, rfl⟩ := mem_symbols.1 member
      refine single_le (named_le fun l stands => ?_)
      cases stands
      exact ⟨_, .operator op.symbol_ne_equals⟩

theorem solves_meaning : Solves grammar meaning := fun _ member =>
  prod_meaning_le (mem_rules.1 member)

end Grammar

open Stage

/-- A sentence is read to where a text may end. -/
theorem runs_of_sentence {ls : List Lexeme} (stands : ∀ l ∈ ls, l.Stands l.terminal)
    (sentence : ls.map Lexeme.terminal ∈ grammar.language) :
    Runs .initial ls (after .whole []) := by
  have reads : ls ∈ meaning (.nonterminal .expression) * 1 :=
    solves_meaning.prod_le sentence
      (mem_prod_terminals meaning Lexeme.terminal fun l member => ⟨l, rfl, stands l member⟩)
  rw [mul_one] at reads
  exact reads .whole [] _ ⟨_, [], rfl, rfl, .here⟩

end Formula
