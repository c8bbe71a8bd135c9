import Formula.Proofs.Derivable
import Formula.Proofs.Precedence

/-! The phrases of a text and their trees, said without the reader: lexemes make up atoms, atoms make up
applications, and applications with signs and operators make up chains, which are grouped by
precedence. Main statements: tokens that form a phrase are read as its tree wherever the phrase
may stand, and a text is parsed as a tree exactly when its tokens form a chain of which it is the
grouped tree. -/
namespace Formula

open State Grammar

/-- Signs in the order in which they are written, as tokens. -/
def Sign.tokens (signs : List (Sign × Nat)) : List Token :=
  signs.map fun (s, o) => ⟨o, .operators s.symbol.toList⟩

/-- What tokens may form. An atom has the offset at which it starts. -/
inductive Phrase where
  | atom (offset : Nat) (tree : Draft)
  | elements (trees : List Draft)
  | application (tree : Draft)
  | operand (tree : Draft)
  | chain (terms : Chain Nat)
  | expression (tree : Draft)

/-- Whether tokens form a phrase. Only the last operand of a chain may be a `let`, whose body takes
the operators behind it. -/
inductive Forms : List Token → Phrase → Prop where
  | lexeme {o l e} (atom : Atom o l e) : Forms [⟨o, l⟩] (.atom o e)
  | named {o p l name} (named : Named l name) : Forms [⟨o, .op⟩, ⟨p, l⟩] (.atom o (.var o name))
  | group {o p ts e} (inner : Forms ts (.expression e)) :
    Forms (⟨o, .mark '('⟩ :: (ts ++ [⟨p, .mark ')'⟩])) (.atom o e)
  | emptyVector {o p} : Forms [⟨o, .mark '['⟩, ⟨p, .mark ']'⟩] (.atom o (.vector o []))
  | vector {o p ts es} (elems : Forms ts (.elements es)) :
    Forms (⟨o, .mark '['⟩ :: (ts ++ [⟨p, .mark ']'⟩])) (.atom o (.vector o es))
  | element {ts e} (elem : Forms ts (.expression e)) : Forms ts (.elements [e])
  | more {p ts us e es} (elem : Forms ts (.expression e)) (others : Forms us (.elements es)) :
    Forms (ts ++ ⟨p, .mark ','⟩ :: us) (.elements (e :: es))
  | function {o ts e} (atom : Forms ts (.atom o e)) : Forms ts (.application e)
  | argument {o ts us f x} (func : Forms ts (.application f)) (arg : Forms us (.atom o x)) :
    Forms (ts ++ us) (.application (.apply o f x))
  | applied {ts e} (application : Forms ts (.application e)) : Forms ts (.operand e)
  | binding {o p q r cs bs es b e} (free : cs ∉ reserved) (bound : Forms bs (.expression b))
    (body : Forms es (.expression e)) :
    Forms (⟨o, .word "let".toList⟩ :: ⟨p, .word cs⟩ :: ⟨q, .operators ['=']⟩ ::
      (bs ++ ⟨r, .word "in".toList⟩ :: es)) (.operand (.letIn o (String.ofList cs) b e))
  | term {signs ts e} (operand : Forms ts (.operand e)) :
    Forms (Sign.tokens signs ++ ts) (.chain ⟨⟨signs.reverse, e⟩, []⟩)
  | link {signs ts e o us c} {op : Operator} (operand : Forms ts (.application e))
    (others : Forms us (.chain c)) :
    Forms (Sign.tokens signs ++ (ts ++ ⟨o, .operators op.symbol.toList⟩ :: us))
      (.chain ⟨⟨signs.reverse, e⟩, ⟨op, o, c.first⟩ :: c.links⟩)
  | grouped {ts c} (chain : Forms ts (.chain c)) : Forms ts (.expression c.grouped)

section Places

variable (f : Nat → Nat)

/-- The token at another place. -/
def Token.move (t : Token) : Token := ⟨f t.offset, t.lexeme⟩

/-- The phrase with every place replaced. -/
def Phrase.move : Phrase → Phrase
  | .atom o e => .atom (f o) (e.map f)
  | .elements es => .elements (Expr.mapAll f es)
  | .application e => .application (e.map f)
  | .operand e => .operand (e.map f)
  | .chain c => .chain (c.map f)
  | .expression e => .expression (e.map f)

theorem Sign.tokens_move (signs : List (Sign × Nat)) :
    (tokens signs).map (Token.move f) = tokens (signs.map (Prod.map id f)) := by
  simp [tokens, Token.move]

theorem State.Atom.move {o : Nat} {l : Lexeme} {e : Draft} (atom : Atom o l e) :
    Atom (f o) l (e.map f) := by
  cases atom with
  | numeral value => exact .numeral value
  | nan => exact .nan
  | infinity => exact .infinity
  | word free => exact .word free

theorem Forms.move {ts : List Token} {φ : Phrase} (forms : Forms ts φ) :
    Forms (ts.map (Token.move f)) (φ.move f) := by
  induction forms with
  | lexeme atom => exact .lexeme (atom.move f)
  | named named => exact .named named
  | group _ inner =>
    rw [List.map_cons, List.map_append]
    exact .group inner
  | emptyVector => exact .emptyVector
  | vector _ elems =>
    rw [List.map_cons, List.map_append]
    exact .vector elems
  | element _ elem => exact .element elem
  | more _ _ elem others =>
    rw [List.map_append]
    exact .more elem others
  | function _ atom => exact .function atom
  | argument _ _ func arg =>
    rw [List.map_append]
    exact .argument func arg
  | applied _ application => exact .applied application
  | binding free _ _ bound body =>
    simp only [List.map_cons, List.map_append]
    exact .binding free bound body
  | @term signs ts e _ operand =>
    have moved : Forms (Sign.tokens (signs.map (Prod.map id f)) ++ ts.map (Token.move f)) _ :=
      .term operand
    rwa [← List.map_reverse, ← Sign.tokens_move, ← List.map_append] at moved
  | @link signs ts e o us c op _ _ operand others =>
    have moved : Forms (Sign.tokens (signs.map (Prod.map id f)) ++ (ts.map (Token.move f) ++
        ⟨f o, .operators op.symbol.toList⟩ :: us.map (Token.move f))) _ := .link operand others
    rw [← List.map_reverse, ← Sign.tokens_move] at moved
    simp only [List.map_append, List.map_cons]
    exact moved
  | grouped _ chain =>
    rw [Phrase.move, ← Chain.grouped_map]
    exact .grouped chain

end Places

/-- From a state all tokens are read, up to where an expression may end that is part of a frame and
has a value. -/
def State.Ends (s : State) (ts : List Token) (frame : Frame) (value : Draft) (outer : List Level) :
    Prop :=
  ∃ level rest operand, s.run ts = .ok (.within level rest) ∧ level.operand = some operand ∧
    ended level rest operand = endBodies frame value outer

/-- Tokens are read as a phrase wherever the phrase may stand. -/
def Phrase.Read (ts : List Token) : Phrase → Prop
  | .atom o e => ∀ level outer,
    (State.within level outer).run ts = .ok (.within (level.addAtom o e) outer)
  | .elements es => ∀ o before level outer, ∃ front last, es = front ++ [last] ∧
    (State.within (.fresh (.vector o before)) (level :: outer)).Ends ts
      (.vector o (front.reverse ++ before)) last (level :: outer)
  | .application e => ∀ (level : Level) outer, level.operand = none →
    (State.within level outer).run ts = .ok (.within { level with operand := some e } outer)
  | .operand e => ∀ (level : Level) outer, level.operand = none →
    (State.within level outer).Ends ts level.frame (level.finish e) outer
  | .chain c => ∀ (level : Level) outer, level.operand = none → level.signs = [] →
    (State.within level outer).Ends ts level.frame
      (Level.chain c.first c.links level.terms).toExpr outer
  | .expression e => ∀ frame outer,
    (State.within (.fresh frame) outer).Ends ts frame e outer

namespace State

variable {s s' middle : State} {t : Token} {ts us : List Token} {frame : Frame} {value : Draft}
  {outer : List Level}

theorem run_append (first : s.run ts = .ok middle) (second : middle.run us = .ok s') :
    s.run (ts ++ us) = .ok s' :=
  run_append_ok.2 ⟨middle, first, second⟩

theorem run_cons (step : Step s t middle) (later : middle.run ts = .ok s') :
    s.run (t :: ts) = .ok s' :=
  run_cons_ok.2 ⟨middle, step, later⟩

theorem run_single (step : Step s t s') : s.run [t] = .ok s' := run_cons step rfl

theorem Ends.append (first : s.run ts = .ok middle) (second : middle.Ends us frame value outer) :
    s.Ends (ts ++ us) frame value outer := by
  obtain ⟨level, rest, operand, run, found, ends⟩ := second
  exact ⟨level, rest, operand, run_append first run, found, ends⟩

theorem Ends.cons (step : Step s t middle) (later : middle.Ends ts frame value outer) :
    s.Ends (t :: ts) frame value outer := by
  obtain ⟨level, rest, operand, run, found, ends⟩ := later
  exact ⟨level, rest, operand, run_cons step run, found, ends⟩

theorem run_signs (signs : List (Sign × Nat)) {level : Level} (empty : level.operand = none)
    (outer : List Level) : (within level outer).run (Sign.tokens signs) =
      .ok (.within { level with signs := signs.reverse ++ level.signs } outer) := by
  induction signs generalizing level with
  | nil => rfl
  | cons sign signs ih =>
    obtain ⟨s, o⟩ := sign
    have symbol : Sign.ofSymbol? s.symbol.toList = some s := by cases s <;> decide
    refine run_cons (.sign empty symbol) ((@ih (level.addSign o s) empty).trans ?_)
    simp [Level.addSign]

end State

namespace Forms

variable {ts : List Token} {φ : Phrase}

theorem read (forms : Forms ts φ) : φ.Read ts := by
  -- Each part is read inside the levels that the lexemes around it have opened.
  induction forms with
  | lexeme atom => exact fun level outer => run_single (.atom atom)
  | named named => exact fun level outer => run_cons .op (run_single (.named named))
  | group _ inner =>
    intro level outer
    obtain ⟨deepest, rest, operand, run, found, ends⟩ := inner (.group _) (level :: outer)
    exact run_cons .openGroup (run_append run (run_single (.closeGroup found ends)))
  | emptyVector =>
    exact fun level outer => run_cons .openVector (run_single (.closeEmpty rfl rfl))
  | vector _ elems =>
    intro level outer
    obtain ⟨front, last, rfl, deepest, rest, operand, run, found, ends⟩ := elems _ [] level outer
    refine run_cons .openVector (run_append run ((run_single (.closeVector found ends)).trans ?_))
    simp
  | element _ elem =>
    intro o before level outer
    exact ⟨[], _, rfl, elem (.vector o before) (level :: outer)⟩
  | @more p ts us e es _ _ elem others =>
    intro o before level outer
    obtain ⟨deepest, rest, operand, run, found, ends⟩ := elem (.vector o before) (level :: outer)
    obtain ⟨front, last, rfl, later⟩ := others o (e :: before) level outer
    refine ⟨e :: front, last, rfl, ?_⟩
    rw [List.reverse_cons, List.append_assoc]
    exact .append run (.cons (.comma found ends) later)
  | function _ atom =>
    intro level outer empty
    rw [atom level outer, Level.addAtom, empty]
  | argument _ _ func arg =>
    intro level outer empty
    exact run_append (func level outer empty) (arg _ outer)
  | applied _ application =>
    intro level outer empty
    exact ⟨_, outer, _, application level outer empty, rfl, rfl⟩
  | binding free _ _ bound body =>
    intro level outer empty
    obtain ⟨deepest, rest, operand, run, found, ends⟩ := bound (.bound _ _) (level :: outer)
    exact .cons (.letWord empty) (.cons (.name free) (.cons .equals
      (.append run (.cons (.inWord found ends) (body (.body _ _ _) (level :: outer))))))
  | @term signs ts e _ operand =>
    intro level outer empty none
    have before := run_signs signs empty outer
    rw [none, List.append_nil] at before
    exact .append before (operand { level with signs := signs.reverse } outer empty)
  | @link signs ts e o us c op _ _ operand others =>
    intro level outer empty none
    have before := run_signs signs empty outer
    rw [none, List.append_nil] at before
    have term := operand { level with signs := signs.reverse } outer empty
    refine .append before (.append term (.cons (.operator rfl (Operator.ofSymbol?_symbol op)) ?_))
    exact others (Level.addOperator _ o op e) outer rfl rfl
  | grouped _ chain =>
    intro frame outer
    rw [← Chain.toExpr_eq_grouped]
    exact chain (.fresh frame) outer rfl rfl

theorem result {e : Draft} (forms : Forms ts (.expression e)) :
    ∃ s, initial.run ts = .ok s ∧ s.result? = some e := by
  obtain ⟨level, rest, operand, run, found, ends⟩ := forms.read .whole []
  exact ⟨_, run, result?_some.2 ⟨level, rest, operand, rfl, found, ends⟩⟩

end Forms

namespace Phrase

/-- What may follow an operand in a chain: nothing, or an operator and another chain. -/
def Continues (ts : List Token) : Prop :=
  ts = [] ∨ ∃ (o : Nat) (op : Operator) (us : List Token) (c : Chain Nat),
    ts = ⟨o, .operators op.symbol.toList⟩ :: us ∧ Forms us (.chain c)

/-- The tokens that stand for a symbol. Those that end in an operand are phrases with whatever may
follow them, since the body of a `let` takes that. -/
def meaning : Sym → Language Token
  | .terminal t => {ts | ∃ x : Token, ts = [x] ∧ x.lexeme.Stands t}
  | .nonterminal .expression => {ts | ∀ us, Continues us → ∃ c, Forms (ts ++ us) (.chain c)}
  | .nonterminal .signs => {ts | ∃ signs, ts = Sign.tokens signs}
  | .nonterminal .sign => {ts | ∃ sign, ts = Sign.tokens [sign]}
  | .nonterminal .operations => {ts | ∀ us, Continues us → Continues (ts ++ us)}
  | .nonterminal .connective =>
    {ts | ∃ (o : Nat) (op : Operator), ts = [⟨o, .operators op.symbol.toList⟩]}
  | .nonterminal .operand | .nonterminal .binding =>
    {ts | ∀ signs us, Continues us → ∃ c, Forms (Sign.tokens signs ++ (ts ++ us)) (.chain c)}
  | .nonterminal .application => {ts | ∃ e, Forms ts (.application e)}
  | .nonterminal .atoms =>
    {ts | ∀ us f, Forms us (.application f) → ∃ e, Forms (us ++ ts) (.application e)}
  | .nonterminal .atom | .nonterminal .grouped | .nonterminal .vector
  | .nonterminal .opVariable => {ts | ∃ o e, Forms ts (.atom o e)}
  | .nonterminal .elements => {ts | ts = [] ∨ ∃ es, Forms ts (.elements es)}
  | .nonterminal .more =>
    {ts | ∀ us e, Forms us (.expression e) → ∃ es, Forms (us ++ ts) (.elements es)}
  | .nonterminal .operator => {ts | ∃ x name, ts = [x] ∧ Named x.lexeme name}

theorem continues_nil : Continues [] := .inl rfl

theorem chain_of_application {ts us : List Token} {e : Draft} (forms : Forms ts (.application e))
    (signs : List (Sign × Nat)) (continues : Continues us) :
    ∃ c, Forms (Sign.tokens signs ++ (ts ++ us)) (.chain c) := by
  rcases continues with rfl | ⟨o, op, us, c, rfl, others⟩
  · rw [List.append_nil]
    exact ⟨_, .term (.applied forms)⟩
  · exact ⟨_, .link forms others⟩

theorem expression_of_meaning {ts : List Token} (member : ts ∈ meaning (.nonterminal .expression)) :
    ∃ e, Forms ts (.expression e) := by
  obtain ⟨c, chain⟩ := member [] continues_nil
  rw [List.append_nil] at chain
  exact ⟨_, .grouped chain⟩

section Words

variable {x y : Sym} {form : List Sym} {ts : List Token}

theorem mem_cons_iff : ts ∈ ((x :: y :: form).map meaning).prod ↔
    ∃ us ∈ meaning x, ∃ vs ∈ ((y :: form).map meaning).prod, us ++ vs = ts := by
  rw [List.map_cons, List.prod_cons, Language.mem_mul]

theorem mem_single_iff : ts ∈ ([x].map meaning).prod ↔ ts ∈ meaning x := by
  rw [List.map_cons, List.map_nil, List.prod_singleton]

theorem mem_nil_iff : ts ∈ (([] : List Sym).map meaning).prod ↔ ts = [] :=
  Language.mem_one _

end Words

section Productions

variable {form : List Sym} {ts : List Token}

theorem mem_expression (member : form ∈ alternatives .expression)
    (words : ts ∈ (form.map meaning).prod) : ts ∈ meaning (.nonterminal .expression) := by
  obtain rfl := List.mem_singleton.1 member
  simp only [mem_cons_iff, mem_single_iff] at words
  obtain ⟨_, ⟨signs, rfl⟩, _, ⟨xs, operand, os, operations, rfl⟩, rfl⟩ := words
  intro us continues
  simpa using operand signs _ (operations us continues)

theorem mem_signs (member : form ∈ alternatives .signs)
    (words : ts ∈ (form.map meaning).prod) : ts ∈ meaning (.nonterminal .signs) := by
  simp only [alternatives, List.mem_cons, List.not_mem_nil, or_false] at member
  rcases member with rfl | rfl
  · exact ⟨[], mem_nil_iff.1 words⟩
  · simp only [mem_cons_iff, mem_single_iff] at words
    obtain ⟨_, ⟨sign, rfl⟩, _, ⟨signs, rfl⟩, rfl⟩ := words
    exact ⟨sign :: signs, rfl⟩

theorem mem_sign (member : form ∈ alternatives .sign)
    (words : ts ∈ (form.map meaning).prod) : ts ∈ meaning (.nonterminal .sign) := by
  simp only [alternatives, List.mem_cons, List.not_mem_nil, or_false] at member
  rcases member with rfl | rfl
  all_goals
    obtain ⟨⟨o, l⟩, rfl, stands⟩ := mem_single_iff.1 words
    cases stands
  · exact ⟨(.plus, o), rfl⟩
  · exact ⟨(.minus, o), rfl⟩

theorem mem_operations (member : form ∈ alternatives .operations)
    (words : ts ∈ (form.map meaning).prod) : ts ∈ meaning (.nonterminal .operations) := by
  simp only [alternatives, List.mem_cons, List.not_mem_nil, or_false] at member
  rcases member with rfl | rfl
  · intro us continues
    rwa [mem_nil_iff.1 words, List.nil_append]
  · simp only [mem_cons_iff, mem_single_iff] at words
    obtain ⟨_, ⟨o, op, rfl⟩, _, ⟨_, ⟨signs, rfl⟩, _, ⟨xs, operand, os, operations, rfl⟩, rfl⟩,
      rfl⟩ := words
    intro us continues
    obtain ⟨c, chain⟩ := operand signs _ (operations us continues)
    exact .inr ⟨o, op, _, c, by simp, chain⟩

theorem mem_connective (member : form ∈ alternatives .connective)
    (words : ts ∈ (form.map meaning).prod) : ts ∈ meaning (.nonterminal .connective) := by
  obtain ⟨op, rfl⟩ := mem_symbols.1 member
  obtain ⟨⟨o, l⟩, rfl, stands⟩ := mem_single_iff.1 words
  cases stands
  exact ⟨o, op, rfl⟩

theorem mem_operand (member : form ∈ alternatives .operand)
    (words : ts ∈ (form.map meaning).prod) : ts ∈ meaning (.nonterminal .operand) := by
  simp only [alternatives, List.mem_cons, List.not_mem_nil, or_false] at member
  rcases member with rfl | rfl
  · exact mem_single_iff.1 words
  · obtain ⟨e, forms⟩ := mem_single_iff.1 words
    exact fun signs us continues => chain_of_application forms signs continues

theorem mem_binding (member : form ∈ alternatives .binding)
    (words : ts ∈ (form.map meaning).prod) : ts ∈ meaning (.nonterminal .binding) := by
  obtain rfl := List.mem_singleton.1 member
  simp only [mem_cons_iff, mem_single_iff] at words
  obtain ⟨_, ⟨⟨o, _⟩, rfl, letWord⟩, _, ⟨_, ⟨⟨p, _⟩, rfl, name⟩, _, ⟨_, ⟨⟨q, _⟩, rfl, equalsSign⟩,
    _, ⟨bs, bound, _, ⟨_, ⟨⟨r, _⟩, rfl, inWord⟩, es, body, rfl⟩, rfl⟩, rfl⟩, rfl⟩, rfl⟩ := words
  cases letWord
  cases equalsSign
  cases inWord
  cases name with
  | identifier free =>
    obtain ⟨b, bound⟩ := expression_of_meaning bound
    intro signs us continues
    obtain ⟨c, chain⟩ := body us continues
    exact ⟨_, by simpa using Forms.term (.binding free bound (.grouped chain))⟩

theorem mem_application (member : form ∈ alternatives .application)
    (words : ts ∈ (form.map meaning).prod) : ts ∈ meaning (.nonterminal .application) := by
  obtain rfl := List.mem_singleton.1 member
  simp only [mem_cons_iff, mem_single_iff] at words
  obtain ⟨us, ⟨o, e, atom⟩, vs, atoms, rfl⟩ := words
  exact atoms us e (.function atom)

theorem mem_atoms (member : form ∈ alternatives .atoms)
    (words : ts ∈ (form.map meaning).prod) : ts ∈ meaning (.nonterminal .atoms) := by
  simp only [alternatives, List.mem_cons, List.not_mem_nil, or_false] at member
  intro us f func
  rcases member with rfl | rfl
  · rw [mem_nil_iff.1 words, List.append_nil]
    exact ⟨f, func⟩
  · simp only [mem_cons_iff, mem_single_iff] at words
    obtain ⟨vs, ⟨o, x, arg⟩, ws, atoms, rfl⟩ := words
    rw [← List.append_assoc]
    exact atoms _ _ (.argument func arg)

theorem mem_atom (member : form ∈ alternatives .atom)
    (words : ts ∈ (form.map meaning).prod) : ts ∈ meaning (.nonterminal .atom) := by
  simp only [alternatives, List.mem_cons, List.not_mem_nil, or_false] at member
  rcases member with rfl | rfl | rfl | rfl | rfl | rfl | rfl
  case inr.inr.inr.inl | inr.inr.inr.inr.inl | inr.inr.inr.inr.inr.inr =>
    exact mem_single_iff.1 words
  all_goals
    obtain ⟨⟨o, l⟩, rfl, stands⟩ := mem_single_iff.1 words
    cases stands
  · next value => exact ⟨o, _, .lexeme (.numeral value)⟩
  · exact ⟨o, _, .lexeme .nan⟩
  · exact ⟨o, _, .lexeme .infinity⟩
  · next free => exact ⟨o, _, .lexeme (.word free)⟩

theorem mem_grouped (member : form ∈ alternatives .grouped)
    (words : ts ∈ (form.map meaning).prod) : ts ∈ meaning (.nonterminal .grouped) := by
  obtain rfl := List.mem_singleton.1 member
  simp only [mem_cons_iff, mem_single_iff] at words
  obtain ⟨_, ⟨⟨o, _⟩, rfl, opened⟩, _, ⟨xs, inner, _, ⟨⟨p, _⟩, rfl, closed⟩, rfl⟩, rfl⟩ := words
  cases opened
  cases closed
  obtain ⟨e, inner⟩ := expression_of_meaning inner
  exact ⟨o, e, .group inner⟩

theorem mem_vector (member : form ∈ alternatives .vector)
    (words : ts ∈ (form.map meaning).prod) : ts ∈ meaning (.nonterminal .vector) := by
  obtain rfl := List.mem_singleton.1 member
  simp only [mem_cons_iff, mem_single_iff] at words
  obtain ⟨_, ⟨⟨o, _⟩, rfl, opened⟩, _, ⟨xs, elements, _, ⟨⟨p, _⟩, rfl, closed⟩, rfl⟩, rfl⟩ := words
  cases opened
  cases closed
  rcases elements with rfl | ⟨es, elements⟩
  · exact ⟨o, _, .emptyVector⟩
  · exact ⟨o, _, .vector elements⟩

theorem mem_elements (member : form ∈ alternatives .elements)
    (words : ts ∈ (form.map meaning).prod) : ts ∈ meaning (.nonterminal .elements) := by
  simp only [alternatives, List.mem_cons, List.not_mem_nil, or_false] at member
  rcases member with rfl | rfl
  · exact .inl (mem_nil_iff.1 words)
  · simp only [mem_cons_iff, mem_single_iff] at words
    obtain ⟨xs, first, ms, more, rfl⟩ := words
    obtain ⟨e, first⟩ := expression_of_meaning first
    exact .inr (more xs e first)

theorem mem_more (member : form ∈ alternatives .more)
    (words : ts ∈ (form.map meaning).prod) : ts ∈ meaning (.nonterminal .more) := by
  simp only [alternatives, List.mem_cons, List.not_mem_nil, or_false] at member
  intro us e elem
  rcases member with rfl | rfl
  · rw [mem_nil_iff.1 words, List.append_nil]
    exact ⟨[e], .element elem⟩
  · simp only [mem_cons_iff, mem_single_iff] at words
    obtain ⟨_, ⟨⟨p, _⟩, rfl, comma⟩, _, ⟨xs, next, ms, more, rfl⟩, rfl⟩ := words
    cases comma
    obtain ⟨f, next⟩ := expression_of_meaning next
    obtain ⟨es, others⟩ := more xs f next
    exact ⟨e :: es, .more elem others⟩

theorem mem_opVariable (member : form ∈ alternatives .opVariable)
    (words : ts ∈ (form.map meaning).prod) : ts ∈ meaning (.nonterminal .opVariable) := by
  simp only [alternatives, List.mem_cons, List.not_mem_nil, or_false] at member
  rcases member with rfl | rfl
  · simp only [mem_cons_iff, mem_single_iff] at words
    obtain ⟨_, ⟨⟨o, _⟩, rfl, word⟩, _, ⟨⟨p, _⟩, rfl, sign⟩, rfl⟩ := words
    cases word
    cases sign
    exact ⟨o, _, .named .sign⟩
  · simp only [mem_cons_iff, mem_single_iff] at words
    obtain ⟨_, ⟨⟨o, _⟩, rfl, word⟩, _, ⟨⟨p, _⟩, name, rfl, named⟩, rfl⟩ := words
    cases word
    exact ⟨o, _, .named named⟩

theorem mem_operator (member : form ∈ alternatives .operator)
    (words : ts ∈ (form.map meaning).prod) : ts ∈ meaning (.nonterminal .operator) := by
  simp only [alternatives, List.mem_cons] at member
  rcases member with rfl | member
  · obtain ⟨⟨o, l⟩, rfl, stands⟩ := mem_single_iff.1 words
    cases stands with
    | otherOperator free none => exact ⟨_, _, rfl, .operator free⟩
  · obtain ⟨op, rfl⟩ := mem_symbols.1 member
    obtain ⟨⟨o, l⟩, rfl, stands⟩ := mem_single_iff.1 words
    cases stands
    exact ⟨_, _, rfl, .operator op.symbol_ne_equals⟩

/-- Every form of a nonterminal stands for what the nonterminal stands for. -/
theorem mem_meaning {A : Nonterminal} (member : form ∈ alternatives A)
    (words : ts ∈ (form.map meaning).prod) : ts ∈ meaning (.nonterminal A) := by
  cases A with
  | expression => exact mem_expression member words
  | signs => exact mem_signs member words
  | sign => exact mem_sign member words
  | operations => exact mem_operations member words
  | connective => exact mem_connective member words
  | operand => exact mem_operand member words
  | binding => exact mem_binding member words
  | application => exact mem_application member words
  | atoms => exact mem_atoms member words
  | atom => exact mem_atom member words
  | grouped => exact mem_grouped member words
  | vector => exact mem_vector member words
  | elements => exact mem_elements member words
  | more => exact mem_more member words
  | opVariable => exact mem_opVariable member words
  | operator => exact mem_operator member words

end Productions

theorem solves_meaning : Solves grammar meaning := fun _ member _ words =>
  mem_meaning (mem_rules.1 member) words

end Phrase

/-- The tokens of a sentence form an expression. -/
theorem forms_of_sentence {ts : List Token}
    (stands : ∀ t ∈ ts, t.lexeme.Stands t.lexeme.terminal)
    (sentence : (ts.map Token.lexeme).map Lexeme.terminal ∈ grammar.language) :
    ∃ c, Forms ts (.chain c) := by
  rw [List.map_map] at sentence
  have words : ts ∈ Phrase.meaning (.nonterminal .expression) * 1 :=
    Phrase.solves_meaning.prod_le sentence (mem_prod_terminals Phrase.meaning
      (fun t => t.lexeme.terminal) fun t member => ⟨t, rfl, stands t member⟩)
  rw [mul_one] at words
  simpa using words [] Phrase.continues_nil

/-- A text is read as a tree exactly if its tokens form a chain of which it is the grouped tree. -/
theorem readText_ok_iff_grouped {text : List Char} {tree : Draft} :
    readText text = .ok tree ↔ (Scan.ofText text).rest = [] ∧
      ∃ c, Forms (Scan.ofText text).tokens (.chain c) ∧ tree = c.grouped := by
  rw [readText_ok]
  refine and_congr_right fun rest => ?_
  constructor
  · rintro ⟨s, run, result⟩
    have lexes := (Scan.lexes_iff 0).2 ⟨rest, rfl⟩
    obtain ⟨c, chain⟩ := forms_of_sentence
      (List.forall_mem_map.1 lexes.stands) (sentence_of_run run result)
    obtain ⟨s', run', result'⟩ := (Forms.grouped chain).result
    cases run.symm.trans run'
    exact ⟨c, chain, Option.some.inj (result.symm.trans result')⟩
  · rintro ⟨c, chain, rfl⟩
    exact (Forms.grouped chain).result

/-- A text is parsed as a tree exactly if its nesting stays within the limit, it is cut into lexemes to
its end, and its tokens form a chain of which it is the grouped tree, with places in the text. The
operands of the chain are phrases whose own expressions are grouped chains in turn. -/
theorem parseWithin_ok_iff_grouped {limit : Nat} {source text : String} {tree : Expr Position} :
    parseWithin limit source text = .ok tree ↔ nestingExcess? limit text.toList = none ∧
      (Scan.ofText text.toList).rest = [] ∧
        ∃ c, Forms (Scan.ofText text.toList).tokens (.chain c) ∧
          tree = c.grouped.map (.ofOffset source text.toList) := by
  rw [parseWithin_ok]
  refine and_congr_right fun _ => ?_
  constructor
  · rintro ⟨draft, read, rfl⟩
    obtain ⟨rest, c, chain, rfl⟩ := readText_ok_iff_grouped.1 read
    exact ⟨rest, c, chain, rfl⟩
  · rintro ⟨rest, c, chain, rfl⟩
    exact ⟨_, readText_ok_iff_grouped.2 ⟨rest, c, chain, rfl⟩, rfl⟩

end Formula
