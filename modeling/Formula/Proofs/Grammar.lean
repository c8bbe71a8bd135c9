import Formula.Proofs.Reading

/-! The grammar of expressions, context-free over the kinds of lexemes. Main statements: languages
that solve the rules contain what the grammar derives, and what it derives solves the rules. -/
namespace Formula

/-- The kinds of lexemes that the grammar tells apart. -/
inductive Terminal where
  | number
  | identifier
  | reserved (word : List Char)
  | equals
  | symbol (op : Operator)
  | otherOperator
  | signName
  | mark (c : Char)
deriving DecidableEq

def Lexeme.terminal : Lexeme → Terminal
  | .numeral _ => .number
  | .word cs => if cs ∈ State.reserved then .reserved cs else .identifier
  | .operators cs =>
    if cs = ['='] then .equals
    else match Operator.ofSymbol? cs with
      | some op => .symbol op
      | none => .otherOperator
  | .signName _ => .signName
  | .mark c => .mark c

inductive Nonterminal where
  | expression | signs | sign | operations | connective
  | operand | binding | application | atoms | atom
  | grouped | vector | elements | more | opVariable | operator
deriving DecidableEq

/-- A lexeme of a kind. A numeral that denotes no number is of none. -/
inductive Lexeme.Stands : Lexeme → Terminal → Prop where
  | number {cs x} (value : Numeral.value? cs = some x) : Stands (.numeral cs) .number
  | identifier {cs} (free : cs ∉ State.reserved) : Stands (.word cs) .identifier
  | reserved {cs} (word : cs ∈ State.reserved) : Stands (.word cs) (.reserved cs)
  | equals : Stands (.operators ['=']) .equals
  | symbol {op : Operator} : Stands (.operators op.symbol.toList) (.symbol op)
  | otherOperator {cs} (free : cs ≠ ['=']) (none : Operator.ofSymbol? cs = none) :
    Stands (.operators cs) .otherOperator
  | signName {cs} : Stands (.signName cs) .signName
  | mark {c} : Stands (.mark c) (.mark c)

theorem Operator.symbol_of_ofSymbol? {cs : List Char} {op : Operator}
    (found : ofSymbol? cs = some op) : op.symbol.toList = cs := by
  unfold ofSymbol? at found
  split at found <;> cases found <;> rfl

theorem Operator.symbol_ne_equals (op : Operator) : op.symbol.toList ≠ ['='] := by
  cases op <;> decide

theorem Lexeme.Stands.terminal {l : Lexeme} {t : Terminal} (stands : l.Stands t) :
    l.terminal = t := by
  cases stands with
  | number | equals | signName | mark => rfl
  | identifier free => exact if_neg free
  | reserved word => exact if_pos word
  | @symbol op => cases op <;> rfl
  | otherOperator free none => simp [Lexeme.terminal, free, none]

theorem Lexeme.stands_terminal {l : Lexeme}
    (value : ∀ cs, l = .numeral cs → ∃ x, Numeral.value? cs = some x) : l.Stands l.terminal := by
  cases l with
  | numeral cs =>
    obtain ⟨x, value⟩ := value cs rfl
    exact .number value
  | word cs =>
    by_cases word : cs ∈ State.reserved
    · simpa [Lexeme.terminal, word] using Stands.reserved word
    · simpa [Lexeme.terminal, word] using Stands.identifier word
  | operators cs =>
    by_cases equals : cs = ['=']
    · subst equals
      exact .equals
    cases found : Operator.ofSymbol? cs with
    | none => simpa [Lexeme.terminal, equals, found] using Stands.otherOperator equals found
    | some op =>
      simp only [Lexeme.terminal, equals, found, if_false]
      rw [← Operator.symbol_of_ofSymbol? found]
      exact .symbol
  | signName cs => exact .signName
  | mark c => exact .mark

/-- Every nonterminal. -/
def Nonterminal.all : List Nonterminal :=
  [.expression, .signs, .sign, .operations, .connective, .operand, .binding, .application, .atoms,
    .atom, .grouped, .vector, .elements, .more, .opVariable, .operator]

theorem Nonterminal.mem_all (A : Nonterminal) : A ∈ all := by
  cases A <;> simp [all]

namespace Grammar

abbrev Sym := Symbol Terminal Nonterminal

instance : Coe Terminal Sym := ⟨.terminal⟩

instance : Coe Nonterminal Sym := ⟨.nonterminal⟩

/-- The seven operators, each as a form. -/
def symbols : List (List Sym) :=
  [.index, .power, .times, .divide, .remainder, .plus, .minus].map fun op =>
    [.terminal (.symbol op)]

theorem mem_symbols {form : List Sym} :
    form ∈ symbols ↔ ∃ op, form = [.terminal (.symbol op)] := by
  constructor
  · intro member
    obtain ⟨op, _, rfl⟩ := List.mem_map.1 member
    exact ⟨op, rfl⟩
  · rintro ⟨op, rfl⟩
    cases op <;> simp [symbols]

open Terminal Nonterminal in
/-- The forms of each nonterminal. What may be repeated has a nonterminal of its own that ends in
nothing; a sign is an operator that stands before an operand. -/
def alternatives : Nonterminal → List (List Sym)
  | expression => [[signs, operand, operations]]
  | signs => [[], [sign, signs]]
  | sign => [[symbol .plus], [symbol .minus]]
  | operations => [[], [connective, signs, operand, operations]]
  | connective => symbols
  | operand => [[binding], [application]]
  | binding =>
    [[reserved "let".toList, identifier, equals, expression, reserved "in".toList, expression]]
  | application => [[atom, atoms]]
  | atoms => [[], [atom, atoms]]
  | atom =>
    [[number], [reserved "NaN".toList], [reserved "Infinity".toList], [vector], [opVariable],
      [identifier], [grouped]]
  | grouped => [[mark '(', expression, mark ')']]
  | vector => [[mark '[', elements, mark ']']]
  | elements => [[], [expression, more]]
  | more => [[], [mark ',', expression, more]]
  | opVariable => [[reserved "op".toList, signName], [reserved "op".toList, operator]]
  | operator => [otherOperator] :: symbols

end Grammar

open State Grammar

/-- The grammar of expressions. -/
def grammar : ContextFreeGrammar Terminal where
  NT := Nonterminal
  initial := .expression
  rules := (Nonterminal.all.flatMap fun A => (alternatives A).map (ContextFreeRule.mk A)).toFinset

namespace Grammar

theorem mem_rules {r : ContextFreeRule Terminal Nonterminal} :
    r ∈ grammar.rules ↔ r.output ∈ alternatives r.input := by
  obtain ⟨A, form⟩ := r
  unfold grammar
  simp [Nonterminal.mem_all]

section Languages

variable {T α : Type*} {g : ContextFreeGrammar T}

/-- The languages of the symbols contain what the rules make of them. -/
def Solves (g : ContextFreeGrammar T) (S : Symbol T g.NT → Language α) : Prop :=
  ∀ r ∈ g.rules, (r.output.map S).prod ≤ S (.nonterminal r.input)

theorem Solves.prod_le {S : Symbol T g.NT → Language α} {u v : List (Symbol T g.NT)}
    (solves : Solves g S) (derives : g.Derives u v) : (v.map S).prod ≤ (u.map S).prod := by
  induction derives with
  | refl => exact le_rfl
  | tail _ last ih =>
    obtain ⟨r, member, rewrites⟩ := last
    obtain ⟨before, after, rfl, rfl⟩ := rewrites.exists_parts
    refine le_trans ?_ ih
    simp only [List.map_append, List.prod_append, List.map_cons, List.map_nil, List.prod_cons,
      List.prod_nil, mul_one]
    exact mul_le_mul' (mul_le_mul' le_rfl (solves r member)) le_rfl

theorem mem_prod_terminals {N : Type*} (S : Symbol T N → Language α) (label : α → T) {w : List α}
    (each : ∀ a ∈ w, [a] ∈ S (.terminal (label a))) :
    w ∈ (((w.map label).map Symbol.terminal).map S).prod := by
  induction w with
  | nil => exact Language.nil_mem_one
  | cons a w ih =>
    obtain ⟨first, others⟩ := List.forall_mem_cons.1 each
    exact Language.append_mem_mul first (ih others)

/-- The words that a symbol derives, if every letter stands for a terminal. -/
def sentences (g : ContextFreeGrammar T) (label : α → T) (x : Symbol T g.NT) : Language α :=
  {w | g.Derives [x] ((w.map label).map .terminal)}

variable {label : α → T}

theorem derives_of_mem_prod {form : List (Symbol T g.NT)} {w : List α}
    (member : w ∈ (form.map (sentences g label)).prod) :
    g.Derives form ((w.map label).map .terminal) := by
  induction form generalizing w with
  | nil =>
    obtain rfl := (Language.mem_one w).1 member
    exact Relation.ReflTransGen.refl
  | cons x form ih =>
    obtain ⟨a, first, b, others, rfl⟩ := Language.mem_mul.1 member
    have front := ContextFreeGrammar.Derives.append_right first form
    have back := (ih others).append_left ((a.map label).map .terminal)
    simpa using front.trans back

theorem solves_sentences (g : ContextFreeGrammar T) (label : α → T) :
    Solves g (sentences g label) := fun r member _ words =>
  ContextFreeGrammar.Produces.trans_derives ⟨r, member, ContextFreeRule.Rewrites.input_output⟩
    (derives_of_mem_prod words)

end Languages

/-- The lexemes that the grammar derives from a symbol. -/
def derived (x : Sym) : Language Lexeme := sentences grammar Lexeme.terminal x

/-- The lexemes that the grammar derives from a nonterminal. -/
def sentence (A : Nonterminal) : Language Lexeme := derived (.nonterminal A)

section Forms

variable {x : Sym} {t : Terminal} {l : Lexeme} {form : List Sym} {a b : List Lexeme}

theorem mem_sentence (A : Nonterminal) (form : List Sym) (member : form ∈ alternatives A)
    (words : a ∈ (form.map derived).prod) : a ∈ sentence A :=
  solves_sentences grammar Lexeme.terminal ⟨A, form⟩ (mem_rules.2 member) words

theorem mem_nil : [] ∈ (([] : List Sym).map derived).prod := Language.nil_mem_one

theorem mem_cons (first : a ∈ derived x) (others : b ∈ (form.map derived).prod) :
    a ++ b ∈ ((x :: form).map derived).prod :=
  Language.append_mem_mul first others

theorem mem_lexeme (stands : l.Stands t) (others : b ∈ (form.map derived).prod) :
    l :: b ∈ ((.terminal t :: form).map derived).prod := by
  have first : [l] ∈ derived (.terminal t) := by
    rw [← stands.terminal]
    exact Relation.ReflTransGen.refl
  exact mem_cons first others

theorem mem_last (last : a ∈ derived x) : a ∈ ([x].map derived).prod := by
  simpa using mem_cons last mem_nil

end Forms

section Sentences

variable {ls as ss xs os bs es ms : List Lexeme} {l : Lexeme} {w : List Char} {op : Operator}
  {s : Sign}

open Nonterminal Terminal

theorem sentence_nil {A : Nonterminal} (empty : [] ∈ alternatives A) : [] ∈ sentence A :=
  mem_sentence A [] empty mem_nil

theorem sentence_expression (first : ss ∈ sentence signs) (second : xs ∈ sentence operand)
    (third : os ∈ sentence operations) : ss ++ (xs ++ os) ∈ sentence expression :=
  mem_sentence expression [signs, operand, operations] (by simp [alternatives])
    (mem_cons first (mem_cons second (mem_last third)))

theorem sentence_sign {cs : List Char} (symbol : Sign.ofSymbol? cs = some s)
    (others : ss ∈ sentence signs) : .operators cs :: ss ∈ sentence signs := by
  obtain ⟨op, rfl, plain⟩ : ∃ op : Operator, op.symbol.toList = cs ∧
      ([Terminal.symbol op] : List Sym) ∈ alternatives sign := by
    unfold Sign.ofSymbol? at symbol
    split at symbol
    · exact ⟨.plus, rfl, by simp [alternatives]⟩
    · exact ⟨.minus, rfl, by simp [alternatives]⟩
    · contradiction
  have here : [.operators op.symbol.toList] ∈ sentence sign :=
    mem_sentence sign _ plain (mem_lexeme .symbol mem_nil)
  exact mem_sentence signs [sign, signs] (by simp [alternatives]) (mem_cons here (mem_last others))

theorem sentence_operation {cs : List Char} (symbol : Operator.ofSymbol? cs = some op)
    (first : ss ∈ sentence signs) (second : xs ∈ sentence operand)
    (third : os ∈ sentence operations) :
    .operators cs :: (ss ++ (xs ++ os)) ∈ sentence operations := by
  obtain rfl := Operator.symbol_of_ofSymbol? symbol
  have here : [.operators op.symbol.toList] ∈ sentence connective := by
    refine mem_sentence connective [Terminal.symbol op] (mem_symbols.2 ⟨op, rfl⟩) ?_
    exact mem_lexeme .symbol mem_nil
  exact mem_sentence operations [connective, signs, operand, operations] (by simp [alternatives])
    (mem_cons here (mem_cons first (mem_cons second (mem_last third))))

theorem sentence_binding (free : w ∉ State.reserved) (bound : bs ∈ sentence expression)
    (body : es ∈ sentence expression) :
    .word "let".toList :: .word w :: .operators ['='] :: (bs ++ .word "in".toList :: es) ∈
      sentence operand := by
  refine mem_sentence operand [binding] (by simp [alternatives]) (mem_last ?_)
  refine mem_sentence binding [reserved "let".toList, identifier, equals, expression,
    reserved "in".toList, expression] (by simp [alternatives]) ?_
  refine mem_lexeme (.reserved ?_) (mem_lexeme (.identifier free) (mem_lexeme .equals
    (mem_cons bound (mem_lexeme (.reserved ?_) (mem_last body)))))
  · simp [State.reserved]
  · simp [State.reserved]

theorem sentence_atoms (first : as ∈ sentence atom) (others : ls ∈ sentence atoms) :
    as ++ ls ∈ sentence atoms :=
  mem_sentence atoms [atom, atoms] (by simp [alternatives]) (mem_cons first (mem_last others))

theorem sentence_application (first : as ∈ sentence atom) (others : ls ∈ sentence atoms) :
    as ++ ls ∈ sentence application :=
  mem_sentence application [atom, atoms] (by simp [alternatives]) (mem_cons first (mem_last others))

theorem sentence_operand (reads : as ∈ sentence application) : as ∈ sentence operand :=
  mem_sentence operand [application] (by simp [alternatives]) (mem_last reads)

theorem sentence_of_atom {o : Nat} {e : Draft} (atom : Atom o l e) : [l] ∈ sentence .atom := by
  cases atom with
  | numeral value =>
    exact mem_sentence .atom [number] (by simp [alternatives]) (mem_lexeme (.number value) mem_nil)
  | nan =>
    exact mem_sentence .atom [reserved "NaN".toList] (by simp [alternatives])
      (mem_lexeme (.reserved (by simp [State.reserved])) mem_nil)
  | infinity =>
    exact mem_sentence .atom [reserved "Infinity".toList] (by simp [alternatives])
      (mem_lexeme (.reserved (by simp [State.reserved])) mem_nil)
  | word free =>
    exact mem_sentence .atom [identifier] (by simp [alternatives])
      (mem_lexeme (.identifier free) mem_nil)

theorem sentence_named {name : String} (named : Named l name) : [.op, l] ∈ sentence atom := by
  refine mem_sentence atom [opVariable] (by simp [alternatives]) (mem_last ?_)
  have word : Lexeme.op.Stands (.reserved "op".toList) := .reserved (by simp [State.reserved])
  cases named with
  | sign =>
    exact mem_sentence opVariable [reserved "op".toList, signName] (by simp [alternatives])
      (mem_lexeme word (mem_lexeme .signName mem_nil))
  | @operator cs free =>
    refine mem_sentence opVariable [reserved "op".toList, Nonterminal.operator]
      (by simp [alternatives]) (mem_lexeme word (mem_last ?_))
    cases found : Operator.ofSymbol? cs with
    | none =>
      exact mem_sentence .operator [otherOperator] (by simp [alternatives])
        (mem_lexeme (.otherOperator free found) mem_nil)
    | some op =>
      obtain rfl := Operator.symbol_of_ofSymbol? found
      refine mem_sentence .operator [Terminal.symbol op] ?_ (mem_lexeme .symbol mem_nil)
      exact List.mem_cons_of_mem _ (mem_symbols.2 ⟨op, rfl⟩)

theorem sentence_grouped (inner : es ∈ sentence expression) :
    .mark '(' :: (es ++ [.mark ')']) ∈ sentence atom := by
  refine mem_sentence atom [grouped] (by simp [alternatives]) (mem_last ?_)
  exact mem_sentence grouped [mark '(', expression, mark ')'] (by simp [alternatives])
    (mem_lexeme .mark (mem_cons inner (mem_lexeme .mark mem_nil)))

theorem sentence_vector (inner : es ∈ sentence elements) :
    .mark '[' :: (es ++ [.mark ']']) ∈ sentence atom := by
  refine mem_sentence atom [vector] (by simp [alternatives]) (mem_last ?_)
  exact mem_sentence vector [mark '[', elements, mark ']'] (by simp [alternatives])
    (mem_lexeme .mark (mem_cons inner (mem_lexeme .mark mem_nil)))

theorem sentence_elements (first : es ∈ sentence expression) (others : ms ∈ sentence more) :
    es ++ ms ∈ sentence elements :=
  mem_sentence elements [expression, more] (by simp [alternatives])
    (mem_cons first (mem_last others))

theorem sentence_more (first : es ∈ sentence expression) (others : ms ∈ sentence more) :
    .mark ',' :: (es ++ ms) ∈ sentence more :=
  mem_sentence more [mark ',', expression, more] (by simp [alternatives])
    (mem_lexeme .mark (mem_cons first (mem_last others)))

end Sentences

end Grammar

end Formula
