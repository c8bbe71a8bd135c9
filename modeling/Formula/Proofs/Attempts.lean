import Formula.Proofs.Completion
import Formula.Proofs.Matched

/-! How far the grammar looks. A piece of the grammar matches lexemes that the reader reads, and what it
tries behind them can be read there too. Where the reader stops, the grammar tries something, since it
would have gone on with other lexemes; and a mark is tried only where a rule is. Main statements:
nothing is tried behind the place where the reader stops, and there a rule is tried and fails, or else
the expression ends there. -/
namespace Formula

open State Grammar
open scoped Computability

section Languages

/-- The lexemes that a rule matches. The end of the text is none. -/
def Rule.language : Rule → Language Lexeme
  | .main | .expression => meaning (.nonterminal .expression)
  | .operand => meaning (.nonterminal .operand)
  | .binding => meaning (.nonterminal .binding)
  | .application => meaning (.nonterminal .application)
  | .atom => meaning (.nonterminal .atom)
  | .grouped => meaning (.nonterminal .grouped)
  | .vector => meaning (.nonterminal .vector)
  | .opVariable => meaning (.nonterminal .opVariable)
  | .signVariable => meaning (.terminal .signName)
  | .sign => meaning (.nonterminal .sign)
  | .connective => meaning (.nonterminal .connective)
  | .index => meaning (.terminal (.symbol .index))
  | .pow => meaning (.terminal (.symbol .power))
  | .mul => meaning (.terminal (.symbol .times))
  | .div => meaning (.terminal (.symbol .divide))
  | .rem => meaning (.terminal (.symbol .remainder))
  | .add | .pos => meaning (.terminal (.symbol .plus))
  | .sub | .neg => meaning (.terminal (.symbol .minus))
  | .operator => meaning (.nonterminal .operator)
  | .number | .hex | .octal | .decimal => meaning (.terminal .number)
  | .nan => meaning (.terminal (.reserved "NaN".toList))
  | .infinity => meaning (.terminal (.reserved "Infinity".toList))
  | .opWord => meaning (.terminal (.reserved "op".toList))
  | .letWord => meaning (.terminal (.reserved "let".toList))
  | .inWord => meaning (.terminal (.reserved "in".toList))
  | .equals => meaning (.terminal .equals)
  | .identifier => meaning (.terminal .identifier)
  | .endOfInput => 1

/-- The lexemes that a piece of the grammar matches, whatever stands behind them. -/
def Piece.language : Piece → Language Lexeme
  | .nothing => 1
  | .mark c => meaning (.terminal (.mark c))
  | .rule r => r.language
  | .both p q => p.language * q.language
  | .either p q => p.language + q.language
  | .many p => p.language∗

variable {A : Nonterminal} {form : List Sym} {r : Rule} {a : Atomic} {l : Lexeme} {p q : Piece}

theorem star_le {L : Language Lexeme} (ends : [] ∈ alternatives A)
    (more : L * meaning (.nonterminal A) ≤ meaning (.nonterminal A)) :
    L∗ ≤ meaning (.nonterminal A) :=
  (le_mul_of_one_le_right' (prod_meaning_le ends)).trans (kstar_mul_le_self more)

theorem signs_le : (meaning (.nonterminal .sign))∗ ≤ meaning (.nonterminal .signs) :=
  star_le (by simp [alternatives]) (by
    simpa using prod_meaning_le (show [.nonterminal .sign, .nonterminal .signs] ∈ alternatives .signs
      by simp [alternatives]))

theorem signed_le : Piece.signed.language ≤
    meaning (.nonterminal .signs) * meaning (.nonterminal .operand) :=
  mul_le_mul' signs_le le_rfl

theorem operations_le : Piece.linked.language∗ ≤ meaning (.nonterminal .operations) := by
  refine star_le (by simp [alternatives]) ?_
  have form := prod_meaning_le (show [.nonterminal .connective, .nonterminal .signs,
    .nonterminal .operand, .nonterminal .operations] ∈ alternatives .operations by simp [alternatives])
  simp only [List.map_cons, List.map_nil, List.prod_cons, List.prod_nil, mul_one] at form
  refine le_trans ?_ form
  rw [← mul_assoc (meaning (.nonterminal .signs)), ← mul_assoc]
  exact mul_le_mul' (mul_le_mul' le_rfl signed_le) le_rfl

theorem atoms_le : (meaning (.nonterminal .atom))∗ ≤ meaning (.nonterminal .atoms) :=
  star_le (by simp [alternatives]) (by
    simpa using prod_meaning_le (show [.nonterminal .atom, .nonterminal .atoms] ∈ alternatives .atoms
      by simp [alternatives]))

theorem more_le : Piece.separated.language∗ ≤ meaning (.nonterminal .more) := by
  refine star_le (by simp [alternatives]) ?_
  have form := prod_meaning_le (show [.terminal (.mark ','), .nonterminal .expression,
    .nonterminal .more] ∈ alternatives .more by simp [alternatives])
  simpa [Piece.separated, Piece.language, Rule.language, mul_assoc] using form

theorem single_le_of_mem {x : Sym} (member : [x] ∈ alternatives A) :
    meaning x ≤ meaning (.nonterminal A) := by
  simpa using prod_meaning_le member

theorem expression_language_le :
    (Piece.both (.many (.rule .sign)) (.both (.rule .operand) (.many .linked))).language ≤
      meaning (.nonterminal .expression) := by
  have form := prod_meaning_le (show [.nonterminal .signs, .nonterminal .operand,
    .nonterminal .operations] ∈ alternatives .expression by simp [alternatives])
  simp only [List.map_cons, List.map_nil, List.prod_cons, List.prod_nil, mul_one] at form
  exact (mul_le_mul' signs_le (mul_le_mul' le_rfl operations_le)).trans form

theorem elements_language_le :
    (Piece.either .elements .nothing).language ≤ meaning (.nonterminal .elements) := by
  have form := prod_meaning_le (show [.nonterminal .expression, .nonterminal .more] ∈
    alternatives .elements by simp [alternatives])
  simp only [List.map_cons, List.map_nil, List.prod_cons, List.prod_nil, mul_one] at form
  exact add_le ((mul_le_mul' le_rfl more_le).trans form)
    (prod_meaning_le (show [] ∈ alternatives .elements by simp [alternatives]))

theorem opVariable_language_le :
    (Piece.both (.rule .opWord) .named).language ≤ meaning (.nonterminal .opVariable) := by
  have sign := prod_meaning_le (show [.terminal (.reserved "op".toList), .terminal .signName] ∈
    alternatives .opVariable by simp [alternatives])
  have operator := prod_meaning_le (show [.terminal (.reserved "op".toList), .nonterminal .operator] ∈
    alternatives .opVariable by simp [alternatives])
  simp only [List.map_cons, List.map_nil, List.prod_cons, List.prod_nil, mul_one] at sign operator
  simpa only [Piece.language, Piece.named, Rule.language, mul_add] using add_le sign operator

theorem connective_language_le (op : Operator) :
    meaning (.terminal (.symbol op)) ≤ meaning (.nonterminal .connective) :=
  single_le_of_mem (mem_symbols.2 ⟨op, rfl⟩)

/-- What the right side of a rule matches, the rule does. -/
theorem Rule.language_body (body : r.body = .ordinary p ∨ r.body = .silent p) :
    p.language ≤ r.language := by
  have one {A : Nonterminal} {x : Sym} (member : [x] ∈ alternatives A) :
      meaning x ≤ meaning (.nonterminal A) := single_le_of_mem member
  rcases body with body | body <;> cases r <;> cases body
  case inl.main => simp [Piece.language, language]
  case inl.expression => exact expression_language_le
  case inl.binding =>
    simpa [Piece.language, language] using prod_meaning_le (show [.terminal (.reserved "let".toList),
      .terminal .identifier, .terminal .equals, .nonterminal .expression,
      .terminal (.reserved "in".toList), .nonterminal .expression] ∈ alternatives .binding by
        simp [alternatives])
  case inl.application =>
    have form := prod_meaning_le (show [.nonterminal .atom, .nonterminal .atoms] ∈
      alternatives .application by simp [alternatives])
    simp only [List.map_cons, List.map_nil, List.prod_cons, List.prod_nil, mul_one] at form
    exact (mul_le_mul' le_rfl atoms_le).trans form
  case inl.grouped =>
    simpa [Piece.language, language] using prod_meaning_le (show [.terminal (.mark '('),
      .nonterminal .expression, .terminal (.mark ')')] ∈ alternatives .grouped by simp [alternatives])
  case inl.vector =>
    have form := prod_meaning_le (show [.terminal (.mark '['), .nonterminal .elements,
      .terminal (.mark ']')] ∈ alternatives .vector by simp [alternatives])
    simp only [List.map_cons, List.map_nil, List.prod_cons, List.prod_nil, mul_one] at form
    exact (mul_le_mul' le_rfl (mul_le_mul' elements_language_le le_rfl)).trans form
  case inl.opVariable => exact opVariable_language_le
  case inr.operand =>
    simp only [Piece.language, language]
    exact add_le (one (by simp [alternatives])) (one (by simp [alternatives]))
  case inr.atom =>
    simp only [Piece.language, language]
    exact add_le (one (by simp [alternatives])) (add_le (one (by simp [alternatives]))
      (add_le (one (by simp [alternatives])) (add_le (one (by simp [alternatives]))
        (add_le (one (by simp [alternatives])) (add_le (one (by simp [alternatives]))
          (one (by simp [alternatives])))))))
  case inr.sign =>
    simp only [Piece.language, language]
    exact add_le (one (by simp [alternatives])) (one (by simp [alternatives]))
  case inr.connective =>
    have symbol := connective_language_le
    exact add_le (symbol _) (add_le (symbol _) (add_le (symbol _) (add_le (symbol _)
      (add_le (symbol _) (add_le (symbol _) (symbol _))))))
  case inr.number => exact add_le le_rfl (add_le le_rfl le_rfl)

theorem Rule.mem_language_of_holds (body : r.body = .atomic a) (holds : a.Holds l) :
    [l] ∈ r.language := by
  cases r <;> cases body
  case signVariable =>
    obtain ⟨cs, rfl⟩ := holds
    exact ⟨_, rfl, .signName⟩
  case operator =>
    obtain ⟨cs, free, rfl⟩ := holds
    rintro home outer s ⟨start, level, rest, rfl, inside⟩
    exact .cons fun o => ⟨_, .named (.operator free), .nil (after_addAtom inside start _)⟩
  case hex =>
    obtain ⟨cs, valid, rfl⟩ := holds
    exact ⟨_, rfl, .number (Numeral.value?_of_hex valid)⟩
  case octal =>
    obtain ⟨cs, valid, rfl⟩ := holds
    exact ⟨_, rfl, .number (Numeral.value?_of_octal valid)⟩
  case decimal =>
    obtain ⟨cs, valid, rfl⟩ := holds
    obtain ⟨x, value⟩ := Numeral.Valid.value? (.inr (.inr valid))
    exact ⟨_, rfl, .number value⟩
  case identifier =>
    obtain ⟨cs, free, rfl⟩ := holds
    exact ⟨_, rfl, .identifier free⟩
  case equals =>
    obtain rfl := holds
    exact ⟨_, rfl, .equals⟩
  case endOfInput => exact holds.elim
  case nan | infinity | opWord | letWord | inWord =>
    obtain rfl := holds
    exact ⟨_, rfl, .reserved (by simp [reserved])⟩
  case pos =>
    obtain rfl := holds
    exact ⟨_, rfl, @Lexeme.Stands.symbol .plus⟩
  case neg =>
    obtain rfl := holds
    exact ⟨_, rfl, @Lexeme.Stands.symbol .minus⟩
  all_goals
    obtain rfl := holds
    exact ⟨_, rfl, .symbol⟩

/-- Whatever a piece of the grammar matches is of its language. -/
theorem Input.Parses.mem_language {ts : List Token} {x : Taken} (reads : Reads p ts (some x)) :
    x.parts.map Token.lexeme ∈ p.language := by
  generalize result : some x = b at reads
  induction reads generalizing x with
  | nothing => cases result; exact Language.nil_mem_one
  | mark takes =>
    cases result
    obtain ⟨holds⟩ := takes
    exact ⟨_, rfl, by rw [holds]; exact .mark⟩
  | both _ _ first second =>
    cases result
    rw [Portion.append, List.map_append]
    exact Language.append_mem_mul (first rfl) (second rfl)
  | left _ first => exact .inl (first result)
  | right _ _ _ second => exact .inr (second result)
  | stop => cases result; exact Language.nil_mem_kstar _
  | @more p _ _ _ _ _ first others =>
    cases result
    have star : p.language * p.language∗ ≤ p.language∗ := mul_kstar_le_kstar
    rw [Portion.append, List.map_append]
    exact star (Language.append_mem_mul (first rfl) (others rfl))
  | ordinary body _ piece =>
    obtain ⟨y, found, rfl⟩ := Option.map_eq_some_iff.1 result.symm
    exact Rule.language_body (.inl body) (piece found.symm :)
  | silent body _ piece => exact Rule.language_body (.inr body) (piece result)
  | atomic body takes =>
    cases result
    obtain ⟨holds⟩ := takes
    exact Rule.mem_language_of_holds body holds
  | markFails | firstFails | secondFails | atomicFails => cases result

/-- What a symbol stands for in some way. -/
def Inhabited (x : Sym) : Prop := ∃ w, w ∈ meaning x

theorem inhabited_of_form (member : form ∈ alternatives A) (each : ∀ x ∈ form, Inhabited x) :
    Inhabited (.nonterminal A) := by
  have words : ∃ w, w ∈ (form.map meaning).prod := by
    clear member
    induction form with
    | nil => exact ⟨[], Language.nil_mem_one⟩
    | cons x form ih =>
      obtain ⟨⟨v, first⟩, others⟩ := List.forall_mem_cons.1 each
      obtain ⟨w, words⟩ := ih others
      exact ⟨v ++ w, Language.append_mem_mul first words⟩
  obtain ⟨w, words⟩ := words
  exact ⟨w, prod_meaning_le member words⟩

theorem inhabited_mark (c : Char) : Inhabited (.terminal (.mark c)) := ⟨_, _, rfl, .mark⟩

theorem inhabited_reserved {cs : List Char} (word : cs ∈ reserved) :
    Inhabited (.terminal (.reserved cs)) := ⟨_, _, rfl, .reserved word⟩

theorem inhabited_symbol (op : Operator) : Inhabited (.terminal (.symbol op)) := ⟨_, _, rfl, .symbol⟩

theorem inhabited_number : Inhabited (.terminal .number) := by
  have valid : Numeral.ValidDecimal (['0'] ++ ([] ++ [])) :=
    .mk ⟨by simp, by simp⟩ .nothing .nothing
  obtain ⟨x, value⟩ := Numeral.Valid.value? (.inr (.inr valid))
  exact ⟨_, _, rfl, .number value⟩

theorem inhabited_nonterminal (A : Nonterminal) : Inhabited (.nonterminal A) := by
  have identifier : Inhabited (.terminal .identifier) := ⟨_, _, rfl, .identifier filler_free⟩
  have empty {A : Nonterminal} (ends : [] ∈ alternatives A) : Inhabited (.nonterminal A) :=
    inhabited_of_form ends (by simp)
  have signs : Inhabited (.nonterminal .signs) := empty (by simp [alternatives])
  have operations : Inhabited (.nonterminal .operations) := empty (by simp [alternatives])
  have atoms : Inhabited (.nonterminal .atoms) := empty (by simp [alternatives])
  have elements : Inhabited (.nonterminal .elements) := empty (by simp [alternatives])
  have atom : Inhabited (.nonterminal .atom) := inhabited_of_form
    (show [.terminal .identifier] ∈ alternatives .atom by simp [alternatives]) (by simpa)
  have application : Inhabited (.nonterminal .application) := inhabited_of_form
    (show [.nonterminal .atom, .nonterminal .atoms] ∈ alternatives .application by simp [alternatives])
    (by simp [atom, atoms])
  have operand : Inhabited (.nonterminal .operand) := inhabited_of_form
    (show [.nonterminal .application] ∈ alternatives .operand by simp [alternatives]) (by simpa)
  have expression : Inhabited (.nonterminal .expression) := inhabited_of_form
    (show [.nonterminal .signs, .nonterminal .operand, .nonterminal .operations] ∈
      alternatives .expression by simp [alternatives]) (by simp [signs, operand, operations])
  have operator : Inhabited (.nonterminal .operator) := inhabited_of_form
    (show [.terminal (.symbol .plus)] ∈ alternatives .operator by simp [alternatives, symbols])
    (by simp [inhabited_symbol])
  cases A with
  | expression | signs | operations | operand | application | atoms | atom | elements | operator =>
    assumption
  | more => exact empty (by simp [alternatives])
  | sign =>
    exact inhabited_of_form (show [.terminal (.symbol .plus)] ∈ alternatives .sign by
      simp [alternatives]) (by simp [inhabited_symbol])
  | connective =>
    exact inhabited_of_form (mem_symbols.2 ⟨.plus, rfl⟩) (by simp [inhabited_symbol])
  | binding =>
    refine inhabited_of_form (show _ ∈ alternatives .binding from List.mem_singleton.2 rfl) ?_
    simp only [List.forall_mem_cons]
    exact ⟨inhabited_reserved (by simp [reserved]), identifier, ⟨_, _, rfl, .equals⟩, expression,
      inhabited_reserved (by simp [reserved]), expression, List.forall_mem_nil _⟩
  | grouped =>
    exact inhabited_of_form (show _ ∈ alternatives .grouped from List.mem_singleton.2 rfl)
      (by simp [inhabited_mark, expression])
  | vector =>
    exact inhabited_of_form (show _ ∈ alternatives .vector from List.mem_singleton.2 rfl)
      (by simp [inhabited_mark, elements])
  | opVariable =>
    exact inhabited_of_form (show [.terminal (.reserved "op".toList), .nonterminal .operator] ∈
      alternatives .opVariable by simp [alternatives])
      (by simpa [operator] using inhabited_reserved (by simp [reserved]))

theorem Rule.exists_mem_language (r : Rule) : ∃ w, w ∈ r.language := by
  cases r
  case endOfInput => exact ⟨[], Language.nil_mem_one⟩
  case number | hex | octal | decimal => exact inhabited_number
  case signVariable => exact ⟨[.signName []], _, rfl, .signName⟩
  case identifier => exact ⟨_, _, rfl, .identifier filler_free⟩
  case equals => exact ⟨_, _, rfl, .equals⟩
  case nan | infinity | opWord | letWord | inWord => exact inhabited_reserved (by simp [reserved])
  case index | pow | mul | div | rem | add | sub | pos | neg => exact inhabited_symbol _
  all_goals
    simp only [language]
    exact inhabited_nonterminal _

theorem Piece.exists_mem_language (p : Piece) : ∃ w, w ∈ p.language := by
  induction p with
  | nothing => exact ⟨[], Language.nil_mem_one⟩
  | mark c => exact inhabited_mark c
  | rule r => exact r.exists_mem_language
  | both p q first second =>
    obtain ⟨v, first⟩ := first
    obtain ⟨w, second⟩ := second
    exact ⟨v ++ w, Language.append_mem_mul first second⟩
  | either p q first _ =>
    obtain ⟨v, first⟩ := first
    exact ⟨v, .inl first⟩
  | many p _ => exact ⟨[], Language.nil_mem_kstar _⟩

end Languages

section Prospects

variable {s s' : State} {ts us : List Token} {p q t : Piece} {x : Taken}

/-- Whatever a piece of the grammar matches can be read from here on. -/
def State.Opens (s : State) (p : Piece) : Prop := ∀ w ∈ p.language, Runs s w fun _ => True

theorem State.Opens.mono (opens : s.Opens p) (le : q.language ≤ p.language) : s.Opens q :=
  fun w words => opens w (le words)

theorem State.Runs.after {w : List Lexeme} {Q : State → Prop} (runs : Runs s (ts.map Token.lexeme ++ w) Q)
    (first : s.run ts = .ok s') : Runs s' w Q := by
  intro us lexemes
  obtain ⟨last, run, found⟩ := runs (ts ++ us) (by rw [List.map_append, lexemes])
  obtain ⟨middle, run, later⟩ := run_append_ok.1 run
  cases first.symm.trans run
  exact ⟨last, later, found⟩

theorem State.Runs.front {v w : List Lexeme} {Q : State → Prop} (runs : Runs s (v ++ w) Q) :
    Runs s v fun _ => True := by
  intro us lexemes
  obtain ⟨last, run, _⟩ := runs (us ++ w.map fun l => ⟨0, l⟩) (by simp [lexemes, Function.comp_def])
  obtain ⟨middle, run, _⟩ := run_append_ok.1 run
  exact ⟨middle, run, trivial⟩

theorem State.Opens.first (opens : s.Opens (.both p q)) : s.Opens p := by
  intro v first
  obtain ⟨w, second⟩ := q.exists_mem_language
  exact (opens _ (Language.append_mem_mul first second)).front

theorem State.Opens.second (opens : s.Opens (.both p q)) (reads : Reads p ts (some x)) :
    ∃ s', s.run x.parts = .ok s' ∧ s'.Opens q := by
  obtain ⟨s', run, _⟩ := opens.first _ reads.mem_language x.parts rfl
  exact ⟨s', run, fun w second =>
    (opens _ (Language.append_mem_mul reads.mem_language second)).after run⟩

/-- Tokens are read up to a place from which a piece of the grammar can be. -/
def State.Arrives (s : State) (ts : List Token) (p : Piece) (us : List Token) : Prop :=
  ∃ read s', ts = read ++ us ∧ s.run read = .ok s' ∧ s'.Opens p

theorem State.Opens.arrives (opens : s.Opens (.both p q)) (first : Reads p ts (some x))
    (later : ∀ {s' : State}, s'.Opens q → s'.Arrives x.rest t us) : s.Arrives ts t us := by
  obtain ⟨middle, run, opens⟩ := opens.second first
  obtain ⟨read, s', rest, run', opens'⟩ := later opens
  exact ⟨x.parts ++ read, s', by rw [List.append_assoc, ← rest, ← first.tokens],
    run_append_ok.2 ⟨middle, run, run'⟩, opens'⟩

/-- What the grammar tries can be read where it is tried, behind tokens that are read. -/
theorem Input.Tries.arrives (tries : Input.tokens.Tries p ts t us) (opens : s.Opens p) :
    s.Arrives ts t us := by
  -- What is matched on the way is of the language of its piece, so the reader goes on behind it.
  induction tries generalizing s with
  | here => exact ⟨[], s, rfl, rfl, opens⟩
  | first _ ih => exact ih opens.first
  | second first _ ih => exact opens.arrives first ih
  | left _ ih => exact ih (opens.mono le_self_add)
  | right _ _ ih => exact ih (opens.mono le_add_self)
  | once _ ih => exact ih (opens.mono le_kstar)
  | again first _ ih => exact State.Opens.arrives (opens.mono mul_kstar_le_kstar) first ih
  | inner body _ ih => exact ih (opens.mono (Rule.language_body body))

theorem State.opens_initial : initial.Opens (.rule .expression) := fun _ words =>
  (words .whole [] _ ⟨_, [], rfl, rfl, .here⟩).mono fun _ _ => trivial

end Prospects

section Continuations

/-- The pieces that look at a token. -/
def Piece.Looks (p : Piece) : Prop :=
  (∃ c, p = .mark c) ∨ ∃ r a, p = .rule r ∧ r.body = .atomic a

/-- Two outcomes, where the same stands in front of `us` and of `vs`. -/
def SameFront (us vs : List Token) (x y : Taken) : Prop :=
  ∃ front, x.rest = front ++ us ∧ y.rest = front ++ vs

variable {us vs front : List Token} {p : Piece} {a : Option Taken}

theorem Input.Parses.swap_of_looks (looks : p.Looks) (reads : Reads p (front ++ us) a)
    (quiet : ∀ q, Input.tokens.Tries p (front ++ vs) q vs → ¬ q.Looks) :
    ∃ b, Reads p (front ++ vs) b ∧ Option.Rel (SameFront us vs) a b := by
  cases front with
  | nil => exact absurd looks (quiet _ .here)
  | cons t front =>
    rcases looks with ⟨c, rfl⟩ | ⟨r, form, rfl, body⟩
    · cases reads with
      | mark takes =>
        obtain ⟨holds⟩ := takes
        exact ⟨_, .mark (.mk holds), .some ⟨front, rfl, rfl⟩⟩
      | markFails fails =>
        refine ⟨_, .markFails ?_, .none⟩
        rintro _ _ ⟨holds⟩
        exact fails _ _ (.mk holds)
    · cases reads with
      | ordinary body' | silent body' => cases body.symm.trans body'
      | atomic body' takes =>
        obtain ⟨holds⟩ := takes
        exact ⟨_, .atomic body' (.mk holds), .some ⟨front, rfl, rfl⟩⟩
      | atomicFails body' fails =>
        refine ⟨_, .atomicFails body' ?_, .none⟩
        rintro _ _ ⟨holds⟩
        exact fails _ _ (.mk holds)

/-- A piece of the grammar that does not look at what stands behind some tokens matches alike whatever
stands there. -/
theorem Input.Parses.swap (reads : Reads p (front ++ us) a)
    (quiet : ∀ q, Input.tokens.Tries p (front ++ vs) q vs → ¬ q.Looks) :
    ∃ b, Reads p (front ++ vs) b ∧ Option.Rel (SameFront us vs) a b := by
  generalize whole : front ++ us = ts at reads
  induction reads generalizing front with
  | nothing => exact ⟨_, .nothing, .some ⟨front, whole.symm, rfl⟩⟩
  | mark takes =>
    subst whole
    exact swap_of_looks (.inl ⟨_, rfl⟩) (.mark takes) quiet
  | markFails fails =>
    subst whole
    exact swap_of_looks (.inl ⟨_, rfl⟩) (.markFails fails) quiet
  | atomic body takes =>
    subst whole
    exact swap_of_looks (.inr ⟨_, _, rfl, body⟩) (.atomic body takes) quiet
  | atomicFails body fails =>
    subst whole
    exact swap_of_looks (.inr ⟨_, _, rfl, body⟩) (.atomicFails body fails) quiet
  | both _ _ ih ih' =>
    obtain ⟨_, first, ⟨front', rest, rest'⟩⟩ := ih (fun q tries => quiet q (.first tries)) whole
    obtain ⟨_, second, ⟨last⟩⟩ := ih' (rest' ▸ fun q tries => quiet q (.second first tries)) rest.symm
    rw [← rest'] at second
    exact ⟨_, .both first second, .some last⟩
  | firstFails _ ih =>
    obtain ⟨_, first, ⟨⟩⟩ := ih (fun q tries => quiet q (.first tries)) whole
    exact ⟨_, .firstFails first, .none⟩
  | secondFails _ _ ih ih' =>
    obtain ⟨_, first, ⟨front', rest, rest'⟩⟩ := ih (fun q tries => quiet q (.first tries)) whole
    obtain ⟨_, second, ⟨⟩⟩ := ih' (rest' ▸ fun q tries => quiet q (.second first tries)) rest.symm
    rw [← rest'] at second
    exact ⟨_, .secondFails first second, .none⟩
  | left _ ih =>
    obtain ⟨_, first, ⟨last⟩⟩ := ih (fun q tries => quiet q (.left tries)) whole
    exact ⟨_, .left first, .some last⟩
  | right _ _ ih ih' =>
    obtain ⟨_, first, ⟨⟩⟩ := ih (fun q tries => quiet q (.left tries)) whole
    obtain ⟨_, second, same⟩ := ih' (fun q tries => quiet q (.right first tries)) whole
    exact ⟨_, .right first second, same⟩
  | stop _ ih =>
    obtain ⟨_, fails, ⟨⟩⟩ := ih (fun q tries => quiet q (.once tries)) whole
    exact ⟨_, .stop fails, .some ⟨front, whole.symm, rfl⟩⟩
  | more _ _ ih ih' =>
    obtain ⟨_, first, ⟨front', rest, rest'⟩⟩ := ih (fun q tries => quiet q (.once tries)) whole
    obtain ⟨_, others, ⟨last⟩⟩ := ih' (rest' ▸ fun q tries => quiet q (.again first tries)) rest.symm
    rw [← rest'] at others
    exact ⟨_, .more first others, .some last⟩
  | ordinary body _ ih =>
    obtain ⟨_, piece, same⟩ := ih (fun q tries => quiet q (.inner (.inl body) tries)) whole
    refine ⟨_, .ordinary body piece, ?_⟩
    cases same with
    | some last => exact .some last
    | none => exact .none
  | silent body _ ih =>
    obtain ⟨_, piece, same⟩ := ih (fun q tries => quiet q (.inner (.inr body) tries)) whole
    exact ⟨_, .silent body piece, same⟩

end Continuations

section Marks

/-- Whether something is missed where the piece fails, at the place where it is tried. -/
def Piece.refuses : Piece → Bool
  | .rule _ => true
  | .both p (.many _) | .either p _ => p.refuses
  | _ => false

mutual

/-- Whether something is missed where the piece ends. -/
def Piece.watches : Piece → Bool
  | .rule r => r ∈ [.expression, .operand, .binding, .application]
  | .both p q => q.watches || p.watches && q.resumes
  | .either p q => p.watches && (q.watches || p.refuses && q = .nothing)
  | .many p => p.refuses
  | _ => false

/-- Whether something is missed where the piece ends, if it takes anything. -/
def Piece.resumes : Piece → Bool
  | .many p => p.watches
  | _ => false

end

/-- The marks that may be looked at first. -/
def Piece.marks : Piece → List Char
  | .mark c => [c]
  | .both p _ | .many p => p.marks
  | .either p q => p.marks ++ q.marks
  | _ => []

/-- Whether something else is missed wherever a mark is looked at, the first ones apart. -/
def Piece.guarded : Piece → Bool
  | .both p q => p.guarded && q.guarded && (p.watches || q.marks.isEmpty)
  | .either p q => p.guarded && q.guarded
  | .many p => p.guarded && (p.watches || p.marks.isEmpty)
  | _ => true

theorem Rule.guarded_body {r : Rule} {p : Piece} (body : r.body = .ordinary p ∨ r.body = .silent p) :
    p.guarded = true := by
  rcases body with body | body <;> cases r <;> cases body <;> decide

theorem Rule.watches_body {r : Rule} {p : Piece} (body : r.body = .ordinary p ∨ r.body = .silent p)
    (watches : (Piece.rule r).watches = true) : p.watches = true := by
  rcases body with body | body <;> cases r <;> cases body <;> first | rfl | exact absurd watches (by decide)

theorem Rule.refuses_body {r : Rule} {p : Piece} (body : r.body = .silent p) : p.refuses = true := by
  cases r <;> cases body <;> rfl

variable {ts us : List Token} {p q : Piece} {r : Rule} {x : Taken} {c : Char}

theorem Input.Parses.misses_here (fails : Reads p ts none) (refuses : p.refuses = true) :
    Input.tokens.Misses p ts ts := by
  generalize result : none = a at fails
  induction fails with
  | nothing | mark | both | left | stop | more | atomic => cases result
  | markFails => cases refuses
  | @firstFails p q _ _ ih =>
    have refuses : p.refuses = true := by
      cases q <;> first | exact refuses | cases refuses
    exact (ih refuses rfl).mono .first
  | @secondFails p q _ _ _ second =>
    cases q with
    | many => cases second
    | nothing | mark | rule | both | either => cases refuses
  | right first _ ih _ => exact (ih refuses rfl).mono .left
  | @ordinary r p _ _ body piece =>
    refine ⟨r, fun q silent => ?_, .here, ?_⟩
    · cases body.symm.trans silent
    · rw [result]; exact .ordinary body piece
  | silent body _ ih => exact (ih (Rule.refuses_body body) result).mono (.inner (.inr body))
  | @atomicFails r a _ body fails =>
    refine ⟨r, fun q silent => ?_, .here, .atomicFails body fails⟩
    cases body.symm.trans silent

/-- Where a piece ends that watches, something is missed; and where one ends that resumes, unless it takes
nothing. -/
theorem Input.Parses.misses_rest (reads : Reads p ts (some x)) :
    (p.watches = true → Input.tokens.Misses p ts x.rest) ∧
      (p.resumes = true → x.rest = ts ∨ Input.tokens.Misses p ts x.rest) := by
  generalize result : some x = a at reads
  have never {P : Prop} (holds : false = true) : P := absurd holds Bool.false_ne_true
  induction reads generalizing x with
  | nothing | mark => exact ⟨never, never⟩
  | @both p q _ y z first second ih ih' =>
    cases result
    obtain ⟨ends, _⟩ := ih rfl
    obtain ⟨ends', goesOn⟩ := ih' rfl
    refine ⟨fun watches => ?_, never⟩
    rw [Piece.watches, Bool.or_eq_true, Bool.and_eq_true] at watches
    rcases watches with watches | ⟨watches, resumes⟩
    · exact (ends' watches).mono (.second first)
    · rcases goesOn resumes with same | misses
      · rw [Portion.append, same]
        exact (ends watches).mono .first
      · exact misses.mono (.second first)
  | left _ ih =>
    refine ⟨fun watches => ?_, never⟩
    rw [Piece.watches, Bool.and_eq_true] at watches
    exact ((ih result).1 watches.1).mono .left
  | @right p q _ _ first second _ ih =>
    refine ⟨fun watches => ?_, never⟩
    rw [Piece.watches, Bool.and_eq_true, Bool.or_eq_true, Bool.and_eq_true, decide_eq_true_eq] at watches
    rcases watches.2 with watches | ⟨refuses, rfl⟩
    · exact ((ih result).1 watches).mono (.right first)
    · cases second
      cases result
      exact (first.misses_here refuses).mono .left
  | stop fails =>
    cases result
    exact ⟨fun watches => (fails.misses_here watches).mono .once, fun _ => .inl rfl⟩
  | @more p _ y z first _ ih ih' =>
    cases result
    obtain ⟨ends, goesOn⟩ := ih' rfl
    refine ⟨fun watches => (ends watches).mono (.again first), fun resumes => .inr ?_⟩
    rcases goesOn resumes with same | misses
    · rw [Portion.append, same]
      exact ((ih rfl).1 resumes).mono .once
    · exact misses.mono (.again first)
  | ordinary body _ ih =>
    obtain ⟨y, found, rfl⟩ := Option.map_eq_some_iff.1 result.symm
    exact ⟨fun watches => ((ih found.symm).1 (Rule.watches_body (.inl body) watches)).mono
      (.inner (.inl body)), never⟩
  | silent body _ ih =>
    exact ⟨fun watches => ((ih result).1 (Rule.watches_body (.inr body) watches)).mono
      (.inner (.inr body)), never⟩
  | @atomic r _ _ _ _ body =>
    refine ⟨fun watches => ?_, never⟩
    cases r <;> first | exact absurd watches (by decide) | cases body
  | markFails | firstFails | secondFails | atomicFails => cases result

theorem Rule.fails_of_mark (body : r.body = .ordinary p ∨ r.body = .silent p) (first : c ∈ p.marks)
    (fails : Reads (.mark c) ts none) : (∀ q, r.body ≠ .silent q) ∧ Reads (.rule r) ts none := by
  rcases body with body | body <;> cases r <;> cases body
  case inl.grouped | inl.vector =>
    obtain rfl := List.mem_singleton.1 first
    exact ⟨nofun, .ordinary rfl (.firstFails fails)⟩
  all_goals exact absurd first List.not_mem_nil

/-- Where a mark is looked at that does not stand there, something else is missed, or it is the first to
be looked at. -/
theorem Input.Tries.misses_or_first (tries : Input.tokens.Tries p ts (.mark c) us)
    (fails : Reads (.mark c) us none) (guarded : p.guarded = true) :
    Input.tokens.Misses p ts us ∨ us = ts ∧ c ∈ p.marks := by
  generalize whole : Piece.mark c = t at tries
  induction tries with
  | here =>
    subst whole
    exact .inr ⟨rfl, List.mem_singleton_self c⟩
  | first _ ih =>
    rw [Piece.guarded, Bool.and_eq_true, Bool.and_eq_true] at guarded
    exact (ih fails guarded.1.1 whole).imp_left fun misses => misses.mono .first
  | @second p q i x t k first tries ih =>
    rw [Piece.guarded, Bool.and_eq_true, Bool.and_eq_true, Bool.or_eq_true] at guarded
    refine .inl ?_
    rcases ih fails guarded.1.2 whole with misses | ⟨rfl, member⟩
    · exact misses.mono (.second first)
    · rcases guarded.2 with watches | none
      · exact (first.misses_rest.1 watches).mono .first
      · rw [List.isEmpty_iff.1 none] at member
        exact absurd member List.not_mem_nil
  | left _ ih =>
    rw [Piece.guarded, Bool.and_eq_true] at guarded
    exact (ih fails guarded.1 whole).imp (fun misses => misses.mono .left)
      (And.imp_right (List.mem_append_left _))
  | right first _ ih =>
    rw [Piece.guarded, Bool.and_eq_true] at guarded
    exact (ih fails guarded.2 whole).imp (fun misses => misses.mono (.right first))
      (And.imp_right (List.mem_append_right _))
  | once _ ih =>
    rw [Piece.guarded, Bool.and_eq_true] at guarded
    exact (ih fails guarded.1 whole).imp_left fun misses => misses.mono .once
  | again first _ ih =>
    refine .inl ?_
    rcases ih fails guarded whole with misses | ⟨rfl, member⟩
    · exact misses.mono (.again first)
    · rw [Piece.guarded, Bool.and_eq_true, Bool.or_eq_true] at guarded
      rcases guarded.2 with watches | none
      · exact (first.misses_rest.1 watches).mono .once
      · rw [Piece.marks, List.isEmpty_iff.1 none] at member
        exact absurd member List.not_mem_nil
  | @inner r p i t k body _ ih =>
    refine .inl ?_
    rcases ih fails (Rule.guarded_body body) whole with misses | ⟨rfl, member⟩
    · exact misses.mono (.inner body)
    · obtain ⟨shows, fails⟩ := Rule.fails_of_mark body member fails
      exact ⟨r, shows, .here, fails⟩

end Marks

section Stops

variable {s : State} {ts us read : List Token}

/-- Where something is missed, the reader can have read up to there. -/
theorem Input.Misses.run (misses : Input.tokens.Misses (.rule .expression) ts us) :
    ∃ read s, ts = read ++ us ∧ initial.run read = .ok s := by
  obtain ⟨r, _, tries, _⟩ := misses
  obtain ⟨read, s, whole, run, _⟩ := tries.arrives opens_initial
  exact ⟨read, s, whole, run⟩

theorem matches_completed (run : initial.run read = .ok s)
    (valid : ∀ t ∈ read, ∃ afterOp, t.lexeme.Valid afterOp) :
    ∃ more, Matches (.rule .expression) (read ++ more) [] := by
  have start : initial.Traced [] := .within (.mk .whole (.fresh .whole))
  obtain ⟨more, plain, sentence⟩ := (start.run run).completes
  have lexemes : (read ++ more.map (Token.mk 0)).map Token.lexeme = read.map Token.lexeme ++ more := by
    simp [Function.comp_def]
  have valid' : ∀ t ∈ read ++ more.map (Token.mk 0), ∃ afterOp, t.lexeme.Valid afterOp := by
    refine List.forall_mem_append.2 ⟨valid, List.forall_mem_map.2 fun l member => ?_⟩
    exact ⟨false, (plain l member false []).valid⟩
  have stands : ∀ t ∈ read ++ more.map (Token.mk 0), t.lexeme.Stands t.lexeme.terminal := by
    intro t member
    obtain ⟨_, valid⟩ := valid' t member
    refine Lexeme.stands_terminal fun cs numeral => ?_
    rw [numeral] at valid
    cases valid with
    | numeral valid => exact valid.value?
  rw [List.nil_append, ← lexemes] at sentence
  obtain ⟨c, chain⟩ := forms_of_sentence stands sentence
  have expression := (Forms.grouped chain).matched valid' [] nofun
  rw [List.append_nil] at expression
  exact ⟨_, expression⟩

theorem State.Opens.fails {p : Piece} (opens : s.Opens p) (looks : p.Looks)
    (stuck : ∀ t ∈ us.head?, ∀ s', ¬ Step s t s') : Reads p us none := by
  have refused {t : Token} {rest : List Token} (whole : us = t :: rest) (words : [t.lexeme] ∈ p.language) :
      False := by
    obtain ⟨s', run, _⟩ := opens _ words [t] rfl
    obtain ⟨_, step, _⟩ := run_cons_ok.1 run
    exact stuck t (by rw [whole]; rfl) _ step
  rcases looks with ⟨c, rfl⟩ | ⟨r, a, rfl, body⟩
  · refine .markFails ?_
    rintro _ _ ⟨holds⟩
    exact refused rfl ⟨_, rfl, by rw [holds]; exact .mark⟩
  · refine .atomicFails body ?_
    rintro _ _ ⟨holds⟩
    exact refused rfl (Rule.mem_language_of_holds body holds)

/-- Where the reader stops, something is missed, or an expression ends. -/
theorem misses_or_ends (run : initial.run read = .ok s)
    (valid : ∀ t ∈ read, ∃ afterOp, t.lexeme.Valid afterOp)
    (stuck : ∀ t ∈ us.head?, ∀ s', ¬ Step s t s') :
    Input.tokens.Misses (.rule .expression) (read ++ us) us ∨
      Matches (.rule .expression) (read ++ us) us := by
  by_cases quiet : ∀ q, Input.tokens.Tries (.rule .expression) (read ++ us) q us → ¬ q.Looks
  · obtain ⟨more, x, reads, none⟩ := matches_completed run valid
    obtain ⟨_, reads', ⟨front, rest, rest'⟩⟩ := reads.swap quiet
    rw [none] at rest
    obtain ⟨rfl, _⟩ := List.append_eq_nil_iff.1 rest.symm
    exact .inr ⟨_, reads', rest'⟩
  · simp only [not_forall, not_not] at quiet
    obtain ⟨q, tries, looks⟩ := quiet
    obtain ⟨read', s', whole, run', opens⟩ := tries.arrives opens_initial
    obtain rfl := List.append_cancel_right whole
    cases run.symm.trans run'
    have fails := opens.fails looks stuck
    refine .inl ?_
    rcases looks with ⟨c, rfl⟩ | ⟨r, a, rfl, body⟩
    · exact (tries.misses_or_first fails rfl).resolve_right fun ⟨_, first⟩ =>
        absurd first List.not_mem_nil
    · exact ⟨r, fun q silent => (by cases body.symm.trans silent), tries, fails⟩

end Stops

end Formula
