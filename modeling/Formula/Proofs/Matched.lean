import Formula.Proofs.Building
import Formula.Proofs.Tokenwise

/-! What the grammar matches. Each choice between alternatives, and whether a repetition goes on, is made
by the next lexeme, so the grammar matches the tokens of every expression. Main statement: a text comes
to a tree, or is refused for its nesting or for a token that fits nowhere, and trees are built from
matches exactly where texts are parsed. -/
namespace Formula

open State

/-- A piece of the grammar matches up to `rest`. -/
def Matches (p : Piece) (ts rest : List Token) : Prop := ∃ x, Reads p ts (some x) ∧ x.rest = rest

namespace Matches

variable {p q : Piece} {r : Rule} {ts us rest : List Token}

theorem both (first : Matches p ts us) (second : Matches q us rest) :
    Matches (.both p q) ts rest := by
  obtain ⟨x, first, rfl⟩ := first
  obtain ⟨y, second, rfl⟩ := second
  exact ⟨_, .both first second, rfl⟩

theorem left (first : Matches p ts rest) : Matches (.either p q) ts rest := by
  obtain ⟨x, first, rfl⟩ := first
  exact ⟨x, .left first, rfl⟩

theorem right (first : Reads p ts none) (second : Matches q ts rest) :
    Matches (.either p q) ts rest := by
  obtain ⟨x, second, rfl⟩ := second
  exact ⟨x, .right first second, rfl⟩

theorem stop (fails : Reads p ts none) : Matches (.many p) ts ts := ⟨_, .stop fails, rfl⟩

theorem more (first : Matches p ts us) (others : Matches (.many p) us rest) :
    Matches (.many p) ts rest := by
  obtain ⟨x, first, rfl⟩ := first
  obtain ⟨y, others, rfl⟩ := others
  exact ⟨_, .more first others, rfl⟩

theorem ordinary (body : r.body = .ordinary p) (piece : Matches p ts rest) :
    Matches (.rule r) ts rest := by
  obtain ⟨x, piece, rfl⟩ := piece
  exact ⟨_, .ordinary body piece, rfl⟩

theorem silent (body : r.body = .silent p) (piece : Matches p ts rest) :
    Matches (.rule r) ts rest := by
  obtain ⟨x, piece, rfl⟩ := piece
  exact ⟨x, .silent body piece, rfl⟩

theorem atomic {a : Atomic} {t : Token} (body : r.body = .atomic a) (holds : a.Holds t.lexeme) :
    Matches (.rule r) (t :: rest) rest :=
  ⟨_, reads_atomic body holds, rfl⟩

theorem mark {c : Char} {o : Nat} : Matches (.mark c) (⟨o, .mark c⟩ :: rest) rest :=
  ⟨_, .mark (.mk rfl), rfl⟩

theorem of_both (pieces : Matches (.both p q) ts rest) :
    ∃ us, Matches p ts us ∧ Matches q us rest := by
  obtain ⟨_, reads, rfl⟩ := pieces
  cases reads with
  | both first second => exact ⟨_, ⟨_, first, rfl⟩, _, second, rfl⟩

theorem not_fails (piece : Matches p ts rest) : ¬ Reads p ts none := by
  obtain ⟨x, reads, _⟩ := piece
  exact fun fails => by cases Input.Parses.unique reads fails

end Matches

/-- The lexemes with which no atom begins. -/
inductive Lexeme.EndsAtoms : Lexeme → Prop where
  | letWord : EndsAtoms (.word "let".toList)
  | inWord : EndsAtoms (.word "in".toList)
  | operators {cs} : EndsAtoms (.operators cs)
  | mark {c} (closes : c = ')' ∨ c = ']' ∨ c = ',') : EndsAtoms (.mark c)

/-- The lexemes that may stand behind an expression. -/
inductive Lexeme.EndsExpressions : Lexeme → Prop where
  | inWord : EndsExpressions (.word "in".toList)
  | mark {c} (closes : c = ')' ∨ c = ']' ∨ c = ',') : EndsExpressions (.mark c)

theorem Lexeme.EndsExpressions.endsAtoms {l : Lexeme} (ends : l.EndsExpressions) : l.EndsAtoms := by
  cases ends with
  | inWord => exact .inWord
  | mark closes => exact .mark closes

section Failures

variable {ts : List Token} {t : Token}

theorem number_fails (other : ∀ t ∈ ts.head?, ∀ cs, t.lexeme ≠ .numeral cs) :
    Reads (.rule .number) ts none := by
  refine .silent rfl (.right (atomic_fails rfl ?_) (.right (atomic_fails rfl ?_) (atomic_fails rfl ?_)))
  all_goals exact fun t first ⟨cs, _, same⟩ => other t first cs same

theorem bracket_fails {r : Rule} {c : Char} {p : Piece} (body : r.body = .ordinary (.both (.mark c) p))
    (other : ∀ t ∈ ts.head?, t.lexeme ≠ .mark c) : Reads (.rule r) ts none :=
  .ordinary body (.firstFails (mark_fails other))

theorem opVariable_fails (other : ∀ t ∈ ts.head?, ¬ (Atomic.word "op").Holds t.lexeme) :
    Reads (.rule .opVariable) ts none :=
  .ordinary rfl (.firstFails (atomic_fails rfl other))

theorem binding_fails (other : ∀ t ∈ ts.head?, t.lexeme ≠ .word "let".toList) :
    Reads (.rule .binding) ts none :=
  .ordinary rfl (.firstFails (atomic_fails rfl other))

theorem sign_fails (other : ∀ t ∈ ts.head?, ∀ cs, t.lexeme ≠ .operators cs) :
    Reads (.rule .sign) ts none := by
  refine .silent rfl (.right (atomic_fails rfl ?_) (atomic_fails rfl ?_))
  all_goals exact fun t first same => other t first _ same

theorem linked_fails (other : ∀ t ∈ ts.head?, ∀ cs, t.lexeme ≠ .operators cs) :
    Reads .linked ts none := by
  refine .firstFails (.silent rfl (.right (atomic_fails rfl ?_) (.right (atomic_fails rfl ?_)
    (.right (atomic_fails rfl ?_) (.right (atomic_fails rfl ?_) (.right (atomic_fails rfl ?_)
      (.right (atomic_fails rfl ?_) (atomic_fails rfl ?_))))))))
  all_goals exact fun t first same => other t first _ same

theorem atom_fails (ends : ∀ t ∈ ts.head?, t.lexeme.EndsAtoms) : Reads (.rule .atom) ts none := by
  refine .silent rfl (.right (number_fails ?_) (.right (atomic_fails rfl ?_)
    (.right (atomic_fails rfl ?_) (.right (bracket_fails rfl ?_) (.right (opVariable_fails ?_)
      (.right (atomic_fails rfl ?_) (bracket_fails rfl ?_)))))))
  all_goals
    intro t first
    have ends := ends t first
    generalize t.lexeme = l at ends ⊢
    rcases ends with _ | _ | _ | (rfl | rfl | rfl)
    all_goals simp [Atomic.Holds, reserved]

theorem operand_fails (ends : ∀ t ∈ ts.head?, t.lexeme.EndsAtoms)
    (other : ∀ t ∈ ts.head?, t.lexeme ≠ .word "let".toList) : Reads (.rule .operand) ts none :=
  .silent rfl (.right (binding_fails other)
    (.ordinary rfl (.firstFails (atom_fails ends))))

end Failures

section Successes

variable {o : Nat} {ts us rest : List Token} {l : Lexeme} {e : Draft}

theorem matches_sign (s : Sign) :
    Matches (.rule .sign) (⟨o, .operators s.symbol.toList⟩ :: rest) rest := by
  cases s with
  | plus => exact .silent rfl (.left (.atomic rfl rfl))
  | minus =>
    refine .silent rfl (.right (atomic_fails rfl ?_) (.atomic rfl rfl))
    rintro _ ⟨⟩
    simp [Atomic.Holds, Sign.symbol]

theorem matches_connective (op : Operator) :
    Matches (.rule .connective) (⟨o, .operators op.symbol.toList⟩ :: rest) rest := by
  have skip {r : Rule} {symbol : String} {p : Piece} (body : r.body = .atomic (.symbol symbol))
      (other : op.symbol.toList ≠ symbol.toList)
      (later : Matches p (⟨o, .operators op.symbol.toList⟩ :: rest) rest) :
      Matches (.either (.rule r) p) (⟨o, .operators op.symbol.toList⟩ :: rest) rest :=
    .right (atomic_fails body (by rintro _ ⟨⟩ same; exact other (Lexeme.operators.inj same))) later
  refine .silent rfl ?_
  cases op with
  | index => exact .left (.atomic rfl rfl)
  | power => exact skip rfl (by decide) (.left (.atomic rfl rfl))
  | times => exact skip rfl (by decide) (skip rfl (by decide) (.left (.atomic rfl rfl)))
  | divide =>
    exact skip rfl (by decide) (skip rfl (by decide) (skip rfl (by decide) (.left (.atomic rfl rfl))))
  | remainder =>
    exact skip rfl (by decide) (skip rfl (by decide) (skip rfl (by decide) (skip rfl (by decide)
      (.left (.atomic rfl rfl)))))
  | plus =>
    exact skip rfl (by decide) (skip rfl (by decide) (skip rfl (by decide) (skip rfl (by decide)
      (skip rfl (by decide) (.left (.atomic rfl rfl))))))
  | minus =>
    exact skip rfl (by decide) (skip rfl (by decide) (skip rfl (by decide) (skip rfl (by decide)
      (skip rfl (by decide) (skip rfl (by decide) (.atomic rfl rfl))))))

theorem matches_signs (signs : List (Sign × Nat)) (fails : Reads (.rule .sign) rest none) :
    Matches (.many (.rule .sign)) (Sign.tokens signs ++ rest) rest := by
  induction signs with
  | nil => exact .stop fails
  | cons s signs ih => exact .more (matches_sign s.1) ih

/-- No application begins with `let`. -/
theorem matches_operand (atoms : Matches (.both (.rule .atom) (.many (.rule .atom))) ts rest) :
    Matches (.rule .operand) ts rest := by
  refine .silent rfl (.right (binding_fails fun t first word => ?_) (.ordinary rfl atoms))
  obtain ⟨us, atom, _⟩ := atoms.of_both
  refine atom.not_fails (atom_fails fun u same => ?_)
  cases Option.mem_unique first same
  rw [word]
  exact .letWord

/-- No operand begins with a sign. -/
theorem sign_fails_of_operand (operand : Matches (.rule .operand) ts rest) :
    Reads (.rule .sign) ts none := by
  refine sign_fails fun t first cs run => operand.not_fails (operand_fails ?_ ?_)
  all_goals
    intro u same
    cases Option.mem_unique first same
    rw [run]
  · exact .operators
  · nofun

theorem matches_numeral {cs : List Char} (valid : Numeral.Valid cs) :
    Matches (.rule .atom) (⟨o, .numeral cs⟩ :: rest) rest := by
  refine .silent rfl (.left (.silent rfl ?_))
  by_cases hex : Numeral.ValidRadix 'x' 'X' Numeral.isHexDigit cs
  · exact .left (.atomic rfl ⟨cs, hex, rfl⟩)
  refine .right (atomic_fails rfl (by rintro _ ⟨⟩ ⟨_, valid, ⟨⟩⟩; exact hex valid)) ?_
  by_cases octal : Numeral.ValidRadix 'o' 'O' Numeral.isOctalDigit cs
  · exact .left (.atomic rfl ⟨cs, octal, rfl⟩)
  refine .right (atomic_fails rfl (by rintro _ ⟨⟩ ⟨_, valid, ⟨⟩⟩; exact octal valid)) ?_
  exact .atomic rfl ⟨cs, (valid.resolve_left hex).resolve_left octal, rfl⟩

theorem matches_word {cs : List Char} (free : cs ∉ reserved) :
    Matches (.rule .atom) (⟨o, .word cs⟩ :: rest) rest := by
  have other {word : String} (listed : word.toList ∈ reserved) :
      ∀ t ∈ List.head? (⟨o, .word cs⟩ :: rest), ¬ (Atomic.word word).Holds t.lexeme := by
    rintro _ ⟨⟩ same
    exact free (Lexeme.word.inj same ▸ listed)
  refine .silent rfl (.right (number_fails (by simp)) (.right (atomic_fails rfl (other (by decide)))
    (.right (atomic_fails rfl (other (by decide))) (.right (bracket_fails rfl (by simp))
      (.right (opVariable_fails (other (by decide))) (.left (.atomic rfl ⟨cs, free, rfl⟩)))))))

theorem matches_atom (atom : Atom o l e) (valid : ∃ afterOp, l.Valid afterOp) :
    Matches (.rule .atom) (⟨o, l⟩ :: rest) rest := by
  cases atom with
  | numeral value =>
    obtain ⟨_, valid⟩ := valid
    cases valid with
    | numeral valid => exact matches_numeral valid
  | nan => exact .silent rfl (.right (number_fails (by simp)) (.left (.atomic rfl rfl)))
  | infinity =>
    refine .silent rfl (.right (number_fails (by simp)) (.right (atomic_fails rfl ?_)
      (.left (.atomic rfl rfl))))
    rintro _ ⟨⟩
    simp [Atomic.Holds]
  | word free => exact matches_word free

theorem matches_named {p : Nat} {name : String} (named : Named l name) :
    Matches (.rule .atom) (⟨o, .op⟩ :: ⟨p, l⟩ :: rest) rest := by
  have other {word : String} (differs : word.toList ≠ "op".toList) :
      ∀ t ∈ List.head? (⟨o, .op⟩ :: ⟨p, l⟩ :: rest), ¬ (Atomic.word word).Holds t.lexeme := by
    rintro _ ⟨⟩ same
    exact differs (Lexeme.word.inj same).symm
  refine .silent rfl (.right (number_fails (by simp [Lexeme.op]))
    (.right (atomic_fails rfl (other (by decide))) (.right (atomic_fails rfl (other (by decide)))
      (.right (bracket_fails rfl (by simp [Lexeme.op])) (.left (.ordinary rfl
        (.both (.atomic rfl rfl) ?_)))))))
  cases named with
  | sign => exact .left (.atomic rfl ⟨_, rfl⟩)
  | operator free =>
    refine .right (atomic_fails rfl ?_) (.atomic rfl ⟨_, free, rfl⟩)
    rintro _ ⟨⟩ ⟨_, same⟩
    cases same

theorem matches_vector (inside : Matches (.both (.either .elements .nothing) (.mark ']')) us rest) :
    Matches (.rule .atom) (⟨o, .mark '['⟩ :: us) rest := by
  refine .silent rfl (.right (number_fails (by simp)) (.right (atomic_fails rfl ?_)
    (.right (atomic_fails rfl ?_) (.left (.ordinary rfl (.both .mark inside))))))
  all_goals
    rintro _ ⟨⟩
    simp [Atomic.Holds]

theorem matches_grouped (inside : Matches (.both (.rule .expression) (.mark ')')) us rest) :
    Matches (.rule .atom) (⟨o, .mark '('⟩ :: us) rest := by
  refine .silent rfl (.right (number_fails (by simp)) (.right (atomic_fails rfl ?_)
    (.right (atomic_fails rfl ?_) (.right (bracket_fails rfl (by simp))
      (.right (opVariable_fails (by simp [Atomic.Holds])) (.right (atomic_fails rfl ?_)
        (.ordinary rfl (.both .mark inside))))))))
  all_goals
    rintro _ ⟨⟩
    simp [Atomic.Holds]

theorem expression_fails (ends : ∀ t ∈ ts.head?, t.lexeme.EndsExpressions) :
    Reads (.rule .expression) ts none := by
  have sign : Reads (.rule .sign) ts none := sign_fails fun t first cs run => by
    have := ends t first
    rw [run] at this
    cases this
  have operand : Reads (.rule .operand) ts none :=
    operand_fails (fun t first => (ends t first).endsAtoms) fun t first word => by
      have := ends t first
      rw [word] at this
      cases this
  exact .ordinary rfl (.secondFails (.stop sign) (.firstFails operand))

end Successes

/-- The grammar matches the tokens of a phrase wherever the phrase may end. -/
def Phrase.Matched (ts : List Token) : Phrase → Prop
  | .atom _ _ => ∀ rest, Matches (.rule .atom) (ts ++ rest) rest
  | .elements _ => ∀ o rest, Matches .elements (ts ++ ⟨o, .mark ']'⟩ :: rest) (⟨o, .mark ']'⟩ :: rest)
  | .application _ => ∀ us rest, Matches (.many (.rule .atom)) us rest →
    Matches (.both (.rule .atom) (.many (.rule .atom))) (ts ++ us) rest
  | .operand _ => ∀ rest, (∀ t ∈ rest.head?, t.lexeme.EndsExpressions) →
    Matches (.rule .operand) (ts ++ rest) rest
  | .chain _ => ∀ rest, (∀ t ∈ rest.head?, t.lexeme.EndsExpressions) →
    Matches (.both (.many (.rule .sign)) (.both (.rule .operand) (.many .linked))) (ts ++ rest) rest
  | .expression _ => ∀ rest, (∀ t ∈ rest.head?, t.lexeme.EndsExpressions) →
    Matches (.rule .expression) (ts ++ rest) rest

/-- The grammar matches every phrase of lexemes. -/
theorem Forms.matched {ts : List Token} {φ : Phrase} (forms : Forms ts φ)
    (valid : ∀ t ∈ ts, ∃ afterOp, t.lexeme.Valid afterOp) : φ.Matched ts := by
  have ends {rest : List Token} (ends : ∀ t ∈ rest.head?, t.lexeme.EndsExpressions) :
      ∀ t ∈ rest.head?, ∀ cs, t.lexeme ≠ .operators cs := fun t first cs run => by
    have := ends t first
    rw [run] at this
    cases this
  induction forms with
  | lexeme atom => exact fun rest => matches_atom atom (valid _ List.mem_cons_self)
  | named named => exact fun rest => matches_named named
  | @group o p ts e _ inner =>
    intro rest
    simp only [List.forall_mem_cons, List.forall_mem_append] at valid
    rw [List.cons_append, List.append_assoc]
    obtain ⟨_, inside, _⟩ := valid
    refine matches_grouped (.both (inner inside _ ?_) .mark)
    rintro _ ⟨⟩
    exact .mark (.inl rfl)
  | @emptyVector o p =>
    intro rest
    refine matches_vector (.both (.right (.firstFails (expression_fails ?_)) ⟨_, .nothing, rfl⟩) .mark)
    rintro _ ⟨⟩
    exact .mark (.inr (.inl rfl))
  | @vector o p ts es _ elems =>
    intro rest
    simp only [List.forall_mem_cons, List.forall_mem_append] at valid
    rw [List.cons_append, List.append_assoc]
    obtain ⟨_, inside, _⟩ := valid
    exact matches_vector (.both (.left (elems inside _ _)) .mark)
  | element _ elem =>
    intro o rest
    refine .both (elem valid _ ?_) (.stop (.firstFails (mark_fails ?_)))
    · rintro _ ⟨⟩
      exact .mark (.inr (.inl rfl))
    · rintro _ ⟨⟩
      simp
  | @more p ts us e es _ _ elem others =>
    intro o rest
    simp only [List.forall_mem_cons, List.forall_mem_append] at valid
    obtain ⟨front, _, behind⟩ := valid
    obtain ⟨middle, next, later⟩ := (others behind o rest).of_both
    rw [List.append_assoc]
    refine .both (elem front _ ?_) (.more (.both .mark next) later)
    rintro _ ⟨⟩
    exact .mark (.inr (.inr rfl))
  | function _ atom => exact fun us rest atoms => .both (atom valid us) atoms
  | @argument o ts us f x _ _ func arg =>
    intro vs rest atoms
    obtain ⟨front, behind⟩ := List.forall_mem_append.1 valid
    rw [List.append_assoc]
    exact func front _ _ (.more (arg behind vs) atoms)
  | applied _ application =>
    intro rest follows
    exact matches_operand (application valid _ _ (.stop (atom_fails fun t first =>
      (follows t first).endsAtoms)))
  | @binding o p q r cs bs es b e free _ _ bound body =>
    intro rest follows
    simp only [List.forall_mem_cons, List.forall_mem_append] at valid
    obtain ⟨_, _, _, front, _, behind⟩ := valid
    simp only [List.cons_append, List.append_assoc]
    refine .silent rfl (.left (.ordinary rfl (.both (.atomic rfl rfl) (.both
      (.atomic rfl ⟨cs, free, rfl⟩) (.both (.atomic rfl rfl) (.both (bound front _ ?_)
        (.both (.atomic rfl rfl) (body behind rest follows))))))))
    rintro _ ⟨⟩
    exact .inWord
  | @term signs ts e _ operand =>
    intro rest follows
    have operand := operand (List.forall_mem_append.1 valid).2 rest follows
    rw [List.append_assoc]
    exact .both (matches_signs signs (sign_fails_of_operand operand))
      (.both operand (.stop (linked_fails (ends follows))))
  | @link signs ts e o us c op _ _ application others =>
    intro rest follows
    simp only [List.forall_mem_cons, List.forall_mem_append] at valid
    obtain ⟨_, front, _, behind⟩ := valid
    simp only [List.append_assoc, List.cons_append]
    have operand := matches_operand (application front
      (⟨o, .operators op.symbol.toList⟩ :: (us ++ rest)) _ (.stop (atom_fails (by
        rintro _ ⟨⟩
        exact .operators))))
    obtain ⟨_, before, later⟩ := (others behind rest follows).of_both
    obtain ⟨_, next, linked⟩ := later.of_both
    exact .both (matches_signs signs (sign_fails_of_operand operand)) (.both operand
      (.more (.both (matches_connective op) (.both before next)) linked))
  | grouped _ chain => exact fun rest follows => .ordinary rfl (chain valid rest follows)

theorem Scan.valid_of_mem {cs : List Char} {t : Token} (member : t ∈ (ofText cs).tokens) :
    ∃ afterOp, t.lexeme.Valid afterOp := by
  obtain ⟨ts, us, split⟩ := List.append_of_mem member
  obtain ⟨_, _, _, _, stands⟩ := scanFrom_front split
  cases stands with
  | token valid => exact ⟨_, valid⟩

namespace Library

variable {lib : Library} {cs : List Char} {draft : Draft}

/-- Of every match of a whole text a tree is built, and the text is read as it. -/
theorem Documented.built {x : Portion (Nat × List Char) Char} (documented : lib.Documented)
    (parses : Input.chars.Parses (.rule .main) (0, cs) (some x)) :
    ∃ m draft, x.left = [m] ∧ lib.build m = .ok draft ∧ readText cs = .ok draft := by
  obtain ⟨rest, z, reads, none, left⟩ := parses_main_iff.1 ⟨x, parses, rfl⟩
  obtain ⟨⟨m, draft, leaves, _, forms⟩, _⟩ := reads.means documented
  have whole := reads.tokens
  rw [none, List.append_nil] at whole
  rw [← whole] at forms
  refine ⟨_, draft, left, ?_, readText_ok.2 ⟨rest, forms.result⟩⟩
  change Match.first _ (lib.buildAll _) = _
  rw [lib.buildAll_eq_map, leaves.left]
  exact leaves.built

theorem parses_of_readText (read : readText cs = .ok draft) :
    ∃ x, Input.chars.Parses (.rule .main) (0, cs) (some x) := by
  obtain ⟨rest, c, chain, _⟩ := readText_ok_iff_grouped.1 read
  have expression := (Forms.grouped chain).matched (fun t => Scan.valid_of_mem) [] nofun
  rw [List.append_nil] at expression
  obtain ⟨z, reads, none⟩ := expression
  obtain ⟨x, parses, _⟩ := parses_main_iff.2 ⟨rest, z, reads, none, rfl⟩
  exact ⟨x, parses⟩

end Library

/-- What parsing may come to: a tree, a token that fits nowhere, or nesting beyond the limit. -/
inductive ParseOutcome (limit : Nat) : Except ParseError (Expr Position) → Prop where
  | tree {tree} : ParseOutcome limit (.ok tree)
  | unexpected {position expected found} :
    ParseOutcome limit (.error ⟨position, .unexpected expected found⟩)
  | tooDeep {position depth} : ParseOutcome limit (.error ⟨position, .tooDeep depth limit⟩)

theorem outcome_parseWithin (limit : Nat) (source text : String) :
    ParseOutcome limit (parseWithin limit source text) := by
  unfold parseWithin
  dsimp only
  split
  · exact .tooDeep
  split
  · exact .tree
  · next failed =>
    obtain ⟨_, _, _, _, _, rfl, _⟩ := readText_stops failed
    exact .unexpected

namespace Library

variable {lib : Library}

theorem Documented.parseWithin_of_ok {limit : Nat} {source text : String} {tree : Expr Position}
    (documented : lib.Documented) (parsed : Formula.parseWithin limit source text = .ok tree) :
    lib.parseWithin limit source text = some (.ok tree) := by
  obtain ⟨shallow, draft, read, rfl⟩ := parseWithin_ok.1 parsed
  obtain ⟨x, parses⟩ := parses_of_readText read
  obtain ⟨m, draft', left, built, read'⟩ := documented.built parses
  cases read.symm.trans read'
  simp only [parseWithin, shallow, (documented.run _ _).2 ⟨x, parses, rfl⟩, left, built]

/-- From the matches of a documented library a text comes to one of the three outcomes: the builder
never fails and never panics. It comes to a tree exactly where the text is parsed as that tree. -/
theorem parseWithin_outcome (documented : lib.Documented) (limit : Nat) (source text : String) :
    ParseOutcome limit (Formula.parseWithin limit source text) ∧
      ∃ outcome, lib.parseWithin limit source text = some outcome ∧ ParseOutcome limit outcome ∧
        ∀ tree, outcome = .ok tree ↔ Formula.parseWithin limit source text = .ok tree := by
  refine ⟨outcome_parseWithin limit source text, ?_⟩
  unfold parseWithin
  dsimp only
  split
  · next deep =>
    refine ⟨_, rfl, .tooDeep, fun tree => ⟨nofun, fun parsed => ?_⟩⟩
    cases deep.symm.trans (parseWithin_ok.1 parsed).1
  · next shallow =>
    cases ran : lib.run text.toList with
    | error failed =>
      refine ⟨_, rfl, .unexpected, fun tree => ⟨nofun, fun parsed => ?_⟩⟩
      have found := documented.parseWithin_of_ok parsed
      simp only [parseWithin, shallow, ran, reduceCtorEq, Option.some.injEq] at found
    | ok ms =>
      obtain ⟨x, parses, rfl⟩ := (documented.run _ _).1 ran
      obtain ⟨m, draft, left, built, read⟩ := documented.built parses
      simp only [left, built]
      refine ⟨_, rfl, .tree, fun tree => ?_⟩
      have parsed : Formula.parseWithin limit source text =
          .ok (draft.map (.ofOffset source text.toList)) :=
        parseWithin_ok.2 ⟨shallow, draft, read, rfl⟩
      rw [parsed]

open Classical in
/-- A library that matches as the grammar says, reports where a rule failed the furthest, and climbs by
precedence. -/
noncomputable def byGrammar : Library where
  run cs :=
    if found : ∃ x, Input.chars.Parses (.rule .main) (0, cs) (some x) then .ok found.choose.left
    else .error (sSup (missed cs), [])
  climb table primary sign connective row :=
    (climbAll table primary sign connective row).getD (.error .panic)

theorem documented_byGrammar : byGrammar.Documented where
  run cs ms := by
    constructor
    · intro ran
      rw [byGrammar] at ran
      dsimp only at ran
      split at ran
      · next found =>
        cases ran
        exact ⟨_, found.choose_spec, rfl⟩
      · cases ran
    · rintro ⟨x, parses, rfl⟩
      have found : ∃ x, Input.chars.Parses (.rule .main) (0, cs) (some x) := ⟨x, parses⟩
      rw [byGrammar]
      dsimp only
      rw [dif_pos found, Option.some.inj (found.choose_spec.unique parses)]
  climb tight groups := by
    change (climbAll _ _ _ _ _).getD _ = _
    rw [groups.climbAll tight]
    rfl

/-- In `-x` stand a sign and an application of no arguments. -/
theorem parseWithin_outcome_negated :
    byGrammar.Documented ∧
      byGrammar.run "-x".toList = .ok [.mk .main 0 [] [
        .mk .expression 0 [] [
          .mk .neg 0 ['-'] [],
          .mk .application 1 [] [.mk .identifier 1 ['x'] []]],
        .mk .endOfInput 2 [] []]] ∧
      byGrammar.parseWithin 1 "s" "-x" = some (.ok
        (Sign.minus.apply ⟨"s", 1, 1, 0⟩ (.var ⟨"s", 1, 2, 1⟩ "x"))) := by
  have parsed : Formula.parseWithin 1 "s" "-x" =
      .ok (Sign.minus.apply ⟨"s", 1, 1, 0⟩ (.var ⟨"s", 1, 2, 1⟩ "x")) := by
    with_unfolding_all rfl
  have scan : Scan.ofText "-x".toList = ⟨[⟨0, .operators ['-']⟩, ⟨1, .word ['x']⟩], 2, []⟩ := by
    with_unfolding_all rfl
  refine ⟨documented_byGrammar, ?_, ?_⟩
  · have neg : Reads (.rule .sign) [⟨0, .operators ['-']⟩, ⟨1, .word ['x']⟩]
        (some ⟨[⟨0, .operators ['-']⟩], [⟨1, .word ['x']⟩], [.mk .neg 0 ['-'] []]⟩) :=
      .silent rfl (.right (atomic_fails rfl (by simp [Atomic.Holds, Sign.symbol]))
        (reads_atomic rfl rfl))
    have name : Reads (.rule .atom) [⟨1, .word ['x']⟩]
        (some ⟨[⟨1, .word ['x']⟩], [], [.mk .identifier 1 ['x'] []]⟩) :=
      .silent rfl (.right (number_fails (by simp))
        (.right (atomic_fails rfl (by simp [Atomic.Holds]))
          (.right (atomic_fails rfl (by simp [Atomic.Holds])) (.right (bracket_fails rfl (by simp))
            (.right (opVariable_fails (by simp [Atomic.Holds]))
              (.left (reads_atomic rfl ⟨['x'], by decide, rfl⟩)))))))
    have operand : Reads (.rule .operand) [⟨1, .word ['x']⟩] (some ⟨[⟨1, .word ['x']⟩], [],
        [.mk .application 1 [] [.mk .identifier 1 ['x'] []]]⟩) :=
      .silent rfl (.right (binding_fails (by simp))
        (.ordinary rfl (.both name (.stop (atom_fails nofun)))))
    have whole := Input.Parses.ordinary (r := .expression) rfl (.both
      (.more neg (.stop (sign_fails (by simp [Input.tokens]))))
      (.both operand (.stop (linked_fails nofun))))
    rw [documented_byGrammar.run, parses_main_iff, scan]
    exact ⟨rfl, _, whole, rfl, rfl⟩
  · obtain ⟨_, outcome, ran, _, same⟩ := parseWithin_outcome documented_byGrammar 1 "s" "-x"
    rw [ran, (same _).2 parsed]

end Library

end Formula
