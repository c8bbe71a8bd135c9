import Formula.Proofs.Climbing
import Formula.Proofs.Matching
import Formula.Proofs.Phrases

/-! Trees built from matches. Whatever a piece of the grammar matches is a phrase, and the builder makes
the tree of the phrase out of the matches that are left. Main statement: of every match of an expression
a tree is built, and the tokens that are matched form the expression of that tree. -/
namespace Formula

open State

/-- What is documented of the library: it matches the characters of a text as the grammar says, and it
groups a row by precedence. -/
structure Library.Documented (lib : Library) : Prop where
  run : ∀ cs ms, lib.run cs = .ok ms ↔
    ∃ x, Input.chars.Parses (.rule .main) (0, cs) (some x) ∧ x.left = ms
  climb : ∀ {table primary sign connective row built}, TightTable table →
    Groups table primary sign connective row built →
      lib.climb table primary sign connective row = built

/-- What is documented of the library's errors: each is reported where a rule failed the furthest. -/
def Library.FailsFurthest (lib : Library) : Prop :=
  ∀ {cs place rules}, lib.run cs = .error (place, rules) → IsGreatest (missed cs) place

def Sign.rule : Sign → Rule
  | .plus => .pos
  | .minus => .neg

def Operator.rule : Operator → Rule
  | .index => .index
  | .power => .pow
  | .times => .mul
  | .divide => .div
  | .remainder => .rem
  | .plus => .add
  | .minus => .sub

/-- The match of a sign. -/
def Sign.matched (s : Sign × Nat) : Match := .mk s.1.rule s.2 s.1.symbol.toList []

/-- The match of an operator. -/
def Operator.matched (op : Operator) (o : Nat) : Match := .mk op.rule o op.symbol.toList []

theorem operatorTable_sign (s : Sign) : operatorTable s.rule = some (.before, 5) := by
  cases s <;> rfl

theorem operatorTable_operator (op : Operator) :
    operatorTable op.rule = some (.between, op.rank + 1) := by
  cases op <;> rfl

section Rows

variable (lib : Library)

/-- A match as it stands in a row. -/
def Library.child (m : Match) : Child := ⟨m, lib.build m⟩

theorem Library.buildAll_eq_map (ms : List Match) : lib.buildAll ms = ms.map lib.child := by
  induction ms with
  | nil => rfl
  | cons m ms ih =>
    rw [buildAll, ih]
    rfl

/-- The matches of a chain: signs, operands and operators in the order in which they are written. -/
inductive Row : List Match → Chain Nat → Prop where
  | term {signs : List (Sign × Nat)} {m e} (plain : operatorTable m.rule = none)
    (built : lib.build m = .ok e) : Row (signs.map Sign.matched ++ [m]) ⟨⟨signs.reverse, e⟩, []⟩
  | link {signs : List (Sign × Nat)} {m e o ms c} {op : Operator}
    (plain : operatorTable m.rule = none) (built : lib.build m = .ok e) (others : Row ms c) :
    Row (signs.map Sign.matched ++ m :: op.matched o :: ms)
      ⟨⟨signs.reverse, e⟩, ⟨op, o, c.first⟩ :: c.links⟩

variable {lib} {ms : List Match} {first : Term Nat} {links before after : List (Link (Term Nat) Nat)}
  {l : Link (Term Nat) Nat} {c : Chain Nat}

theorem Row.levels {P : Nat → Prop} (row : Row lib ms c)
    (each : ∀ l ∈ c.links, P (l.op.rank + 1)) : Levels operatorTable P (ms.map lib.child) := by
  have signs {signs : List (Sign × Nat)} :
      Levels operatorTable P ((signs.map Sign.matched).map lib.child) := by
    intro d member n found
    simp only [List.map_map, List.mem_map] at member
    obtain ⟨s, _, rfl⟩ := member
    cases (operatorTable_sign s.1).symm.trans found
  induction row with
  | term plain _ =>
    rw [List.map_append]
    refine List.forall_mem_append.2 ⟨signs, List.forall_mem_singleton.2 fun n found => ?_⟩
    cases plain.symm.trans found
  | @link _ m _ o ms c op plain _ _ ih =>
    obtain ⟨first, others⟩ := List.forall_mem_cons.1 each
    rw [List.map_append]
    refine List.forall_mem_append.2 ⟨signs, List.forall_mem_cons.2 ⟨fun n found => ?_,
      List.forall_mem_cons.2 ⟨fun n found => ?_, ih others⟩⟩⟩
    · cases plain.symm.trans found
    · cases (operatorTable_operator op).symm.trans found
      exact first

/-- The row of a chain is that of the links before an operator, the operator, and that of the links
after it. -/
theorem Row.split (row : Row lib ms ⟨first, before ++ l :: after⟩) :
    ∃ xs ys, ms = xs ++ l.op.matched l.tag :: ys ∧ Row lib xs ⟨first, before⟩ ∧
      Row lib ys ⟨l.operand, after⟩ := by
  induction before generalizing ms first with
  | nil =>
    cases row with
    | link plain built others => exact ⟨_, _, by simp, .term plain built, others⟩
  | cons b before ih =>
    generalize whole : (⟨first, b :: before ++ l :: after⟩ : Chain Nat) = c at row
    cases row with
    | term => cases whole
    | @link signs m e o ms c op plain built others =>
      obtain ⟨next, links⟩ := c
      obtain ⟨rfl, linked⟩ := Chain.mk.inj whole
      obtain ⟨rfl, rfl⟩ := List.cons.inj linked
      obtain ⟨xs, ys, rfl, left, right⟩ := ih others
      exact ⟨_, ys, by simp, .link plain built left, right⟩

theorem applySign_matched (s : Sign × Nat) (e : Draft) :
    Match.applySign (lib.child (Sign.matched s)) (.ok e) =
      .ok (.apply s.2 (.var s.2 (s.1.symbol ++ "_")) e) := by
  obtain ⟨s, o⟩ := s
  rw [← Sign.name_eq]
  cases s <;> rfl

theorem applyConnective_matched (op : Operator) (o : Nat) (left right : Draft) :
    Match.applyConnective (.ok left) (lib.child (op.matched o)) (.ok right) =
      .ok (.apply o (.apply o (.var o op.symbol) left) right) := by
  cases op <;> rfl

/-- How the builder groups rows. -/
abbrev BuildGroups : List Child → Built → Prop :=
  Groups operatorTable Child.built Match.applySign Match.applyConnective

theorem groups_term {signs : List (Sign × Nat)} {m : Match} {e : Draft}
    (plain : operatorTable m.rule = none) (built : lib.build m = .ok e) :
    BuildGroups ((signs.map Sign.matched ++ [m]).map lib.child) (.ok (Sign.applyAll signs e)) := by
  induction signs with
  | nil =>
    have operand : BuildGroups [lib.child m] (lib.build m) := .operand plain
    rwa [built] at operand
  | cons s signs ih =>
    have row : Row lib (signs.map Sign.matched ++ [m]) ⟨⟨signs.reverse, e⟩, []⟩ := .term plain built
    have alone := row.levels (P := fun _ => False) nofun
    have step : BuildGroups _ _ :=
      .sign (s := lib.child (Sign.matched s)) (operatorTable_sign s.1) alone ih
    rwa [applySign_matched] at step

/-- The row of a chain is grouped to its tree. -/
theorem Row.groups (row : Row lib ms ⟨first, links⟩) :
    BuildGroups (ms.map lib.child) (.ok (groupTerms first links)) := by
  induction first, links using groupTerms.induct generalizing ms with
  | case1 first links none =>
    cases Link.split?_eq_none.1 none
    cases row with
    | term plain built =>
      rw [groupTerms_nil, List.reverse_reverse]
      exact groups_term plain built
  | case2 first links before loosest after found left right =>
    obtain ⟨rfl, lower, higher⟩ := Link.split?_some found
    obtain ⟨xs, ys, rfl, rowLeft, rowRight⟩ := row.split
    have ranked : operatorTable (lib.child (loosest.op.matched loosest.tag)).part.rule = _ :=
      operatorTable_operator loosest.op
    have step : BuildGroups _ _ := .connective ranked
      (rowLeft.levels fun l member => Nat.succ_le_succ (lower l member))
      (rowRight.levels fun l member => Nat.succ_lt_succ (higher l member)) (left rowLeft)
      (right rowRight)
    rw [applyConnective_matched, ← List.map_cons, ← List.map_append] at step
    rwa [groupTerms_of_split? found]

end Rows

section Meanings

variable (lib : Library)

/-- One match is left that is no operator, and a tree is built of it. -/
structure LeavesTree (x : Taken) (m : Match) (e : Draft) : Prop where
  left : x.left = [m]
  plain : operatorTable m.rule = none
  built : lib.build m = .ok e

/-- What a rule matches is a phrase, of which the builder makes the tree. The body of a `let` takes the
operators behind it, so none goes on behind an expression or a `let`. -/
def Rule.Means (r : Rule) (x : Taken) : Prop :=
  match r with
  | .expression => (∃ m e, LeavesTree lib x m e ∧ m.rule = .expression ∧ Forms x.parts (.expression e)) ∧
    Reads .linked x.rest none
  | .operand => ∃ m e, LeavesTree lib x m e ∧ (Forms x.parts (.application e) ∨
    Forms x.parts (.operand e) ∧ Reads .linked x.rest none)
  | .binding => (∃ m e, LeavesTree lib x m e ∧ Forms x.parts (.operand e)) ∧ Reads .linked x.rest none
  | .application => ∃ m e, LeavesTree lib x m e ∧ Forms x.parts (.application e)
  | .atom | .grouped | .vector | .opVariable | .number =>
    ∃ m e, LeavesTree lib x m e ∧ Forms x.parts (.atom m.offset e)
  | .sign => ∃ s : Sign × Nat, x.parts = Sign.tokens [s] ∧ x.left = [Sign.matched s]
  | .connective => ∃ (op : Operator) (o : Nat),
    x.parts = [⟨o, .operators op.symbol.toList⟩] ∧ x.left = [op.matched o]
  | r => ∃ o l a, r.body = .atomic a ∧ a.Holds l ∧ x.parts = [⟨o, l⟩] ∧ x.left = [.mk r o l.text []]

/-- Pieces one after another, each with a property. -/
inductive InTurn (P : Taken → Prop) : Taken → Prop where
  | stop {ts} : InTurn P ⟨[], ts, []⟩
  | more {x y} (first : P x) (others : InTurn P y) (next : x.rest = y.parts ++ y.rest) :
    InTurn P (x.append y)

def Piece.Means : Piece → Taken → Prop
  | .nothing, x => x.parts = [] ∧ x.left = []
  | .mark c, x => ∃ o, x.parts = [⟨o, .mark c⟩] ∧ x.left = []
  | .rule r, x => r.Means lib x
  | .both p q, x => ∃ y z, p.Means y ∧ q.Means z ∧ y.rest = z.parts ++ z.rest ∧ x = y.append z
  | .either p q, x => p.Means x ∨ q.Means x
  | .many p, x =>
    InTurn (fun y => p.Means y ∧ Reads p (y.parts ++ y.rest) (some y)) x ∧ Reads p x.rest none

variable {lib} {x y z : Taken} {ts : List Token} {e : Draft}

theorem InTurn.mono {P Q : Taken → Prop} (inTurn : InTurn P x) (less : ∀ y, P y → Q y) :
    InTurn Q x := by
  induction inTurn with
  | stop => exact .stop
  | more first _ next ih => exact .more (less _ first) ih next

theorem inTurn_signs (inTurn : InTurn (Rule.sign.Means lib) x) : ∃ signs : List (Sign × Nat),
    x.parts = Sign.tokens signs ∧ x.left = signs.map Sign.matched := by
  induction inTurn with
  | stop => exact ⟨[], rfl, rfl⟩
  | more first _ _ ih =>
    obtain ⟨s, tokens, left⟩ := first
    obtain ⟨signs, others, lefts⟩ := ih
    exact ⟨s :: signs, by rw [Portion.append, tokens, others]; rfl,
      by rw [Portion.append, left, lefts, List.map_cons, List.singleton_append]⟩

theorem inTurn_linked (inTurn : InTurn (fun y => Piece.linked.Means lib y ∧
      Reads .linked (y.parts ++ y.rest) (some y)) z) (ends : Reads .linked z.rest none)
    (operand : Rule.operand.Means lib y) (next : y.rest = z.parts ++ z.rest)
    (signs : List (Sign × Nat)) : ∃ c, Forms (Sign.tokens signs ++ (y.parts ++ z.parts)) (.chain c) ∧
      Row lib (signs.map Sign.matched ++ (y.left ++ z.left)) c := by
  induction inTurn generalizing y signs with
  | stop =>
    obtain ⟨m, e, leaves, forms⟩ := operand
    simp only [List.append_nil, leaves.left]
    refine ⟨_, .term ?_, .term leaves.plain leaves.built⟩
    rcases forms with application | ⟨binding, _⟩
    · exact .applied application
    · exact binding
  | @more x z first _ later ih =>
    obtain ⟨means, reads⟩ := first
    obtain ⟨op, x', ⟨op, o, opTokens, opLeft⟩, ⟨before, y', ⟨signed, _⟩, operand', follows', rfl⟩,
      follows, rfl⟩ := means
    obtain ⟨m, e, leaves, forms⟩ := operand
    obtain ⟨others, signTokens, signLeft⟩ := inTurn_signs (signed.mono fun _ => And.left)
    obtain ⟨c, chain, row⟩ := ih ends operand' later others
    rcases forms with application | ⟨_, none⟩
    · have forms : Forms (Sign.tokens signs ++ (y.parts ++ ⟨o, .operators op.symbol.toList⟩ :: _)) _ :=
        .link application chain
      have whole : Row lib (signs.map Sign.matched ++ m :: op.matched o :: _) _ :=
        .link leaves.plain leaves.built row
      refine ⟨⟨⟨signs.reverse, e⟩, ⟨op, o, c.first⟩ :: c.links⟩, ?_, ?_⟩
      · simpa [Portion.append, opTokens, signTokens] using forms
      · simpa [Portion.append, opLeft, signLeft, leaves.left] using whole
    · rw [next, Portion.append, List.append_assoc, ← later] at none
      cases none.unique reads

theorem inTurn_arguments (inTurn : InTurn (Rule.atom.Means lib) z) {f : Draft}
    (func : Forms ts (.application f)) : ∃ e, Forms (ts ++ z.parts) (.application e) ∧
      (z.left.map lib.child).foldlM (fun func arg => do
        let value ← arg.built
        return .apply arg.part.offset func value) f = Except.ok e := by
  induction inTurn generalizing ts f with
  | stop => exact ⟨f, by rwa [List.append_nil], rfl⟩
  | @more x z first _ _ ih =>
    obtain ⟨m, e, leaves, arg⟩ := first
    obtain ⟨e', forms, built⟩ := ih (.argument func arg)
    refine ⟨e', by rwa [Portion.append, ← List.append_assoc], ?_⟩
    rw [Portion.append, leaves.left, List.singleton_append, List.map_cons, List.foldlM_cons,
      Library.child, leaves.built]
    exact built

theorem inTurn_elements (inTurn : InTurn (Piece.separated.Means lib) z)
    (elem : Forms ts (.expression e)) : ∃ es, Forms (ts ++ z.parts) (.elements (e :: es)) ∧
      (z.left.map lib.child).mapM Child.built = .ok es := by
  induction inTurn generalizing ts e with
  | stop => exact ⟨[], by rw [List.append_nil]; exact .element elem, rfl⟩
  | @more x z first _ _ ih =>
    obtain ⟨comma, y, ⟨o, commaTokens, commaLeft⟩, ⟨⟨m, e', leaves, _, forms⟩, _⟩, _, rfl⟩ := first
    obtain ⟨es, others, built⟩ := ih forms
    refine ⟨e' :: es, ?_, ?_⟩
    · simpa [Portion.append, commaTokens] using Forms.more elem others
    · simp only [Portion.append, commaLeft, leaves.left, List.nil_append, List.singleton_append,
        List.map_cons, List.mapM_cons, Library.child, leaves.built, built]
      rfl

theorem buildRadix_eq {radix : Nat} {isRadixDigit : Char → Bool} {lower upper : Char} {r : Rule}
    {o : Nat} {cs : List Char} (valid : Numeral.ValidRadix lower upper isRadixDigit cs) :
    (Match.mk r o cs []).buildRadix radix isRadixDigit =
      .ok (.literal o (.number (Numeral.radixValue radix (cs.drop 2)))) := by
  cases valid with
  | @mk x ds letter some digits =>
    rw [Match.buildRadix, Match.text, if_neg (by simp)]
    simp only [List.drop_succ_cons, List.drop_zero, List.filter_eq_self.2 digits]
    rfl

theorem means_of_atomic {r : Rule} {a : Atomic} (body : r.body = .atomic a)
    (plain : operatorTable r = none)
    (atom : ∀ o l, a.Holds l → ∃ e, lib.build (.mk r o l.text []) = .ok e ∧ Atom o l e)
    (means : ∃ o l a, r.body = .atomic a ∧ a.Holds l ∧ x.parts = [⟨o, l⟩] ∧
      x.left = [.mk r o l.text []]) : ∃ m e, LeavesTree lib x m e ∧ Forms x.parts (.atom m.offset e) := by
  obtain ⟨o, l, _, body', holds, tokens, left⟩ := means
  cases body.symm.trans body'
  obtain ⟨e, built, atom⟩ := atom o l holds
  exact ⟨_, e, ⟨left, plain, built⟩, by rw [tokens]; exact .lexeme atom⟩

theorem number_means (means : Piece.numeral.Means lib x) : Rule.number.Means lib x := by
  rcases means with hex | octal | decimal
  · refine means_of_atomic rfl rfl ?_ hex
    rintro o _ ⟨cs, valid, rfl⟩
    exact ⟨_, buildRadix_eq valid, .numeral (Numeral.value?_of_hex valid)⟩
  · refine means_of_atomic rfl rfl ?_ octal
    rintro o _ ⟨cs, valid, rfl⟩
    exact ⟨_, buildRadix_eq valid, .numeral (Numeral.value?_of_octal valid)⟩
  · refine means_of_atomic rfl rfl ?_ decimal
    rintro o _ ⟨cs, valid, rfl⟩
    obtain ⟨d, read⟩ := valid.read?
    have value := Numeral.value?_of_decimal valid
    rw [read] at value
    refine ⟨_, ?_, .numeral value⟩
    change (Match.mk .decimal o cs []).buildDecimal = _
    rw [Match.buildDecimal, Match.text, read]
    rfl

theorem elements_means (means : (Piece.either .elements .nothing).Means lib x) : ∃ es,
    (x.left.map lib.child).mapM Child.built = .ok es ∧ ∀ o p,
      Forms (⟨o, .mark '['⟩ :: (x.parts ++ [⟨p, .mark ']'⟩])) (.atom o (.vector o es)) := by
  rcases means with ⟨y, z, ⟨⟨m, e, leaves, _, elem⟩, _⟩, ⟨others, _⟩, _, rfl⟩ | ⟨tokens, left⟩
  · obtain ⟨es, elems, built⟩ := inTurn_elements (others.mono fun _ => And.left) elem
    refine ⟨e :: es, ?_, fun o p => .vector elems⟩
    simp only [Portion.append, leaves.left, List.singleton_append, List.map_cons, List.mapM_cons,
      Library.child, leaves.built, built]
    rfl
  · refine ⟨[], by rw [left]; rfl, fun o p => ?_⟩
    rw [tokens]
    exact .emptyVector

/-- Of the six parts of a `let`, the name, the bound expression and the body are looked at. -/
theorem buildBinding_eq {m : Match} {letWord name equals bound inWord body : Child} {b e : Draft}
    (letRule : letWord.part.rule = .letWord) (nameRule : name.part.rule = .identifier)
    (equalsRule : equals.part.rule = .equals) (boundRule : bound.part.rule = .expression)
    (inRule : inWord.part.rule = .inWord) (bodyRule : body.part.rule = .expression)
    (boundBuilt : bound.built = .ok b) (bodyBuilt : body.built = .ok e) :
    m.buildBinding [letWord, name, equals, bound, inWord, body] =
      .ok (.letIn m.offset (String.ofList name.part.text) b e) := by
  have parts : [letWord, name, equals, bound, inWord, body].filter
      (fun child => child.part.rule ∉ [.letWord, .equals, .inWord]) = [name, bound, body] := by
    simp [letRule, nameRule, equalsRule, boundRule, inRule, bodyRule]
  rw [Match.buildBinding, parts]
  simp only [boundBuilt, bodyBuilt]
  rfl

theorem expression_means (documented : lib.Documented)
    (means : (Piece.both (.many (.rule .sign)) (.both (.rule .operand) (.many .linked))).Means lib x) :
    Rule.expression.Means lib (Input.tokens.shown .expression ts x) := by
  obtain ⟨y, w, ⟨signed, _⟩, ⟨z, v, operand, ⟨linked, ends⟩, next, rfl⟩, _, rfl⟩ := means
  obtain ⟨signs, tokens, left⟩ := inTurn_signs (signed.mono fun _ => And.left)
  obtain ⟨⟨first, links⟩, chain, row⟩ := inTurn_linked linked ends operand next signs
  refine ⟨⟨_, _, ⟨rfl, rfl, ?_⟩, rfl, .grouped (c := ⟨first, links⟩) ?_⟩, ends⟩
  · change lib.climb operatorTable Child.built Match.applySign Match.applyConnective
      (lib.buildAll _) = _
    rw [lib.buildAll_eq_map, Portion.append, left]
    exact documented.climb tightTable_operatorTable row.groups
  · rwa [Input.shown, Portion.append, tokens]

theorem binding_means (means : (Piece.both (.rule .letWord) (.both (.rule .identifier)
      (.both (.rule .equals) (.both (.rule .expression) (.both (.rule .inWord)
        (.rule .expression)))))).Means lib x) :
    Rule.binding.Means lib (Input.tokens.shown .binding ts x) := by
  obtain ⟨_, _, ⟨o, _, _, word, holds, letTokens, letLeft⟩, ⟨_, _, ⟨p, _, _, name, free, nameTokens,
    nameLeft⟩, ⟨_, _, ⟨q, _, _, equals, sign, eqTokens, eqLeft⟩, ⟨b, _, ⟨⟨m, bound, leaves, shows,
    forms⟩, _⟩, ⟨_, e, ⟨r, _, _, inBody, ends, inTokens, inLeft⟩, ⟨⟨n, body', leaves', shows',
    forms'⟩, last⟩, _, rfl⟩, _, rfl⟩, _, rfl⟩, _, rfl⟩, _, rfl⟩ := means
  cases word
  cases holds
  cases name
  obtain ⟨cs, free, rfl⟩ := free
  cases equals
  cases sign
  cases inBody
  cases ends
  refine ⟨⟨_, .letIn o (String.ofList cs) bound body', ⟨rfl, rfl, ?_⟩, ?_⟩, last⟩
  · change Match.buildBinding _ (lib.buildAll _) = _
    simp only [lib.buildAll_eq_map, Portion.append, letLeft, nameLeft, eqLeft, inLeft, leaves.left,
      leaves'.left, List.cons_append, List.nil_append, List.map_cons, List.map_nil]
    rw [buildBinding_eq rfl rfl rfl shows rfl shows' leaves.built leaves'.built, Match.offset,
      letTokens]
    rfl
  · have whole : Forms (⟨o, .word "let".toList⟩ :: ⟨p, .word cs⟩ :: ⟨q, .operators ['=']⟩ ::
      (b.parts ++ ⟨r, .word "in".toList⟩ :: e.parts)) _ := .binding free forms forms'
    simpa [Input.shown, Portion.append, letTokens, nameTokens, eqTokens, inTokens] using whole

theorem application_means (means : (Piece.both (.rule .atom) (.many (.rule .atom))).Means lib x) :
    Rule.application.Means lib (Input.tokens.shown .application ts x) := by
  obtain ⟨y, z, ⟨m, e, leaves, forms⟩, ⟨others, _⟩, _, rfl⟩ := means
  obtain ⟨e', applied, built⟩ := inTurn_arguments (others.mono fun _ => And.left) (.function forms)
  refine ⟨_, e', ⟨rfl, rfl, ?_⟩, applied⟩
  change Match.buildApplication _ (lib.buildAll _) = _
  rw [lib.buildAll_eq_map, Portion.append, leaves.left, List.singleton_append, List.map_cons,
    Match.buildApplication, Library.child, leaves.built]
  exact built

theorem grouped_means
    (means : (Piece.both (.mark '(') (.both (.rule .expression) (.mark ')'))).Means lib x) :
    Rule.grouped.Means lib (Input.tokens.shown .grouped ts x) := by
  obtain ⟨y, _, ⟨o, opened, none⟩, ⟨z, w, ⟨⟨m, e, leaves, _, forms⟩, _⟩, ⟨p, closed, _⟩, _, rfl⟩,
    _, rfl⟩ := means
  refine ⟨_, e, ⟨rfl, rfl, ?_⟩, ?_⟩
  · change Match.first _ (lib.buildAll _) = _
    rw [lib.buildAll_eq_map, Portion.append, Portion.append, none, leaves.left]
    exact leaves.built
  · have whole : Forms (⟨o, .mark '('⟩ :: (z.parts ++ [⟨p, .mark ')'⟩])) _ := .group forms
    simpa [Input.shown, Portion.append, opened, closed, Match.offset, startOf] using whole

theorem vector_means (means : (Piece.both (.mark '[')
      (.both (.either .elements .nothing) (.mark ']'))).Means lib x) :
    Rule.vector.Means lib (Input.tokens.shown .vector ts x) := by
  obtain ⟨_, _, ⟨o, opened, openLeft⟩, ⟨z, _, elements, ⟨p, closed, closeLeft⟩, _, rfl⟩, _, rfl⟩ :=
    means
  obtain ⟨es, built, forms⟩ := elements_means elements
  refine ⟨_, .vector o es, ⟨rfl, rfl, ?_⟩, ?_⟩
  · change Match.buildVector _ (lib.buildAll _) = _
    rw [lib.buildAll_eq_map, Portion.append, Portion.append, openLeft, closeLeft, List.nil_append,
      List.append_nil, Match.buildVector, built, Match.offset, opened]
    rfl
  · simpa [Input.shown, Portion.append, opened, closed, Match.offset, startOf] using forms o p

theorem named_means (means : Piece.named.Means lib x) : ∃ r p l,
    x.parts = [⟨p, l⟩] ∧ x.left = [.mk r p l.text []] ∧ r ∈ [Rule.operator, Rule.signVariable] ∧
      Named l (String.ofList l.text) := by
  rcases means with ⟨p, l, _, body, test, tokens, left⟩ | ⟨p, l, _, body, test, tokens, left⟩
  · cases body
    obtain ⟨cs, rfl⟩ := test
    exact ⟨_, p, _, tokens, left, by simp, .sign⟩
  · cases body
    obtain ⟨cs, free, rfl⟩ := test
    exact ⟨_, p, _, tokens, left, by simp, .operator free⟩

theorem opVariable_means (means : (Piece.both (.rule .opWord) .named).Means lib x) :
    Rule.opVariable.Means lib (Input.tokens.shown .opVariable ts x) := by
  obtain ⟨_, y, ⟨o, _, _, word, holds, opTokens, opLeft⟩, name, _, rfl⟩ := means
  cases word
  cases holds
  obtain ⟨r, p, l, tokens, left, known, named⟩ := named_means name
  refine ⟨_, .var o (String.ofList l.text), ⟨rfl, rfl, ?_⟩, ?_⟩
  · change Match.buildOpVariable _ (lib.buildAll _) = _
    rw [lib.buildAll_eq_map, Portion.append, opLeft, left, List.singleton_append, List.map_cons,
      List.map_singleton, Match.buildOpVariable,
      List.find?_cons_of_neg (by simp [Library.child, Match.rule]),
      List.find?_cons_of_pos (by simpa [Library.child, Match.rule] using known)]
    simp only [Library.child, Match.offset, opTokens]
    rfl
  · have whole : Forms [⟨o, .op⟩, ⟨p, l⟩] _ := .named named
    simpa [Input.shown, Portion.append, opTokens, tokens, Match.offset, startOf, Lexeme.op] using whole

theorem means_of_ordinary {r : Rule} {p : Piece} (documented : lib.Documented)
    (body : r.body = .ordinary p) (means : p.Means lib x) : r.Means lib (Input.tokens.shown r ts x) := by
  cases r <;> cases body
  case main =>
    obtain ⟨_, _, _, ⟨_, _, _, ⟨_, _, _, ending, holds, _⟩, _⟩, _⟩ := means
    cases ending
    exact holds.elim
  case expression => exact expression_means documented means
  case binding => exact binding_means means
  case application => exact application_means means
  case grouped => exact grouped_means means
  case vector => exact vector_means means
  case opVariable => exact opVariable_means means

theorem means_of_symbol {r : Rule} {symbol : String} {P : Prop}
    (body : r.body = .atomic (.symbol symbol))
    (means : ∃ o l a, r.body = .atomic a ∧ a.Holds l ∧ x.parts = [⟨o, l⟩] ∧
      x.left = [.mk r o l.text []])
    (goal : ∀ o, x.parts = [⟨o, .operators symbol.toList⟩] →
      x.left = [.mk r o symbol.toList []] → P) : P := by
  obtain ⟨o, l, _, body', holds, tokens, left⟩ := means
  cases body.symm.trans body'
  cases holds
  exact goal o tokens left

theorem means_of_silent {r : Rule} {p : Piece} (body : r.body = .silent p)
    (means : p.Means lib x) : r.Means lib x := by
  cases r <;> cases body
  case operand =>
    rcases means with ⟨⟨m, e, leaves, forms⟩, ends⟩ | ⟨m, e, leaves, forms⟩
    · exact ⟨m, e, leaves, .inr ⟨forms, ends⟩⟩
    · exact ⟨m, e, leaves, .inl forms⟩
  case atom =>
    rcases means with number | nan | infinity | vector | op | name | grouped
    · exact number
    · refine means_of_atomic rfl rfl ?_ nan
      rintro o _ rfl
      exact ⟨_, rfl, .nan⟩
    · refine means_of_atomic rfl rfl ?_ infinity
      rintro o _ rfl
      exact ⟨_, rfl, .infinity⟩
    · exact vector
    · exact op
    · refine means_of_atomic rfl rfl ?_ name
      rintro o _ ⟨cs, free, rfl⟩
      exact ⟨.var o (String.ofList cs), rfl, .word free⟩
    · exact grouped
  case sign =>
    rcases means with plus | minus
    · exact means_of_symbol rfl plus fun o tokens left => ⟨(.plus, o), tokens, left⟩
    · exact means_of_symbol rfl minus fun o tokens left => ⟨(.minus, o), tokens, left⟩
  case connective =>
    rcases means with index | power | times | divide | remainder | plus | minus
    · exact means_of_symbol rfl index fun o tokens left => ⟨.index, o, tokens, left⟩
    · exact means_of_symbol rfl power fun o tokens left => ⟨.power, o, tokens, left⟩
    · exact means_of_symbol rfl times fun o tokens left => ⟨.times, o, tokens, left⟩
    · exact means_of_symbol rfl divide fun o tokens left => ⟨.divide, o, tokens, left⟩
    · exact means_of_symbol rfl remainder fun o tokens left => ⟨.remainder, o, tokens, left⟩
    · exact means_of_symbol rfl plus fun o tokens left => ⟨.plus, o, tokens, left⟩
    · exact means_of_symbol rfl minus fun o tokens left => ⟨.minus, o, tokens, left⟩
  case number => exact number_means means

/-- Whatever a piece of the grammar matches means what the piece says. -/
theorem Reads.means (documented : lib.Documented) {p : Piece} (reads : Reads p ts (some x)) :
    p.Means lib x := by
  generalize result : some x = a at reads
  induction reads generalizing x with
  | nothing => cases result; exact ⟨rfl, rfl⟩
  | @mark c _ _ _ takes =>
    cases result
    obtain @⟨⟨o, _⟩, _, rfl⟩ := takes
    exact ⟨o, rfl, rfl⟩
  | both _ second left right =>
    cases result
    exact ⟨_, _, left rfl, right rfl, second.tokens, rfl⟩
  | left _ first => exact .inl (first result)
  | right _ _ _ second => exact .inr (second result)
  | stop fails => cases result; exact ⟨.stop, fails⟩
  | more first others means inTurn =>
    cases result
    obtain ⟨later, ends⟩ := inTurn rfl
    rw [first.tokens] at first
    exact ⟨.more ⟨means rfl, first⟩ later others.tokens, ends⟩
  | ordinary body _ means =>
    obtain ⟨y, rfl, rfl⟩ := Option.map_eq_some_iff.1 result.symm
    exact means_of_ordinary documented body (means rfl)
  | silent body _ means => exact means_of_silent body (means result)
  | @atomic r a _ _ _ body takes =>
    cases result
    obtain ⟨holds⟩ := takes
    rw [Input.tokens_textOf_singleton]
    cases r <;> first | exact ⟨_, _, a, body, holds, rfl, rfl⟩ | cases body
  | markFails | firstFails | secondFails | atomicFails => cases result

end Meanings

end Formula
