import Formula.Proofs.Matching
import Formula.Proofs.NestingScan
import Formula.Proofs.Viable

/-! Matching a text character by character comes to the same as matching its tokens. Two inputs that
agree on what has no layout inside agree on every piece of the grammar, and where no layout stands a
text and its tokens agree on that: what is matched there is the longest lexeme. After `op`, where the
longest lexeme is another one, only a name is matched. Main statement: the whole grammar matches a text
just if the text is cut into tokens to its end and an expression takes all of them. -/
namespace Formula

section Simulation

variable {ι ι' σ σ' : Type}

/-- What is matched of two inputs, with places behind it that are related. -/
structure Portion.Alike (input : Input ι σ) (other : Input ι' σ') (R : ι → ι' → Prop)
    (x : Portion ι σ) (y : Portion ι' σ') : Prop where
  left : x.left = y.left
  next : R (input.pass x.rest) (other.pass y.rest)

/-- A piece of the grammar matches alike at two places, or fails at both. -/
def Input.Agree (input : Input ι σ) (other : Input ι' σ') (R : ι → ι' → Prop) (p : Piece) (i : ι)
    (j : ι') : Prop :=
  ∃ a b, input.Parses p i a ∧ other.Parses p j b ∧ Option.Rel (Portion.Alike input other R) a b

/-- The pieces that take one lexeme, or `op` and another. -/
def Piece.isUnit : Piece → Bool
  | .mark c => Lexeme.isMark c
  | .rule r => r ∈ [.opVariable, .number, .nan, .infinity, .letWord, .inWord, .equals, .identifier, .pos,
      .neg, .index, .pow, .mul, .div, .rem, .add, .sub]
  | _ => false

/-- The pieces made of units. -/
def Piece.isComposed : Piece → Bool
  | .nothing => true
  | .mark c => Lexeme.isMark c
  | .rule r => (Piece.rule r).isUnit ||
      r ∈ [.expression, .operand, .binding, .application, .atom, .grouped, .vector, .sign, .connective]
  | .both p q | .either p q => p.isComposed && q.isComposed
  | .many p => p.isComposed

/-- Whether a piece takes something wherever it matches. -/
def Piece.needs : Piece → Bool
  | .nothing | .many _ => false
  | .mark _ | .rule _ => true
  | .both p q => p.needs || q.needs
  | .either p q => p.needs && q.needs

theorem Rule.needs_body {r : Rule} {p : Piece} (body : r.body = .ordinary p ∨ r.body = .silent p) :
    p.needs = true := by
  rcases body with body | body <;> cases r <;> cases body <;> rfl

theorem Rule.isComposed_body {r : Rule} {p : Piece} (composed : (Piece.rule r).isComposed = true)
    (inner : (Piece.rule r).isUnit = false) (body : r.body = .ordinary p ∨ r.body = .silent p) :
    p.isComposed = true := by
  rcases body with body | body <;> cases r <;> cases body <;>
    first | rfl | exact absurd composed (by decide) | exact absurd inner (by decide)

theorem Rule.isUnit_of_atomic {r : Rule} {a : Atomic} (composed : (Piece.rule r).isComposed = true)
    (body : r.body = .atomic a) : (Piece.rule r).isUnit = true := by
  cases r <;> first | rfl | exact absurd composed (by decide) | cases body

/-- Two inputs that agree on the units, with related places. -/
structure Input.Mirrors (input : Input ι σ) (other : Input ι' σ') (R : ι → ι' → Prop) : Prop where
  pass : ∀ {i j}, R i j → R (input.pass i) (other.pass j)
  unit : ∀ {p i j}, p.isUnit = true → R i j → input.Agree other R p i j
  start : ∀ {p i j x y}, R i j → p.needs = true → input.Parses p i (some x) →
    other.Parses p j (some y) → input.start i x.parts = other.start j y.parts

variable {input : Input ι σ} {other : Input ι' σ'} {R S : ι → ι' → Prop} {p q : Piece} {r : Rule}
  {i : ι} {j : ι'} {x x' : Portion ι σ} {y y' : Portion ι' σ'} {a : Option (Portion ι σ)}
  {b : Option (Portion ι' σ')}

theorem Portion.Alike.append (first : Portion.Alike input other S x y)
    (second : Portion.Alike input other R x' y') :
    Portion.Alike input other R (x.append x') (y.append y') where
  left := by rw [Portion.append, first.left, second.left]; rfl
  next := second.next

theorem Portion.Alike.shown (alike : Portion.Alike input other R x y)
    (start : input.start i x.parts = other.start j y.parts) :
    Portion.Alike input other R (input.shown r i x) (other.shown r j y) where
  left := by rw [Input.shown, Input.shown, start, alike.left]
  next := alike.next

theorem Portion.Alike.symm (alike : Portion.Alike input other R x y) :
    Portion.Alike other input (flip R) y x :=
  ⟨alike.left.symm, alike.next⟩

theorem Portion.Alike.rel_symm (rel : Option.Rel (Portion.Alike input other R) a b) :
    Option.Rel (Portion.Alike other input (flip R)) b a := by
  cases rel with
  | some alike => exact .some alike.symm
  | none => exact .none

theorem Input.Agree.symm (agree : input.Agree other R p i j) : other.Agree input (flip R) p j i := by
  obtain ⟨a, b, first, second, rel⟩ := agree
  exact ⟨b, a, second, first, Portion.Alike.rel_symm rel⟩

theorem Input.Mirrors.symm (mirrors : input.Mirrors other R) : other.Mirrors input (flip R) where
  pass related := mirrors.pass related
  unit isUnit related := (mirrors.unit isUnit related).symm
  start related needs first second := (mirrors.start related needs second first).symm

theorem Input.Agree.left (agree : input.Agree other R p i j) (parses : input.Parses p i a) :
    ∃ b, other.Parses p j b ∧ Option.Rel (Portion.Alike input other R) a b := by
  obtain ⟨a', b, first, second, rel⟩ := agree
  cases parses.unique first
  exact ⟨b, second, rel⟩

/-- What is matched of an input is matched of one that mirrors it. -/
theorem Input.Mirrors.parses (mirrors : input.Mirrors other R) (parses : input.Parses p i a)
    (composed : p.isComposed = true) (related : R i j) :
    ∃ b, other.Parses p j b ∧ Option.Rel (Portion.Alike input other R) a b := by
  -- By induction on how the first input is matched; the second is related wherever the first goes on.
  induction parses generalizing j with
  | nothing => exact ⟨_, .nothing, .some ⟨rfl, mirrors.pass related⟩⟩
  | mark takes => exact (mirrors.unit (p := .mark _) composed related).left (.mark takes)
  | markFails fails => exact (mirrors.unit (p := .mark _) composed related).left (.markFails fails)
  | both _ _ ih ih' =>
    rw [Piece.isComposed, Bool.and_eq_true] at composed
    obtain ⟨_, first, ⟨alike⟩⟩ := ih composed.1 related
    obtain ⟨_, second, ⟨alike'⟩⟩ := ih' composed.2 alike.next
    exact ⟨_, .both first second, .some (alike.append alike')⟩
  | firstFails _ ih =>
    rw [Piece.isComposed, Bool.and_eq_true] at composed
    obtain ⟨_, first, ⟨⟩⟩ := ih composed.1 related
    exact ⟨_, .firstFails first, .none⟩
  | secondFails _ _ ih ih' =>
    rw [Piece.isComposed, Bool.and_eq_true] at composed
    obtain ⟨_, first, ⟨alike⟩⟩ := ih composed.1 related
    obtain ⟨_, second, ⟨⟩⟩ := ih' composed.2 alike.next
    exact ⟨_, .secondFails first second, .none⟩
  | left _ ih =>
    rw [Piece.isComposed, Bool.and_eq_true] at composed
    obtain ⟨_, first, ⟨alike⟩⟩ := ih composed.1 related
    exact ⟨_, .left first, .some alike⟩
  | right _ _ ih ih' =>
    rw [Piece.isComposed, Bool.and_eq_true] at composed
    obtain ⟨_, first, ⟨⟩⟩ := ih composed.1 related
    obtain ⟨_, second, rel⟩ := ih' composed.2 related
    exact ⟨_, .right first second, rel⟩
  | stop _ ih =>
    obtain ⟨_, fails, ⟨⟩⟩ := ih composed related
    exact ⟨_, .stop fails, .some ⟨rfl, mirrors.pass related⟩⟩
  | more _ _ ih ih' =>
    obtain ⟨_, first, ⟨alike⟩⟩ := ih composed related
    obtain ⟨_, others, ⟨alike'⟩⟩ := ih' composed alike.next
    exact ⟨_, .more first others, .some (alike.append alike')⟩
  | @ordinary r p i result body piece ih =>
    cases isUnit : (Piece.rule r).isUnit with
    | true => exact (mirrors.unit isUnit related).left (.ordinary body piece)
    | false =>
      obtain ⟨_, piece', rel⟩ := ih (Rule.isComposed_body composed isUnit (.inl body)) related
      refine ⟨_, .ordinary body piece', ?_⟩
      cases rel with
      | some alike =>
        exact .some (alike.shown (mirrors.start related (Rule.needs_body (.inl body)) piece piece'))
      | none => exact .none
  | @silent r p i result body piece ih =>
    cases isUnit : (Piece.rule r).isUnit with
    | true => exact (mirrors.unit isUnit related).left (.silent body piece)
    | false =>
      obtain ⟨_, piece', rel⟩ := ih (Rule.isComposed_body composed isUnit (.inr body)) related
      exact ⟨_, .silent body piece', rel⟩
  | atomic body takes =>
    exact (mirrors.unit (Rule.isUnit_of_atomic composed body) related).left (.atomic body takes)
  | atomicFails body fails =>
    exact (mirrors.unit (Rule.isUnit_of_atomic composed body) related).left (.atomicFails body fails)

end Simulation

section Exactness

open Lexeme (Cuts)
open Scan (run_cuts word_cuts)

/-- What is matched at the start of a text is the lexeme that is cut off there. -/
def Atomic.Exact (a : Atomic) (afterOp : Bool) (cs : List Char) : Prop :=
  ∀ w r, cs = w ++ r ∧ a.Takes w r ↔ ∃ l, Cuts afterOp cs l r ∧ l.text = w ∧ a.Holds l

variable {afterOp : Bool} {c : Char} {cs w r : List Char} {text : String} {p : Char → Bool}

theorem run_span (cs : List Char) : Run p (cs.takeWhile p) (cs.dropWhile p) where
  each _ member := List.mem_takeWhile_imp member
  ends c first := by
    have stops := List.head?_dropWhile_not p cs
    rw [Option.mem_def.1 first] at stops
    exact stops

theorem run_of_cuts_word (cuts : Cuts afterOp cs (.word w) r) :
    (∃ c ∈ w.head?, Lexeme.startsWord c = true) ∧ Run Lexeme.continuesWord w r := by
  cases cuts with
  | @word c cs first =>
    obtain ⟨each, ends⟩ := run_span (p := Lexeme.continuesWord) cs
    exact ⟨⟨c, rfl, first⟩,
      List.forall_mem_cons.2 ⟨Lexeme.continuesWord_of_startsWord first, each⟩, ends⟩

theorem run_of_cuts_operators (cuts : Cuts afterOp cs (.operators w) r) :
    w ≠ [] ∧ Run isOperatorChar w r := by
  cases cuts with
  | @operators c cs operator =>
    obtain ⟨each, ends⟩ := run_span (p := isOperatorChar) cs
    exact ⟨List.cons_ne_nil _ _, List.forall_mem_cons.2 ⟨operator, each⟩, ends⟩

theorem exact_mark (mark : Lexeme.isMark c = true) : (Atomic.mark c).Exact afterOp cs := by
  intro w r
  constructor
  · rintro ⟨rfl, takes⟩
    obtain rfl : w = [c] := takes
    exact ⟨_, .mark mark, rfl, rfl⟩
  · rintro ⟨l, cuts, rfl, rfl⟩
    exact ⟨cuts.append, rfl⟩

theorem exact_word (first : ∃ c ∈ text.toList.head?, Lexeme.startsWord c = true)
    (each : ∀ c ∈ text.toList, Lexeme.continuesWord c = true) :
    (Atomic.word text).Exact afterOp cs := by
  obtain ⟨c, head, first⟩ := first
  obtain ⟨w, spelled⟩ := List.head?_eq_some_iff.1 head
  intro v r
  constructor
  · rintro ⟨rfl, rfl, ends⟩
    refine ⟨.word text.toList, ?_, rfl, rfl⟩
    rw [spelled] at each ⊢
    exact word_cuts first (List.forall_mem_cons.1 each).2 ends
  · rintro ⟨l, cuts, rfl, rfl⟩
    exact ⟨cuts.append, rfl, (run_of_cuts_word cuts).2.ends⟩

theorem exact_identifier : Atomic.identifier.Exact afterOp cs := by
  intro w r
  constructor
  · rintro ⟨rfl, ⟨c, head, first⟩, run, free⟩
    obtain ⟨w, rfl⟩ := List.head?_eq_some_iff.1 head
    exact ⟨_, word_cuts first (List.forall_mem_cons.1 run.each).2 run.ends, rfl, _, free, rfl⟩
  · rintro ⟨_, cuts, rfl, w, free, rfl⟩
    obtain ⟨first, run⟩ := run_of_cuts_word cuts
    exact ⟨cuts.append, first, run, free⟩

theorem exact_symbol (some : text.toList ≠ []) (each : ∀ c ∈ text.toList, isOperatorChar c = true) :
    (Atomic.symbol text).Exact false cs := by
  obtain ⟨c, w, spelled⟩ := List.exists_cons_of_ne_nil some
  intro v r
  constructor
  · rintro ⟨rfl, rfl, ends⟩
    refine ⟨.operators text.toList, ?_, rfl, rfl⟩
    rw [spelled] at each ⊢
    exact run_cuts each ends (by simp)
  · rintro ⟨l, cuts, rfl, rfl⟩
    exact ⟨cuts.append, rfl, (run_of_cuts_operators cuts).2.ends⟩

theorem exact_signVariable : Atomic.signVariable.Exact true cs := by
  intro w r
  constructor
  · rintro ⟨rfl, s, rfl⟩
    exact ⟨_, .signName rfl, rfl, _, rfl⟩
  · rintro ⟨_, cuts, rfl, w, rfl⟩
    refine ⟨cuts.append, ?_⟩
    cases cuts with
    | @signName s => exact ⟨s, rfl⟩

/-- After `op` a run of operator characters is matched where the variable of a sign is not. -/
theorem exact_operator (noSign : ∀ w r, cs = w ++ r → ¬ Atomic.signVariable.Takes w r) :
    Atomic.operator.Exact true cs := by
  intro w r
  constructor
  · rintro ⟨rfl, some, run, free⟩
    obtain ⟨c, w, rfl⟩ := List.exists_cons_of_ne_nil some
    refine ⟨_, run_cuts run.each run.ends ?_, rfl, _, free, rfl⟩
    rintro ⟨_, sign, underscore⟩
    obtain ⟨tail, follows⟩ := List.head?_eq_some_iff.1 underscore
    rcases sign with rfl | rfl
    · exact noSign Sign.plus.name.toList tail (by rw [List.cons_append, follows]; rfl) ⟨.plus, rfl⟩
    · exact noSign Sign.minus.name.toList tail (by rw [List.cons_append, follows]; rfl) ⟨.minus, rfl⟩
  · rintro ⟨_, cuts, rfl, w, free, rfl⟩
    obtain ⟨some, run⟩ := run_of_cuts_operators cuts
    exact ⟨cuts.append, some, run, free⟩

variable {lower upper : Char} {isRadixDigit : Char → Bool}

theorem longest_radix_iff : Longest (Numeral.ValidRadix lower upper isRadixDigit) cs w r ↔
    Numeral.cutRadix lower upper isRadixDigit cs = some (w, r) := by
  refine ⟨fun longest => ?_, Numeral.longest_cutRadix⟩
  have found := longest.holds.cutRadix r
  rw [longest.append] at found
  have others := Numeral.longest_cutRadix found
  have same := longest.unique others
  rw [← same] at others found
  rwa [List.append_cancel_left (others.append.trans longest.append.symm)] at found

theorem cuts_numeral_iff : Cuts afterOp cs (.numeral w) r ↔
    (∃ c ∈ cs.head?, c.isDigit = true) ∧ Numeral.cut cs = (w, r) := by
  constructor
  · intro cuts
    cases cuts with
    | numeral digit => exact ⟨⟨_, rfl, digit⟩, rfl⟩
  · rintro ⟨⟨c, head, digit⟩, cut⟩
    obtain ⟨tail, rfl⟩ := List.head?_eq_some_iff.1 head
    have cuts : Cuts afterOp (c :: tail) _ _ := .numeral digit
    rwa [cut] at cuts

theorem cuts_radix_iff
    (first : ∀ {w r}, Numeral.cutRadix lower upper isRadixDigit cs = some (w, r) →
      Numeral.cut cs = (w, r)) (w r : List Char) :
    cs = w ++ r ∧ Longest (Numeral.ValidRadix lower upper isRadixDigit) (w ++ r) w r ↔
      ∃ l, Cuts afterOp cs l r ∧ l.text = w ∧
        ∃ v, Numeral.ValidRadix lower upper isRadixDigit v ∧ l = .numeral v := by
  constructor
  · rintro ⟨rfl, longest⟩
    have found := longest_radix_iff.1 longest
    obtain ⟨x, ds, start, _⟩ := Numeral.cutRadix_some found
    exact ⟨_, cuts_numeral_iff.2 ⟨⟨'0', by rw [start]; rfl, rfl⟩, first found⟩, rfl, w,
      longest.holds, rfl⟩
  · rintro ⟨_, cuts, rfl, v, valid, rfl⟩
    refine ⟨cuts.append, longest_radix_iff.2 ?_⟩
    have found := valid.cutRadix r
    have cut := first (cuts.append.symm ▸ found)
    rw [(cuts_numeral_iff.1 cuts).2] at cut
    rw [← cut] at found
    exact found

theorem exact_hex : Atomic.hex.Exact afterOp cs :=
  cuts_radix_iff fun found => by rw [Numeral.cut, found]

theorem exact_octal : Atomic.octal.Exact afterOp cs := by
  refine cuts_radix_iff fun found => ?_
  have noHex : Numeral.cutRadix 'x' 'X' Numeral.isHexDigit cs = none := by
    rw [Option.eq_none_iff_forall_ne_some]
    intro parts hex
    obtain ⟨x, ds, rfl, letter⟩ := Numeral.cutRadix_some found
    obtain ⟨_, _, start, letter'⟩ := Numeral.cutRadix_some hex
    cases start
    rcases letter with rfl | rfl <;> simp at letter'
  rw [Numeral.cut, noHex, found]
  rfl

theorem exact_decimal (noHex : ∀ w r, cs = w ++ r → ¬ Atomic.hex.Takes w r)
    (noOctal : ∀ w r, cs = w ++ r → ¬ Atomic.octal.Takes w r) : Atomic.decimal.Exact afterOp cs := by
  have none {lower upper isRadixDigit}
      (fails : ∀ w r, cs = w ++ r →
        ¬ Longest (Numeral.ValidRadix lower upper isRadixDigit) (w ++ r) w r) :
      Numeral.cutRadix lower upper isRadixDigit cs = none := by
    rw [Option.eq_none_iff_forall_ne_some]
    rintro ⟨w, r⟩ found
    have longest := longest_radix_iff.2 found
    exact fails w r longest.append.symm (longest.append.symm ▸ longest)
  have decimal : Numeral.cut cs = Numeral.cutDecimal cs := by
    rw [Numeral.cut, none noHex, none noOctal]
    rfl
  intro w r
  constructor
  · rintro ⟨rfl, longest⟩
    obtain ⟨c, ds, rfl, digit⟩ := Lexeme.isDigit_head_of_valid (.inr (.inr longest.holds))
    have longest : Longest Numeral.ValidDecimal (c :: (ds ++ r)) (c :: ds) r := longest
    have others : Longest Numeral.ValidDecimal (c :: (ds ++ r)) _ _ := Numeral.longest_cutDecimal digit
    have same := longest.unique others
    have behind := others.append.trans longest.append.symm
    rw [← same] at behind
    have cut : Numeral.cut (c :: (ds ++ r)) = (c :: ds, r) :=
      decimal.trans (Prod.ext same.symm (List.append_cancel_left behind))
    exact ⟨_, cuts_numeral_iff.2 ⟨⟨c, rfl, digit⟩, cut⟩, rfl, _, longest.holds, rfl⟩
  · rintro ⟨_, cuts, rfl, v, valid, rfl⟩
    obtain ⟨⟨c, head, digit⟩, cut⟩ := cuts_numeral_iff.1 cuts
    obtain ⟨ds, rfl⟩ := List.head?_eq_some_iff.1 head
    have longest : Longest Numeral.ValidDecimal (c :: ds) _ _ := Numeral.longest_cutDecimal digit
    rw [← decimal, cut] at longest
    refine ⟨cuts.append, ?_⟩
    change Longest _ (v ++ r) v r
    rwa [longest.append]

end Exactness

section Places

/-- A place of a text where no layout stands, and the tokens that a scan cuts from there. -/
structure Scan.At (scan : Scan) (afterOp : Bool) (i : Nat × List Char) (ts : List Token) : Prop where
  visible : dropLayout false i.1 i.2 = i
  tokens : scanFrom afterOp i.1 i.2 = { scan with tokens := ts }

variable {scan : Scan} {afterOp later : Bool} {i : Nat × List Char} {ts : List Token} {a : Atomic}
  {r : Rule} {p q : Piece}

@[simp]
theorem Input.chars_textOf (w : List Char) : chars.textOf w = w := List.flatMap_singleton' w

theorem dropLayout_of_visible {offset : Nat} {cs : List Char}
    (visible : ∀ c ∈ cs.head?, isBlank c = false ∧ c ≠ '#') :
    dropLayout false offset cs = (offset, cs) := by
  cases cs with
  | nil => rfl
  | cons c cs => simp [dropLayout, visible c rfl]

theorem Scan.At.behind {offset : Nat} {cs : List Char}
    (tokens : scanFrom afterOp offset cs = { scan with tokens := ts }) :
    scan.At afterOp (dropLayout false offset cs) ts := by
  obtain ⟨_, layout⟩ := layout_dropLayout false offset cs
  have visible : dropLayout false (dropLayout false offset cs).1 (dropLayout false offset cs).2 =
      dropLayout false offset cs := dropLayout_of_visible layout.visible
  exact ⟨visible, (scanFrom_congr visible).trans tokens⟩

/-- Where what is matched is exact, the next token is matched both of the text and of the tokens, or
nothing is matched of either. -/
theorem Scan.At.takes_or_fails (here : scan.At afterOp i ts) (exact : a.Exact afterOp i.2) :
    (∃ l j us, Input.chars.takes a i l.text j ∧ a.Holds l ∧ ts = ⟨i.1, l⟩ :: us ∧
      scan.At (l = Lexeme.op) (Input.chars.pass j) us) ∨
    (∀ w j, ¬ Input.chars.takes a i w j) ∧ ∀ t ∈ ts.head?, ¬ a.Holds t.lexeme := by
  have tokens := here.tokens
  cases found : Lexeme.cut? afterOp i.2 with
  | none =>
    rw [scanFrom_none (by rw [here.visible, found])] at tokens
    obtain ⟨rfl, _⟩ := Scan.mk.inj tokens
    refine .inr ⟨?_, nofun⟩
    rintro w j ⟨whole, _, takes⟩
    obtain ⟨l, cuts, _⟩ := (exact w j.2).1 ⟨whole, takes⟩
    cases found.symm.trans (Lexeme.cut?_some_iff.2 cuts)
  | some cut =>
    obtain ⟨l, rest⟩ := cut
    have cuts := Lexeme.cut?_some_iff.1 found
    have ascii := Nesting.byteLength_ascii fun c member => (cuts.ascii c member).1
    rw [scanFrom_cuts cuts] at tokens
    obtain ⟨front, stop, left⟩ := Scan.mk.inj tokens
    by_cases holds : a.Holds l
    · have takes := ((exact l.text rest).2 ⟨l, cuts, rfl, holds⟩).2
      refine .inl ⟨l, (i.1 + byteLength l.text, rest), _, ⟨cuts.append, rfl, takes⟩, holds,
        front.symm, .behind ?_⟩
      rw [ascii, ← stop, ← left]
      rfl
    · rw [← front]
      refine .inr ⟨?_, by rintro _ ⟨⟩; exact holds⟩
      rintro w j ⟨whole, _, takes⟩
      obtain ⟨m, others, _, holds'⟩ := (exact w j.2).1 ⟨whole, takes⟩
      exact holds ((cuts.unique others).1 ▸ holds')

theorem agree_atomic (here : scan.At afterOp i ts) (exact : a.Exact afterOp i.2)
    (body : r.body = .atomic a) (goesOn : ∀ l, a.Holds l → decide (l = Lexeme.op) = later) :
    Input.chars.Agree Input.tokens (scan.At later) (.rule r) i ts := by
  rcases here.takes_or_fails exact with ⟨l, j, us, takes, holds, rfl, next⟩ | ⟨fails, others⟩
  · refine ⟨_, _, .atomic body takes, reads_atomic body holds, .some ⟨?_, goesOn l holds ▸ next⟩⟩
    rw [Input.chars_textOf]
    rfl
  · exact ⟨_, _, .atomicFails body fails, atomic_fails body others, .none⟩

theorem agree_mark {c : Char} (here : scan.At afterOp i ts) (mark : Lexeme.isMark c = true) :
    Input.chars.Agree Input.tokens (scan.At false) (.mark c) i ts := by
  rcases here.takes_or_fails (exact_mark mark) with ⟨_, j, us, takes, rfl, rfl, next⟩ | ⟨fails, others⟩
  · exact ⟨_, _, .mark takes, .mark (.mk rfl), .some ⟨rfl, next⟩⟩
  · exact ⟨_, _, .markFails fails, .markFails (fails_of_head others), .none⟩

theorem Input.Agree.either {R : Nat × List Char → List Token → Prop}
    (first : Input.chars.Agree Input.tokens R p i ts)
    (second : Input.chars.Parses p i none → Input.chars.Agree Input.tokens R q i ts) :
    Input.chars.Agree Input.tokens R (.either p q) i ts := by
  obtain ⟨_, _, chars, tokens, alike | _⟩ := first
  · exact ⟨_, _, .left chars, .left tokens, .some alike⟩
  · obtain ⟨_, _, chars', tokens', rel⟩ := second chars
    exact ⟨_, _, .right chars chars', .right tokens tokens', rel⟩

theorem fails_of_atomic (body : r.body = .atomic a) (fails : Input.chars.Parses (.rule r) i none)
    (w s : List Char) (whole : i.2 = w ++ s) : ¬ a.Takes w s := by
  intro takes
  cases fails.unique (.atomic (j := (_, s)) body ⟨whole, rfl, takes⟩)

theorem agree_number (here : scan.At false i ts) :
    Input.chars.Agree Input.tokens (scan.At false) (.rule .number) i ts := by
  have numeral {l : Lexeme} {P : List Char → Prop} : (∃ cs, P cs ∧ l = .numeral cs) →
      decide (l = Lexeme.op) = false := by
    rintro ⟨cs, _, rfl⟩
    rfl
  -- A decimal alone does not agree: in `0x1` it would match the zero.
  have agree : Input.chars.Agree Input.tokens (scan.At false) .numeral i ts :=
    (agree_atomic here exact_hex rfl fun _ => numeral).either fun hex =>
      (agree_atomic here exact_octal rfl fun _ => numeral).either fun octal =>
        agree_atomic here (exact_decimal (fails_of_atomic rfl hex) (fails_of_atomic rfl octal)) rfl
          fun _ => numeral
  obtain ⟨_, _, chars, tokens, rel⟩ := agree
  exact ⟨_, _, .silent rfl chars, .silent rfl tokens, rel⟩

theorem agree_named (here : scan.At true i ts) :
    Input.chars.Agree Input.tokens (scan.At false) .named i ts := by
  refine (agree_atomic here exact_signVariable rfl ?_).either fun noSign =>
    agree_atomic here (exact_operator (fails_of_atomic rfl noSign)) rfl ?_
  · rintro _ ⟨cs, rfl⟩
    rfl
  · rintro _ ⟨cs, _, rfl⟩
    rfl

theorem Input.Parses.parts_ne_nil {x : Taken} (reads : Reads p ts (some x)) (needs : p.needs = true) :
    x.parts ≠ [] := by
  generalize result : some x = a at reads
  induction reads generalizing x with
  | nothing | stop | more => exact absurd needs Bool.false_ne_true
  | mark takes | atomic _ takes =>
    cases result
    obtain ⟨_⟩ := takes
    exact List.cons_ne_nil _ _
  | both _ _ first second =>
    cases result
    rw [Piece.needs, Bool.or_eq_true] at needs
    rcases needs with needs | needs
    · exact List.append_ne_nil_of_left_ne_nil (first needs rfl) _
    · exact List.append_ne_nil_of_right_ne_nil _ (second needs rfl)
  | left _ first =>
    rw [Piece.needs, Bool.and_eq_true] at needs
    exact first needs.1 result
  | right _ _ _ second =>
    rw [Piece.needs, Bool.and_eq_true] at needs
    exact second needs.2 result
  | ordinary body _ piece =>
    obtain ⟨y, found, rfl⟩ := Option.map_eq_some_iff.1 result.symm
    exact (piece (Rule.needs_body (.inl body)) found.symm :)
  | silent body _ piece => exact piece (Rule.needs_body (.inr body)) result
  | markFails | firstFails | secondFails | atomicFails => cases result

theorem Scan.At.start {x : Taken} (here : scan.At afterOp i ts) (needs : p.needs = true)
    (reads : Reads p ts (some x)) : startOf x.parts = i.1 := by
  have whole := reads.tokens
  obtain ⟨t, us, parts⟩ := List.exists_cons_of_ne_nil (reads.parts_ne_nil needs)
  have tokens := here.tokens
  rw [whole, parts] at tokens
  cases found : Lexeme.cut? afterOp i.2 with
  | none =>
    rw [scanFrom_none (by rw [here.visible, found])] at tokens
    cases (Scan.mk.inj tokens).1
  | some cut =>
    rw [scanFrom_cuts (Lexeme.cut?_some_iff.1 found)] at tokens
    rw [parts, ← (List.cons.inj (Scan.mk.inj tokens).1).1]
    rfl

theorem agree_opWord (here : scan.At false i ts) :
    Input.chars.Agree Input.tokens (scan.At true) (.rule .opWord) i ts :=
  agree_atomic here (exact_word ⟨'o', rfl, rfl⟩ (Numeral.forall_mem_of_all rfl)) rfl
    (by rintro _ rfl; rfl)

theorem agree_opVariable (here : scan.At false i ts) :
    Input.chars.Agree Input.tokens (scan.At false) (.rule .opVariable) i ts := by
  obtain ⟨_, _, chars, tokens, alike | _⟩ := agree_opWord here
  · obtain ⟨_, _, chars', tokens', alike' | _⟩ := agree_named alike.next
    · have whole := Input.Parses.both tokens tokens'
      exact ⟨_, _, .ordinary rfl (.both chars chars'), .ordinary rfl whole,
        .some ((alike.append alike').shown (here.start rfl whole).symm)⟩
    · exact ⟨_, _, .ordinary rfl (.secondFails chars chars'),
        .ordinary rfl (.secondFails tokens tokens'), .none⟩
  · exact ⟨_, _, .ordinary rfl (.firstFails chars), .ordinary rfl (.firstFails tokens), .none⟩

theorem mirrors_tokens (scan : Scan) : Input.chars.Mirrors Input.tokens (scan.At false) where
  pass {i ts} here := by
    have visible : Input.chars.pass i = i := here.visible
    rw [visible]
    exact here
  start here needs _ reads := (here.start needs reads).symm
  unit {p i ts} isUnit here := by
    have word {r : Rule} {text : String} (body : r.body = .atomic (.word text))
        (first : ∃ c ∈ text.toList.head?, Lexeme.startsWord c = true)
        (each : text.toList.all Lexeme.continuesWord = true) (other : text.toList ≠ ['o', 'p']) :
        Input.chars.Agree Input.tokens (scan.At false) (.rule r) i ts := by
      refine agree_atomic here (exact_word first (List.all_eq_true.1 each)) body ?_
      rintro _ rfl
      exact decide_eq_false fun same => other (Lexeme.word.inj same)
    have symbol {r : Rule} {text : String} (body : r.body = .atomic (.symbol text))
        (some : text.toList ≠ []) (each : text.toList.all isOperatorChar = true) :
        Input.chars.Agree Input.tokens (scan.At false) (.rule r) i ts := by
      refine agree_atomic here (exact_symbol some (List.all_eq_true.1 each)) body ?_
      rintro _ rfl
      rfl
    cases p with
    | nothing | both | either | many => cases isUnit
    | mark => exact agree_mark here isUnit
    | rule r =>
      cases r
      case opVariable => exact agree_opVariable here
      case number => exact agree_number here
      case nan | infinity | letWord | inWord =>
        exact word rfl ⟨_, rfl, by decide⟩ (by decide) (by decide)
      case equals | pos | neg | index | pow | mul | div | rem | add | sub =>
        exact symbol rfl (by decide) (by decide)
      case identifier =>
        refine agree_atomic here exact_identifier rfl ?_
        rintro _ ⟨cs, free, rfl⟩
        refine decide_eq_false fun same => free ?_
        rw [Lexeme.word.inj same]
        decide
      all_goals exact absurd isUnit (by decide)

theorem Scan.At.ends (here : scan.At afterOp i ts) :
    (i.2 = [] ↔ ts = [] ∧ scan.rest = []) ∧ (i.2 = [] → scan.stop = i.1) := by
  have tokens := here.tokens
  cases found : Lexeme.cut? afterOp i.2 with
  | none =>
    rw [scanFrom_none (by rw [here.visible, found]), here.visible] at tokens
    obtain ⟨rfl, stop, rest⟩ := Scan.mk.inj tokens
    exact ⟨⟨fun nil => ⟨rfl, rest ▸ nil⟩, fun nil => rest.trans nil.2⟩, fun _ => stop.symm⟩
  | some cut =>
    have cuts := Lexeme.cut?_some_iff.1 found
    rw [scanFrom_cuts cuts] at tokens
    have some : ts ≠ [] := (Scan.mk.inj tokens).1 ▸ List.cons_ne_nil _ _
    have nil (empty : i.2 = []) : False := by
      rw [empty] at found
      cases found
    exact ⟨⟨fun empty => (nil empty).elim, fun empty => absurd empty.1 some⟩,
      fun empty => (nil empty).elim⟩

/-- The grammar matches a whole text, leaving these matches, just if the text is cut into tokens to its
end and an expression takes all of them. -/
theorem parses_main_iff {cs : List Char} {ms : List Match} :
    (∃ x, Input.chars.Parses (.rule .main) (0, cs) (some x) ∧ x.left = ms) ↔
      (Scan.ofText cs).rest = [] ∧
        ∃ z, Reads (.rule .expression) (Scan.ofText cs).tokens (some z) ∧ z.rest = [] ∧
          ms = [.mk .main 0 []
            (z.left ++ [.mk .endOfInput (Scan.ofText cs).stop [] []])] := by
  have mirrors := mirrors_tokens (Scan.ofText cs)
  have here : (Scan.ofText cs).At false (dropLayout false 0 cs) (Scan.ofText cs).tokens :=
    .behind rfl
  constructor
  · rintro ⟨_, parses, rfl⟩
    obtain ⟨y, piece, rfl⟩ := parses.of_ordinary rfl
    cases piece with
    | both nothing others =>
    cases nothing
    cases others with
    | @both _ _ _ x _ expression ending =>
    obtain ⟨w, j, ⟨whole, _, rfl, rest⟩, rfl⟩ := ending.of_atomic rfl
    rw [rest] at whole
    obtain ⟨_, reads, rel⟩ := mirrors.parses expression rfl here
    cases rel with
    | @some _ z alike =>
    obtain ⟨last, stop⟩ := alike.next.ends
    obtain ⟨none, ended⟩ := last.1 whole
    refine ⟨ended, z, reads, none, ?_⟩
    simp only [Input.shown, Portion.append, Input.chars_textOf, List.nil_append, List.append_nil,
      ← alike.left, stop whole]
    rfl
  · rintro ⟨whole, z, reads, none, rfl⟩
    obtain ⟨_, expression, rel⟩ := mirrors.symm.parses reads rfl here
    cases rel with
    | @some _ x alike =>
    have next : (Scan.ofText cs).At false (Input.chars.pass x.rest) z.rest := alike.next
    obtain ⟨last, stop⟩ := next.ends
    have ended := last.2 ⟨none, whole⟩
    have ending : Input.chars.Parses (.rule .endOfInput) (Input.chars.pass x.rest) _ :=
      .atomic (w := []) (j := ((Input.chars.pass x.rest).1, [])) rfl ⟨ended, rfl, rfl, rfl⟩
    refine ⟨_, .ordinary rfl (.both .nothing (.both expression ending)), ?_⟩
    simp only [Input.shown, Portion.append, Input.chars_textOf, List.nil_append, List.append_nil,
      alike.left, stop ended]
    rfl

end Places

end Formula
