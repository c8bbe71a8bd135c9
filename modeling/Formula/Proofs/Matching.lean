import Formula.Builder
import Formula.Proofs.LongestNumeral

/-! How the grammar matches. Of two alternatives the second is tried only where the first fails, a
repetition goes on as long as it can, and what was matched is not given back. A text is matched
character by character, with layout between the parts of a rule; its tokens are matched likewise, one
lexeme for each rule without layout inside. What is tried on the way is told, too, since a text that is
rejected is refused where a rule fails. Main statement: a piece of the grammar matches in one way or
fails. -/
namespace Formula

/-- A piece of the right side of a rule. -/
inductive Piece where
  | nothing
  | mark (c : Char)
  | rule (r : Rule)
  | both (p q : Piece)
  | either (p q : Piece)
  | many (p : Piece)
deriving DecidableEq

/-- The marks, and the rules in which no layout may stand. -/
inductive Atomic where
  | mark (c : Char)
  | symbol (text : String)
  | word (text : String)
  | signVariable | operator | hex | octal | decimal | identifier | ending

/-- What a rule matches, and what it leaves: a match with the matches inside, these alone, or a match
with nothing inside. -/
inductive Body where
  | ordinary (piece : Piece)
  | silent (piece : Piece)
  | atomic (form : Atomic)

namespace Piece

/-- Signs in front of an operand. -/
def signed : Piece := .both (.many (.rule .sign)) (.rule .operand)

/-- An operator and the operand behind it. -/
def linked : Piece := .both (.rule .connective) signed

/-- A comma and the element behind it. -/
def separated : Piece := .both (.mark ',') (.rule .expression)

def elements : Piece := .both (.rule .expression) (.many separated)

/-- What stands behind `op`. -/
def named : Piece := .either (.rule .signVariable) (.rule .operator)

def numeral : Piece := .either (.rule .hex) (.either (.rule .octal) (.rule .decimal))

end Piece

namespace Rule

open Piece

/-- The right sides of the rules. The grammar as a whole starts with nothing, so that layout may stand in
front. -/
def body : Rule → Body
  | .main => .ordinary (.both .nothing (.both (.rule .expression) (.rule .endOfInput)))
  | .expression => .ordinary (.both (.many (.rule .sign)) (.both (.rule .operand) (.many linked)))
  | .operand => .silent (.either (.rule .binding) (.rule .application))
  | .binding => .ordinary (.both (.rule .letWord) (.both (.rule .identifier) (.both (.rule .equals)
      (.both (.rule .expression) (.both (.rule .inWord) (.rule .expression))))))
  | .application => .ordinary (.both (.rule .atom) (.many (.rule .atom)))
  | .atom => .silent (.either (.rule .number) (.either (.rule .nan) (.either (.rule .infinity)
      (.either (.rule .vector) (.either (.rule .opVariable)
        (.either (.rule .identifier) (.rule .grouped)))))))
  | .grouped => .ordinary (.both (.mark '(') (.both (.rule .expression) (.mark ')')))
  | .vector => .ordinary (.both (.mark '[') (.both (.either elements .nothing) (.mark ']')))
  | .opVariable => .ordinary (.both (.rule .opWord) named)
  | .signVariable => .atomic .signVariable
  | .sign => .silent (.either (.rule .pos) (.rule .neg))
  | .pos => .atomic (.symbol Sign.plus.symbol)
  | .neg => .atomic (.symbol Sign.minus.symbol)
  | .connective => .silent (.either (.rule .index) (.either (.rule .pow) (.either (.rule .mul)
      (.either (.rule .div) (.either (.rule .rem) (.either (.rule .add) (.rule .sub)))))))
  | .index => .atomic (.symbol Operator.index.symbol)
  | .pow => .atomic (.symbol Operator.power.symbol)
  | .mul => .atomic (.symbol Operator.times.symbol)
  | .div => .atomic (.symbol Operator.divide.symbol)
  | .rem => .atomic (.symbol Operator.remainder.symbol)
  | .add => .atomic (.symbol Operator.plus.symbol)
  | .sub => .atomic (.symbol Operator.minus.symbol)
  | .operator => .atomic .operator
  | .number => .silent numeral
  | .hex => .atomic .hex
  | .octal => .atomic .octal
  | .decimal => .atomic .decimal
  | .nan => .atomic (.word "NaN")
  | .infinity => .atomic (.word "Infinity")
  | .opWord => .atomic (.word "op")
  | .letWord => .atomic (.word "let")
  | .inWord => .atomic (.word "in")
  | .equals => .atomic (.symbol "=")
  | .identifier => .atomic .identifier
  | .endOfInput => .atomic .ending

end Rule

/-- What the grammar is matched against. -/
structure Input (ι σ : Type) where
  /-- Passes what may stand between the parts of a rule. -/
  pass : ι → ι
  /-- The byte where what is matched starts. -/
  start : ι → List σ → Nat
  text : σ → List Char
  /-- What is matched without layout inside, and what stands behind it. -/
  takes : Atomic → ι → List σ → ι → Prop
  functional : ∀ {a i v w j k}, takes a i v j → takes a i w k → v = w ∧ j = k

/-- What a piece of the grammar matched, what stands behind it, and the matches it leaves. -/
structure Portion (ι σ : Type) where
  parts : List σ
  rest : ι
  left : List Match

/-- One piece after another. -/
def Portion.append {ι σ : Type} (x y : Portion ι σ) : Portion ι σ :=
  ⟨x.parts ++ y.parts, y.rest, x.left ++ y.left⟩

namespace Input

variable {ι σ : Type} (input : Input ι σ)

def textOf (ws : List σ) : List Char := ws.flatMap input.text

/-- A rule that shows leaves one match. Of its text, in which layout may stand, nothing is kept. -/
def shown (r : Rule) (i : ι) (x : Portion ι σ) : Portion ι σ :=
  { x with left := [.mk r (input.start i x.parts) [] x.left] }

/-- What a piece of the grammar matches, if it does not fail. -/
inductive Parses : Piece → ι → Option (Portion ι σ) → Prop where
  | nothing {i} : Parses .nothing i (some ⟨[], i, []⟩)
  | mark {c i w j} (takes : input.takes (.mark c) i w j) : Parses (.mark c) i (some ⟨w, j, []⟩)
  | markFails {c i} (fails : ∀ w j, ¬ input.takes (.mark c) i w j) : Parses (.mark c) i none
  | both {p q i x y} (first : Parses p i (some x)) (second : Parses q (input.pass x.rest) (some y)) :
    Parses (.both p q) i (some (x.append y))
  | firstFails {p q i} (first : Parses p i none) : Parses (.both p q) i none
  | secondFails {p q i x} (first : Parses p i (some x))
    (second : Parses q (input.pass x.rest) none) : Parses (.both p q) i none
  | left {p q i x} (first : Parses p i (some x)) : Parses (.either p q) i (some x)
  | right {p q i result} (first : Parses p i none) (second : Parses q i result) :
    Parses (.either p q) i result
  | stop {p i} (fails : Parses p i none) : Parses (.many p) i (some ⟨[], i, []⟩)
  | more {p i x y} (first : Parses p i (some x))
    (others : Parses (.many p) (input.pass x.rest) (some y)) :
    Parses (.many p) i (some (x.append y))
  | ordinary {r p i result} (body : r.body = .ordinary p) (piece : Parses p i result) :
    Parses (.rule r) i (result.map (input.shown r i))
  | silent {r p i result} (body : r.body = .silent p) (piece : Parses p i result) :
    Parses (.rule r) i result
  | atomic {r a i w j} (body : r.body = .atomic a) (takes : input.takes a i w j) :
    Parses (.rule r) i (some ⟨w, j, [.mk r (input.start i w) (input.textOf w) []]⟩)
  | atomicFails {r a i} (body : r.body = .atomic a) (fails : ∀ w j, ¬ input.takes a i w j) :
    Parses (.rule r) i none

/-- What is tried, and where, to match a piece of the grammar. Of a rule without layout inside nothing
is tried but the rule. -/
inductive Tries : Piece → ι → Piece → ι → Prop where
  | here {p i} : Tries p i p i
  | first {p q i t k} (tries : Tries p i t k) : Tries (.both p q) i t k
  | second {p q i x t k} (first : input.Parses p i (some x))
    (tries : Tries q (input.pass x.rest) t k) : Tries (.both p q) i t k
  | left {p q i t k} (tries : Tries p i t k) : Tries (.either p q) i t k
  | right {p q i t k} (first : input.Parses p i none) (tries : Tries q i t k) :
    Tries (.either p q) i t k
  | once {p i t k} (tries : Tries p i t k) : Tries (.many p) i t k
  | again {p i x t k} (first : input.Parses p i (some x))
    (tries : Tries (.many p) (input.pass x.rest) t k) : Tries (.many p) i t k
  | inner {r p i t k} (body : r.body = .ordinary p ∨ r.body = .silent p) (tries : Tries p i t k) :
    Tries (.rule r) i t k

/-- Somewhere in matching a piece of the grammar, a rule that shows is tried and fails. -/
def Misses (p : Piece) (i k : ι) : Prop :=
  ∃ r : Rule, (∀ q, r.body ≠ .silent q) ∧ input.Tries p i (.rule r) k ∧ input.Parses (.rule r) k none

variable {input} {p q : Piece} {r : Rule} {form : Atomic} {i j k : ι} {x : Portion ι σ}
  {a b : Option (Portion ι σ)}

theorem Misses.mono (misses : input.Misses p i k)
    (tries : ∀ {t}, input.Tries p i t k → input.Tries q j t k) : input.Misses q j k := by
  obtain ⟨r, shows, tried, fails⟩ := misses
  exact ⟨r, shows, tries tried, fails⟩

theorem Tries.of_atomic {t : Piece} (tries : input.Tries (.rule r) i t k) (body : r.body = .atomic form) :
    t = .rule r ∧ k = i := by
  cases tries with
  | here => exact ⟨rfl, rfl⟩
  | inner body' => rcases body' with body' | body' <;> cases body.symm.trans body'

theorem Parses.of_ordinary (parses : input.Parses (.rule r) i (some x)) (body : r.body = .ordinary p) :
    ∃ y, input.Parses p i (some y) ∧ x = input.shown r i y := by
  generalize result : some x = a at parses
  cases parses with
  | ordinary body' piece =>
    cases body.symm.trans body'
    obtain ⟨y, rfl, rfl⟩ := Option.map_eq_some_iff.1 result.symm
    exact ⟨y, piece, rfl⟩
  | silent body' | atomic body' | atomicFails body' => cases body.symm.trans body'

theorem Parses.of_atomic (parses : input.Parses (.rule r) i (some x)) (body : r.body = .atomic form) :
    ∃ w j, input.takes form i w j ∧
      x = ⟨w, j, [.mk r (input.start i w) (input.textOf w) []]⟩ := by
  generalize result : some x = a at parses
  cases parses with
  | atomic body' takes =>
    cases body.symm.trans body'
    exact ⟨_, _, takes, Option.some.inj result⟩
  | ordinary body' | silent body' => cases body.symm.trans body'
  | atomicFails => cases result

/-- A piece of the grammar matches in one way or fails. -/
theorem Parses.unique (parses : input.Parses p i a) (others : input.Parses p i b) : a = b := by
  induction parses generalizing b with
  | nothing => cases others; rfl
  | mark takes =>
    cases others with
    | mark takes' =>
      obtain ⟨rfl, rfl⟩ := input.functional takes takes'
      rfl
    | markFails fails => exact absurd takes (fails _ _)
  | markFails fails =>
    cases others with
    | mark takes => exact absurd takes (fails _ _)
    | markFails => rfl
  | both _ _ first second =>
    cases others with
    | both first' second' =>
      cases first first'
      cases second second'
      rfl
    | firstFails first' => cases first first'
    | secondFails first' second' =>
      cases first first'
      cases second second'
  | firstFails _ first =>
    cases others with
    | both first' _ | secondFails first' _ => cases first first'
    | firstFails => rfl
  | secondFails _ _ first second =>
    cases others with
    | both first' second' =>
      cases first first'
      cases second second'
    | firstFails | secondFails => rfl
  | left _ first =>
    cases others with
    | left first' => exact first first'
    | right first' _ => cases first first'
  | right _ _ first second =>
    cases others with
    | left first' => cases first first'
    | right _ second' => exact second second'
  | stop _ fails =>
    cases others with
    | stop => rfl
    | more first' _ => cases fails first'
  | more _ _ first second =>
    cases others with
    | stop fails' => cases first fails'
    | more first' second' =>
      cases first first'
      cases second second'
      rfl
  | ordinary body _ piece =>
    cases others with
    | ordinary body' piece' =>
      cases body.symm.trans body'
      rw [piece piece']
    | silent body' _ | atomic body' _ | atomicFails body' _ => cases body.symm.trans body'
  | silent body _ piece =>
    cases others with
    | silent body' piece' =>
      cases body.symm.trans body'
      exact piece piece'
    | ordinary body' _ | atomic body' _ | atomicFails body' _ => cases body.symm.trans body'
  | atomic body takes =>
    cases others with
    | atomic body' takes' =>
      cases body.symm.trans body'
      obtain ⟨rfl, rfl⟩ := input.functional takes takes'
      rfl
    | atomicFails body' fails =>
      cases body.symm.trans body'
      exact absurd takes (fails _ _)
    | ordinary body' _ | silent body' _ => cases body.symm.trans body'
  | atomicFails body fails =>
    cases others with
    | atomic body' takes =>
      cases body.symm.trans body'
      exact absurd takes (fails _ _)
    | atomicFails => rfl
    | ordinary body' _ | silent body' _ => cases body.symm.trans body'

end Input

section Characters

variable {p : Char → Bool} {v w r s : List Char}

/-- A run of characters that goes on as long as it can. -/
structure Run (p : Char → Bool) (w r : List Char) : Prop where
  each : ∀ c ∈ w, p c = true
  ends : ∀ c ∈ r.head?, p c = false

/-- Whether `w` is matched without layout inside where `r` stands behind it. -/
def Atomic.Takes (w r : List Char) : Atomic → Prop
  | .mark c => w = [c]
  | .symbol text => w = text.toList ∧ ∀ c ∈ r.head?, isOperatorChar c = false
  | .word text => w = text.toList ∧ ∀ c ∈ r.head?, Lexeme.continuesWord c = false
  | .signVariable => ∃ s : Sign, w = s.name.toList
  | .operator => w ≠ [] ∧ Run isOperatorChar w r ∧ w ≠ ['=']
  | .hex => Longest (Numeral.ValidRadix 'x' 'X' Numeral.isHexDigit) (w ++ r) w r
  | .octal => Longest (Numeral.ValidRadix 'o' 'O' Numeral.isOctalDigit) (w ++ r) w r
  | .decimal => Longest Numeral.ValidDecimal (w ++ r) w r
  | .identifier =>
    (∃ c ∈ w.head?, Lexeme.startsWord c = true) ∧ Run Lexeme.continuesWord w r ∧ w ∉ State.reserved
  | .ending => w = [] ∧ r = []

theorem Run.eq_takeWhile (run : Run p w r) : w = (w ++ r).takeWhile p :=
  (Decimal.span_append run.each run.ends).1.symm

theorem Longest.unique {P : List Char → Prop} {cs : List Char} (longest : Longest P cs w r)
    (others : Longest P cs v s) : w = v := by
  have same : w.length = v.length := le_antisymm (others.longest w r longest.holds longest.append)
    (longest.longest v s others.holds others.append)
  exact (List.append_inj (longest.append.trans others.append.symm) same).1

theorem Atomic.Takes.unique {a : Atomic} (takes : a.Takes v s) (others : a.Takes w r)
    (whole : v ++ s = w ++ r) : v = w := by
  cases a with
  | mark => rw [show v = _ from takes, show w = _ from others]
  | symbol | word | ending => rw [takes.1, others.1]
  | signVariable =>
    obtain ⟨s, rfl⟩ := takes
    obtain ⟨t, rfl⟩ := others
    exact (List.append_inj whole (by cases s <;> cases t <;> rfl)).1
  | operator | identifier => rw [takes.2.1.eq_takeWhile, whole, ← others.2.1.eq_takeWhile]
  | hex | octal | decimal =>
    have longest : Longest _ (v ++ s) v s := takes
    rw [whole] at longest
    exact longest.unique others

/-- A text that starts at a byte. Layout is passed between the parts of a rule. -/
def Input.chars : Input (Nat × List Char) Char where
  pass i := dropLayout false i.1 i.2
  start i _ := i.1
  text c := [c]
  takes a i w j := i.2 = w ++ j.2 ∧ j.1 = i.1 + byteLength w ∧ a.Takes w j.2
  functional := by
    rintro a i v w ⟨m, r⟩ ⟨n, s⟩ ⟨whole, place, takes⟩ ⟨whole', place', takes'⟩
    obtain rfl := takes.unique takes' (whole.symm.trans whole')
    obtain rfl := List.append_cancel_left (whole.symm.trans whole')
    exact ⟨rfl, Prod.ext (place.trans place'.symm) rfl⟩

/-- The bytes of a text at which the grammar tries a rule, not inside one without layout, that fails. -/
def missed (cs : List Char) : Set Nat :=
  {place | ∃ rest, Input.chars.Misses (.rule .main) (0, cs) (place, rest)}

end Characters

section Tokens

/-- Whether a lexeme is one that is matched without layout inside. -/
def Atomic.Holds (l : Lexeme) : Atomic → Prop
  | .mark c => l = .mark c
  | .symbol text => l = .operators text.toList
  | .word text => l = .word text.toList
  | .signVariable => ∃ cs, l = .signName cs
  | .operator => ∃ cs, cs ≠ ['='] ∧ l = .operators cs
  | .hex => ∃ cs, Numeral.ValidRadix 'x' 'X' Numeral.isHexDigit cs ∧ l = .numeral cs
  | .octal => ∃ cs, Numeral.ValidRadix 'o' 'O' Numeral.isOctalDigit cs ∧ l = .numeral cs
  | .decimal => ∃ cs, Numeral.ValidDecimal cs ∧ l = .numeral cs
  | .identifier => ∃ cs, cs ∉ State.reserved ∧ l = .word cs
  | .ending => False

/-- The first token is matched. -/
inductive Atomic.TakesToken (a : Atomic) : List Token → List Token → List Token → Prop where
  | mk {t ts} (holds : a.Holds t.lexeme) : TakesToken a (t :: ts) [t] ts

/-- The byte at which tokens start. -/
def startOf : List Token → Nat
  | [] => 0
  | t :: _ => t.offset

/-- Tokens, with nothing between them. -/
def Input.tokens : Input (List Token) Token where
  pass := id
  start _ := startOf
  text t := t.lexeme.text
  takes := Atomic.TakesToken
  functional := by
    rintro _ _ _ _ _ _ ⟨_⟩ ⟨_⟩
    exact ⟨rfl, rfl⟩

@[simp]
theorem Input.tokens_start (ts us : List Token) : tokens.start ts us = startOf us := rfl

@[simp]
theorem Input.tokens_textOf_singleton (t : Token) : tokens.textOf [t] = t.lexeme.text :=
  List.flatMap_singleton _ _

abbrev Taken := Portion (List Token) Token

/-- What a piece of the grammar matches at the start of some tokens, if it does not fail. -/
abbrev Reads : Piece → List Token → Option Taken → Prop := Input.tokens.Parses

variable {r : Rule} {a : Atomic} {p : Piece} {t : Token} {ts : List Token} {x : Taken}

theorem fails_of_head (fails : ∀ t ∈ ts.head?, ¬ a.Holds t.lexeme) (us rest : List Token) :
    ¬ a.TakesToken ts us rest := by
  rintro ⟨holds⟩
  exact fails _ rfl holds

theorem reads_atomic (body : r.body = .atomic a) (holds : a.Holds t.lexeme) :
    Reads (.rule r) (t :: ts) (some ⟨[t], ts, [.mk r t.offset t.lexeme.text []]⟩) := by
  have reads : Reads (.rule r) (t :: ts) _ := .atomic body (.mk holds)
  rwa [Input.tokens_textOf_singleton] at reads

theorem mark_fails {c : Char} (other : ∀ t ∈ ts.head?, t.lexeme ≠ .mark c) : Reads (.mark c) ts none :=
  .markFails (fails_of_head other)

theorem atomic_fails (body : r.body = .atomic a) (fails : ∀ t ∈ ts.head?, ¬ a.Holds t.lexeme) :
    Reads (.rule r) ts none := .atomicFails body (fails_of_head fails)

theorem Input.Parses.tokens (reads : Reads p ts (some x)) : ts = x.parts ++ x.rest := by
  generalize result : some x = a at reads
  induction reads generalizing x with
  | nothing | stop => cases result; rfl
  | mark takes | atomic _ takes =>
    cases result
    obtain ⟨_⟩ := takes
    rfl
  | both _ _ first second | more _ _ first second =>
    cases result
    rw [first rfl, Portion.append, List.append_assoc]
    exact congrArg _ (second rfl)
  | left _ first => exact first result
  | right _ _ _ second => exact second result
  | ordinary _ _ piece =>
    obtain ⟨y, found, rfl⟩ := Option.map_eq_some_iff.1 result.symm
    exact (piece found.symm :)
  | silent _ _ piece => exact piece result
  | markFails | firstFails | secondFails | atomicFails => cases result

end Tokens

end Formula
