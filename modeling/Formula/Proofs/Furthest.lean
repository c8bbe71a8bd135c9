import Formula.Proofs.Attempts
import Formula.Proofs.Escapes

/-! Where a text that the grammar rejects is refused. What the grammar tries on a text it tries on the
tokens, except inside numerals and behind `op`, where it does not look further. So no rule fails behind
the place where the reader stops, and one fails there. Main statement: an error stands where a rule
failed the furthest, at a character that is neither blank nor begins a comment or at the end of the
text, and what stands before it is the beginning of a text that is parsed. -/
namespace Formula

open Input

section Following

variable {ι ι' σ σ' : Type}

/-- Two inputs that agree also on the first thing that is tried of a numeral, and on what may stand
behind `op`, where other places are related. -/
structure Input.Follows (input : Input ι σ) (other : Input ι' σ') (R R' : ι → ι' → Prop) : Prop extends
    input.Mirrors other R where
  hex : ∀ {i j}, R i j → input.Agree other R (.rule .hex) i j
  opWord : ∀ {i j}, R i j → input.Agree other R' (.rule .opWord) i j
  signVariable : ∀ {i j}, R' i j → input.Agree other R (.rule .signVariable) i j

variable {input : Input ι σ} {other : Input ι' σ'} {R R' : ι → ι' → Prop} {p q : Piece} {r s : Rule}
  {form : Atomic} {i k : ι} {j : ι'}

theorem Input.Follows.symm (follows : input.Follows other R R') :
    other.Follows input (flip R) (flip R') where
  toMirrors := follows.toMirrors.symm
  hex related := (follows.hex related).symm
  opWord related := (follows.opWord related).symm
  signVariable related := (follows.signVariable related).symm

theorem Input.Agree.fails (agree : input.Agree other R p i j) (fails : input.Parses p i none) :
    other.Parses p j none := by
  obtain ⟨_, fails', ⟨⟩⟩ := agree.left fails
  exact fails'

theorem Input.Tries.first_fails (body : s.body = .atomic form)
    (tries : input.Tries (.either (.rule s) q) i (.rule r) k) (fails : input.Parses (.rule r) k none) :
    input.Parses (.rule s) i none := by
  cases tries with
  | left tries =>
    obtain ⟨same, rfl⟩ := tries.of_atomic body
    cases same
    exact fails
  | right first _ => exact first

theorem Input.Tries.of_named (tries : input.Tries .named i (.rule r) k) : k = i := by
  cases tries with
  | left tries => exact (tries.of_atomic rfl).2
  | right _ tries => exact (tries.of_atomic rfl).2

theorem Input.Tries.of_numeral (tries : input.Tries .numeral i (.rule r) k) : k = i := by
  cases tries with
  | left tries => exact (tries.of_atomic rfl).2
  | right _ tries =>
    cases tries with
    | left tries => exact (tries.of_atomic rfl).2
    | right _ tries => exact (tries.of_atomic rfl).2

theorem Input.misses_atomic (body : r.body = .atomic form) (fails : input.Parses (.rule r) i none) :
    input.Misses (.rule r) i i := by
  refine ⟨r, fun q silent => ?_, .here, fails⟩
  cases body.symm.trans silent

theorem Input.Follows.misses_unit (follows : input.Follows other R R') {p : Piece}
    (isUnit : (Piece.rule s).isUnit = true) (body : s.body = .ordinary p ∨ s.body = .silent p)
    (tries : input.Tries p i (.rule r) k) (fails : input.Parses (.rule r) k none) (related : R i j) :
    ∃ l, other.Misses (.rule s) j l ∧ (R k l ∨ R' k l) := by
  rcases body with body | body <;> cases s <;> cases body
  case inl.opVariable =>
    have agree := follows.opWord related
    cases tries with
    | first tries =>
      obtain ⟨same, rfl⟩ := tries.of_atomic rfl
      cases same
      exact ⟨j, (misses_atomic rfl (agree.fails fails)).mono fun tries => .inner (.inl rfl) (.first tries),
        .inl related⟩
    | second first tries =>
      obtain ⟨_, first', ⟨alike⟩⟩ := agree.left first
      obtain rfl := tries.of_named
      have sign := (follows.signVariable alike.next).fails (tries.first_fails rfl fails)
      exact ⟨_, (misses_atomic rfl sign).mono fun tries => .inner (.inl rfl) (.second first' (.left tries)),
        .inr alike.next⟩
  case inr.number =>
    obtain rfl := tries.of_numeral
    have hex := (follows.hex related).fails (tries.first_fails rfl fails)
    exact ⟨j, (misses_atomic rfl hex).mono fun tries => .inner (.inr rfl) (.left tries), .inl related⟩
  all_goals exact absurd isUnit (by decide)

/-- What is missed of an input is missed of one that follows it. -/
theorem Input.Follows.misses (follows : input.Follows other R R') (misses : input.Misses p i k)
    (composed : p.isComposed = true) (related : R i j) :
    ∃ l, other.Misses p j l ∧ (R k l ∨ R' k l) := by
  obtain ⟨r, shows, tries, fails⟩ := misses
  have mirrors := follows.toMirrors
  generalize missed : Piece.rule r = t at tries
  induction tries generalizing j with
  | here =>
    subst missed
    obtain ⟨_, fails', ⟨⟩⟩ := mirrors.parses fails composed related
    exact ⟨j, ⟨r, shows, .here, fails'⟩, .inl related⟩
  | first _ ih =>
    rw [Piece.isComposed, Bool.and_eq_true] at composed
    obtain ⟨l, misses, place⟩ := ih composed.1 related fails missed
    exact ⟨l, misses.mono .first, place⟩
  | second first _ ih =>
    rw [Piece.isComposed, Bool.and_eq_true] at composed
    obtain ⟨_, first', ⟨alike⟩⟩ := mirrors.parses first composed.1 related
    obtain ⟨l, misses, place⟩ := ih composed.2 alike.next fails missed
    exact ⟨l, misses.mono (.second first'), place⟩
  | left _ ih =>
    rw [Piece.isComposed, Bool.and_eq_true] at composed
    obtain ⟨l, misses, place⟩ := ih composed.1 related fails missed
    exact ⟨l, misses.mono .left, place⟩
  | right first _ ih =>
    rw [Piece.isComposed, Bool.and_eq_true] at composed
    obtain ⟨_, first', ⟨⟩⟩ := mirrors.parses first composed.1 related
    obtain ⟨l, misses, place⟩ := ih composed.2 related fails missed
    exact ⟨l, misses.mono (.right first'), place⟩
  | once _ ih =>
    obtain ⟨l, misses, place⟩ := ih composed related fails missed
    exact ⟨l, misses.mono .once, place⟩
  | again first _ ih =>
    obtain ⟨_, first', ⟨alike⟩⟩ := mirrors.parses first composed related
    obtain ⟨l, misses, place⟩ := ih composed alike.next fails missed
    exact ⟨l, misses.mono (.again first'), place⟩
  | @inner s p i t k body tries ih =>
    cases isUnit : (Piece.rule s).isUnit with
    | true => exact follows.misses_unit isUnit body (missed ▸ tries) fails related
    | false =>
      obtain ⟨l, misses, place⟩ := ih (Rule.isComposed_body composed isUnit body) related fails missed
      exact ⟨l, misses.mono (.inner body), place⟩

end Following

section Places

variable {scan : Scan} {afterOp : Bool} {i : Nat × List Char} {ts us : List Token} {cs after : List Char}
  {start : Nat} {fault : ParseFault}

theorem follows_tokens (scan : Scan) :
    Input.chars.Follows Input.tokens (scan.At false) (scan.At true) where
  toMirrors := mirrors_tokens scan
  hex here := agree_atomic here exact_hex rfl (by rintro _ ⟨_, _, rfl⟩; rfl)
  opWord here := agree_opWord here
  signVariable here := agree_atomic here exact_signVariable rfl (by rintro _ ⟨_, rfl⟩; rfl)

/-- The byte at which the last tokens of a scan start, or where it stops. -/
def Scan.place (scan : Scan) : List Token → Nat
  | [] => scan.stop
  | t :: _ => t.offset

theorem Scan.Stands.place_eq (stands : scan.Stands us start after) : start = scan.place us := by
  cases stands <;> rfl

theorem Scan.At.place_eq (here : scan.At afterOp i ts) : i.1 = scan.place ts := by
  have tokens := here.tokens
  cases found : Lexeme.cut? afterOp i.2 with
  | none =>
    rw [scanFrom_none (by rw [here.visible, found]), here.visible] at tokens
    obtain ⟨rfl, stop, _⟩ := Scan.mk.inj tokens
    exact stop
  | some cut =>
    rw [scanFrom_cuts (Lexeme.cut?_some_iff.1 found)] at tokens
    rw [← (Scan.mk.inj tokens).1]
    rfl

theorem Scan.At.le_place (here : scan.At afterOp i (ts ++ us)) : i.1 ≤ scan.place us := by
  have tokens := here.tokens
  obtain ⟨start, before, after, front, stands⟩ := Scan.scanFrom_front (congrArg Scan.tokens tokens)
  rw [tokens] at stands
  have last : start = scan.place us := by cases stands <;> rfl
  rw [← last, front.place]
  exact Nat.le_add_right _ _

/-- Where something is missed of a text, the reader can have read up to there. -/
theorem Input.Misses.run_of_main {k : Nat × List Char}
    (misses : Input.chars.Misses (.rule .main) (0, cs) k) :
    k.1 = 0 ∨ ∃ read us s afterOp, (Scan.ofText cs).tokens = read ++ us ∧
      State.initial.run read = .ok s ∧ (Scan.ofText cs).At afterOp k us := by
  have follows := follows_tokens (Scan.ofText cs)
  have here : (Scan.ofText cs).At false (dropLayout false 0 cs) (Scan.ofText cs).tokens := .behind rfl
  obtain ⟨r, shows, tries, fails⟩ := misses
  cases tries with
  | here => exact .inl rfl
  | inner body tries =>
  rcases body with body | body <;> cases body
  cases tries with
  | first tries => cases tries
  | second nothing tries =>
  cases nothing
  refine .inr ?_
  cases tries with
  | first tries =>
    obtain ⟨us, misses, place⟩ := follows.misses ⟨r, shows, tries, fails⟩ rfl here
    obtain ⟨read, s, whole, run⟩ := misses.run
    rcases place with place | place
    · exact ⟨read, us, s, _, whole, run, place⟩
    · exact ⟨read, us, s, _, whole, run, place⟩
  | second expression tries =>
    obtain ⟨_, rfl⟩ := tries.of_atomic rfl
    obtain ⟨_, reads, ⟨alike⟩⟩ := follows.parses expression rfl here
    obtain ⟨s, run, _⟩ := State.opens_initial _ reads.mem_language _ rfl
    exact ⟨_, _, s, _, reads.tokens, run, alike.next⟩

theorem State.run_within {s s' : State} {read read' us' : List Token} (run : initial.run read = .ok s)
    (stuck : ∀ t ∈ us.head?, ∀ s', ¬ Step s t s') (run' : initial.run read' = .ok s')
    (whole : read ++ us = read' ++ us') : ∃ middle, us' = middle ++ us := by
  rcases List.append_eq_append_iff.1 whole with ⟨middle, rfl, rfl⟩ | ⟨middle, rfl, rfl⟩
  · obtain ⟨_, first, later⟩ := run_append_ok.1 run'
    cases run.symm.trans first
    cases middle with
    | nil => exact ⟨[], rfl⟩
    | cons t middle =>
      obtain ⟨_, step, _⟩ := run_cons_ok.1 later
      exact absurd step (stuck t rfl _)
  · exact ⟨middle, rfl⟩

/-- The grammar matches the texts that are read. -/
theorem parses_main_iff_read : (∃ x, Input.chars.Parses (.rule .main) (0, cs) (some x)) ↔
    ∃ draft, readText cs = .ok draft := by
  constructor
  · rintro ⟨x, parses⟩
    obtain ⟨_, draft, _, _, read⟩ := Library.documented_byGrammar.built parses
    exact ⟨draft, read⟩
  · rintro ⟨draft, read⟩
    exact Library.parses_of_readText read

theorem misses_ending {x : Portion (Nat × List Char) Char} (failed : readText cs = .error (start, fault))
    (expression : Input.chars.Parses (.rule .expression) (dropLayout false 0 cs) (some x)) :
    Input.chars.Misses (.rule .main) (0, cs) (Input.chars.pass x.rest) := by
  have fails : Input.chars.Parses (.rule .endOfInput) (Input.chars.pass x.rest) none := by
    refine .atomicFails rfl fun w j takes => ?_
    obtain ⟨_, read⟩ := parses_main_iff_read.1
      ⟨_, .ordinary rfl (.both .nothing (.both expression (.atomic rfl takes)))⟩
    cases failed.symm.trans read
  exact (misses_atomic rfl fails).mono fun tries =>
    .inner (.inl rfl) (.second .nothing (.second expression tries))

/-- The reader stops where a rule fails the furthest. -/
theorem isGreatest_missed (failed : readText cs = .error (start, fault)) :
    IsGreatest (missed cs) start := by
  obtain ⟨read, us, s, split, run, stuck, found⟩ := readText_error failed
  obtain ⟨start, before, after, _, stands⟩ := Scan.scanFrom_front split
  obtain ⟨rfl, _⟩ := found stands
  rw [show start = (Scan.ofText cs).place us from stands.place_eq]
  have follows := follows_tokens (Scan.ofText cs)
  constructor
  · have here : (Scan.ofText cs).At false (dropLayout false 0 cs) (read ++ us) :=
      .behind (by rw [← split]; rfl)
    have valid : ∀ t ∈ read, ∃ afterOp, t.lexeme.Valid afterOp := fun t member =>
      Scan.valid_of_mem (split ▸ List.mem_append_left us member)
    rcases misses_or_ends run valid stuck with misses | ⟨y, reads, rfl⟩
    · obtain ⟨k, misses, related⟩ := follows.symm.misses misses rfl here
      have place : k.1 = (Scan.ofText cs).place us := by
        rcases related with related | related <;> exact Scan.At.place_eq related
      rw [← place]
      exact ⟨k.2, misses.mono fun tries => .inner (.inl rfl) (.second .nothing (.first tries))⟩
    · obtain ⟨_, expression, ⟨alike⟩⟩ := follows.toMirrors.symm.parses reads rfl here
      have place := Scan.At.place_eq alike.next
      change _ = (Scan.ofText cs).place y.rest at place
      rw [← place]
      exact ⟨_, misses_ending failed expression⟩
  · rintro k ⟨rest, misses⟩
    rcases misses.run_of_main with rfl | ⟨read', us', s', afterOp, whole, run', place⟩
    · exact Nat.zero_le _
    · obtain ⟨middle, rfl⟩ := State.run_within run stuck run' (split.symm.trans whole)
      exact place.le_place

end Places

section Errors

/-- What describes what was found: the end of the text, or in quotes a character, as it is or escaped. -/
inductive Describes : Option Char → String → Prop where
  | ending : Describes none "end of input"
  | char {c : Char} {shown : List Char} (read : Text.unescape? shown = some (c, []))
    (plain : Text.isHidden c = false → c ≠ '\'' → c ≠ '\\' → shown = [c]) :
    Describes (some c) (String.ofList ('\'' :: shown ++ ['\'']))

theorem describes_foundText (found : Option Char) : Describes found (ParseFault.foundText found) := by
  cases found with
  | none => exact .ending
  | some c =>
    refine .char ?_ Text.escape_visible
    rw [← List.append_nil (Text.escape '\'' c)]
    exact Text.unescape?_escape (.inr rfl) c []

/-- What becomes of a text that is refused between `before` and `after`. -/
structure Library.RefusesAt (lib : Library) (limit : Nat) (source text : String) (position : Position)
    (before after : List Char) : Prop where
  whole : text.toList = before ++ after
  offset : position.offset = byteLength before
  reported : ∃ expected, lib.parseWithin limit source text =
    some (.error ⟨position, .unexpected expected after.head?⟩)
  /-- The reader stops where the library does. -/
  stopped : ∃ expected, Formula.parseWithin limit source text =
    .error ⟨position, .unexpected expected after.head?⟩
  furthest : IsGreatest (missed text.toList) (byteLength before)
  visible : ∀ c ∈ after.head?, isBlank c = false ∧ c ≠ '#'
  found : Describes after.head? (ParseFault.foundText after.head?)
  ending : ParseFault.foundText after.head? = "end of input" ↔
    position.offset = byteLength text.toList
  viable : ∃ more, ∀ source' {limit'}, (before ++ more).length ≤ limit' → ∃ tree,
    lib.parseWithin limit' source' (String.ofList (before ++ more)) = some (.ok tree) ∧
      Formula.parseWithin limit' source' (String.ofList (before ++ more)) = .ok tree

namespace Library

variable {lib : Library}

theorem failsFurthest_byGrammar : byGrammar.FailsFurthest := by
  intro cs place rules failed
  rw [byGrammar] at failed
  dsimp only at failed
  split at failed
  · cases failed
  · next rejected =>
    cases failed
    cases read : readText cs with
    | ok draft => exact absurd (parses_main_iff_read.2 ⟨draft, read⟩) rejected
    | error failed =>
      have greatest := isGreatest_missed read
      rwa [greatest.csSup_eq]

/-- A text whose nesting is within the limit and that the grammar rejects is refused where a rule failed
the furthest, right behind the beginning of a text that is parsed. -/
theorem parseWithin_error (documented : lib.Documented) (furthest : lib.FailsFurthest) (limit : Nat)
    (source text : String) (shallow : nestingExcess? limit text.toList = none)
    (rejected : ∀ x, ¬ Input.chars.Parses (.rule .main) (0, text.toList) (some x)) :
    ∃ position before after, lib.RefusesAt limit source text position before after := by
  cases read : readText text.toList with
  | ok draft =>
    obtain ⟨x, parses⟩ := parses_main_iff_read.2 ⟨draft, read⟩
    exact absurd parses (rejected x)
  | error failed =>
  cases ran : lib.run text.toList with
  | ok ms =>
    obtain ⟨x, parses, _⟩ := (documented.run _ _).1 ran
    exact absurd parses (rejected x)
  | error failed' =>
  obtain ⟨place, fault⟩ := failed
  obtain ⟨place', rules⟩ := failed'
  have greatest := isGreatest_missed read
  obtain rfl : place = place' := greatest.unique (furthest ran)
  obtain ⟨before, after, expected, whole, rfl, rfl, visible, more, viable⟩ := readText_stops read
  have boundary : isBoundary text.toList (byteLength before) = true := by
    rw [whole]
    exact isBoundary_append before after
  have behind : dropBytes text.toList (byteLength before) = after := by
    rw [whole]
    exact dropBytes_append before after
  have offset : (Position.ofGrammarOffset source _ _).offset = byteLength before :=
    ofGrammarOffset_offset boundary
  refine ⟨.ofGrammarOffset source text.toList (byteLength before), before, after, ?_⟩
  exact {
    whole := whole
    offset := offset
    reported := ⟨rules.map Rule.expectation, by
      simp only [parseWithin, shallow, ran, ParseFault.unexpectedAt, boundary, behind, if_true]⟩
    stopped := ⟨expected, by simp only [Formula.parseWithin, shallow, read]⟩
    furthest := greatest
    visible := visible
    found := describes_foundText _
    ending := by
      rw [foundText_eq_iff, offset, whole, Nesting.byteLength_append, left_eq_add,
        byteLength_eq_zero_iff, List.head?_eq_none_iff]
    viable := by
      refine ⟨more, fun source' limit' room => ?_⟩
      obtain ⟨tree, parsed⟩ := viable source' room
      exact ⟨tree, documented.parseWithin_of_ok parsed, parsed⟩ }

/-- In `[op+_# c`, with `in` on the next line, the word `in` is refused, which ends no binding. -/
theorem parseWithin_error_unbound :
    byGrammar.Documented ∧ byGrammar.FailsFurthest ∧
      nestingExcess? 2 "[op+_# c\n in".toList = none ∧
      (∀ x, ¬ Input.chars.Parses (.rule .main) (0, "[op+_# c\n in".toList) (some x)) ∧
      ∃ before after, byGrammar.RefusesAt 2 "s" "[op+_# c\n in" ⟨"s", 2, 2, 10⟩ before after ∧
        after.head? = some 'i' := by
  have shallow : nestingExcess? 2 "[op+_# c\n in".toList = none := by decide +kernel
  have refused : Formula.parseWithin 2 "s" "[op+_# c\n in" = .error ⟨⟨"s", 2, 2, 10⟩, .unexpected
      [.expression, .vector, .connective, .number, .opWord, .identifier] (some 'i')⟩ := by
    with_unfolding_all rfl
  have rejected : ∀ x, ¬ Input.chars.Parses (.rule .main) (0, "[op+_# c\n in".toList) (some x) := by
    intro x parses
    obtain ⟨draft, read⟩ := parses_main_iff_read.1 ⟨x, parses⟩
    rw [parseWithin_ok.2 ⟨shallow, draft, read, rfl⟩] at refused
    cases refused
  obtain ⟨position, before, after, refuses⟩ := parseWithin_error documented_byGrammar
    failsFurthest_byGrammar 2 "s" _ shallow rejected
  obtain ⟨_, stopped⟩ := refuses.stopped
  obtain ⟨rfl, fault⟩ := ParseError.mk.inj (Except.error.inj (refused.symm.trans stopped))
  exact ⟨documented_byGrammar, failsFurthest_byGrammar, shallow, rejected, before, after, refuses,
    (ParseFault.unexpected.inj fault).2.symm⟩

end Library

end Errors

end Formula
