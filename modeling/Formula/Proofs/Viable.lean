import Formula.Proofs.Completion
import Formula.Proofs.LineStarts

/-! Where a text that is no expression is refused. What stands before that place is cut into the same
lexemes when something else follows in a new line, so it goes on to a sentence. Main statement:
the reader stops in front of a token that it refuses, or where the text ends or cannot be cut further,
and what stands before that place is the beginning of a text that is parsed. -/
namespace Formula

open Grammar

namespace Nesting

theorem excess?_eq_none {limit : Nat} {opened : List Opener} {operators offset : Nat} {cs : List Char}
    (room : opened.length + operators + cs.length ≤ limit) :
    excess? limit opened operators offset cs = none := by
  induction size : cs.length using Nat.strong_induction_on generalizing cs opened operators offset with
  | _ n ih =>
    cases cs with
    | nil => rw [excess?]
    | cons c cs =>
      rw [List.length_cons] at room size
      have later {opened : List Opener} {operators offset : Nat} {ds : List Char}
          (shorter : ds.length ≤ cs.length) (fits : opened.length + operators + cs.length ≤ limit) :
          excess? limit opened operators offset ds = none :=
        ih ds.length (by omega) (by omega) rfl
      have shrinks (p : Char → Bool) : (cs.dropWhile p).length ≤ cs.length :=
        (List.dropWhile_sublist p).length_le
      have ends : (endBindings opened).length ≤ opened.length := (List.dropWhile_sublist _).length_le
      by_cases operator : isOperatorChar c = true
      · rw [excess?_operator operator, if_neg (by omega)]
        exact later (shrinks _) (by omega)
      by_cases comment : c = '#'
      · rw [comment, excess?_comment]
        exact later (shrinks _) (by omega)
      by_cases openBracket : c = '(' ∨ c = '['
      · rw [excess?_openBracket openBracket, if_neg (by omega)]
        exact later le_rfl (by rw [List.length_cons]; omega)
      by_cases closeBracket : c = ')' ∨ c = ']'
      · rw [excess?_closeBracket closeBracket]
        exact later le_rfl (by rw [List.length_drop]; omega)
      by_cases comma : c = ','
      · rw [comma, excess?_comma]
        exact later le_rfl (by omega)
      by_cases word : c.isAlphanum = true ∨ c = '$'
      · rw [excess?_word word]
        split
        · rw [if_neg (by omega)]
          exact later (shrinks _) (by rw [List.length_cons]; omega)
        · exact later (shrinks _) (by omega)
      · have mark : Lexeme.isMark c = false := by
          rw [Bool.eq_false_iff, ne_eq, Lexeme.isMark_iff]
          simp only [List.mem_cons, List.not_mem_nil]
          tauto
        rw [not_or, Bool.not_eq_true] at word
        rw [excess?_other (Bool.eq_false_iff.2 operator) comment mark word.1 word.2]
        exact later le_rfl (by omega)

end Nesting

section Layout

variable {afterOp : Bool} {c : Char} {cs ds : List Char} {ls : List Lexeme}

theorem lexes_comment_ends (line : c = '\n' ∨ c = '\r') (lexes : Lexes afterOp cs ls) :
    Lexes afterOp ('#' :: c :: cs) ls := by
  have blank : isBlank c = true := Lexeme.isBlank_iff.2 (.inr (.inr line.symm))
  change Lexes afterOp ('#' :: ([] ++ c :: cs)) ls
  exact .comment (List.forall_mem_nil _) (by simpa using line) (.blank blank lexes)

theorem lexes_comment_cons (plain : c ≠ '\n' ∧ c ≠ '\r') (lexes : Lexes afterOp ('#' :: cs) ls) :
    Lexes afterOp ('#' :: c :: cs) ls := by
  cases lexes with
  | blank blank later => contradiction
  | @comment _ body rest _ within ends later =>
    change Lexes afterOp ('#' :: (c :: body ++ rest)) ls
    exact .comment (List.forall_mem_cons.2 ⟨plain, within⟩) ends later
  | lexeme valid longest later =>
    have cut := Lexeme.cut?_some_iff.2 (Lexeme.cuts_iff_longest.2 ⟨valid, longest⟩)
    simp [Lexeme.cut?] at cut
    contradiction

/-- The mark that a comment has begun, in front of the rest of the comment. -/
def commentMark (comment : Bool) : List Char := if comment then ['#'] else []

/-- The layout `gap`, perhaps the rest of a comment, between byte `offset` and byte `start` of a text,
in front of `rest`. The same lexemes stand behind it when something else follows, if it leaves no
comment open or a new line follows. -/
structure Layout (comment : Bool) (gap : List Char) (offset start : Nat) (cs rest : List Char) :
    Prop where
  whole : cs = gap ++ rest
  place : start = offset + byteLength gap
  visible : ∀ c ∈ rest.head?, isBlank c = false ∧ c ≠ '#'
  lexes : ∀ {afterOp ds ls}, rest ≠ [] ∨ ds.head? = some '\n' → Lexes afterOp ds ls →
    Lexes afterOp (commentMark comment ++ (gap ++ ds)) ls

theorem Layout.cons {comment comment' : Bool} {gap rest : List Char} {offset start : Nat}
    (layout : Layout comment' gap (offset + c.utf8Size) start cs rest)
    (lead : ∀ {afterOp ds ls}, Lexes afterOp (commentMark comment' ++ ds) ls →
      Lexes afterOp (commentMark comment ++ c :: ds) ls) :
    Layout comment (c :: gap) offset start (c :: cs) rest where
  whole := congrArg (c :: ·) layout.whole
  place := by rw [layout.place, byteLength, Nat.add_assoc]
  visible := layout.visible
  lexes follows later := lead (layout.lexes follows later)

theorem layout_dropLayout (comment : Bool) (offset : Nat) (cs : List Char) :
    ∃ gap, Layout comment gap offset (dropLayout comment offset cs).1 cs
      (dropLayout comment offset cs).2 := by
  induction cs generalizing comment offset with
  | nil =>
    refine ⟨[], rfl, rfl, nofun, fun follows lexes => ?_⟩
    cases comment with
    | false => exact lexes
    | true =>
      have line := follows.resolve_left (· rfl)
      change Lexes _ ('#' :: ([] ++ _)) _
      exact .comment (List.forall_mem_nil _) (by simp [line]) lexes
  | cons c cs ih =>
    by_cases inside : comment = true
    · subst inside
      by_cases line : c = '\n' ∨ c = '\r'
      · have drop : dropLayout true offset (c :: cs) = dropLayout false (offset + c.utf8Size) cs := by
          rcases line with rfl | rfl <;> rfl
        obtain ⟨gap, layout⟩ := ih false (offset + c.utf8Size)
        exact ⟨c :: gap, drop ▸ layout.cons (lexes_comment_ends line)⟩
      · rw [not_or] at line
        obtain ⟨gap, layout⟩ := ih true (offset + c.utf8Size)
        have drop : dropLayout true offset (c :: cs) = dropLayout true (offset + c.utf8Size) cs := by
          simp [dropLayout, line]
        exact ⟨c :: gap, drop ▸ layout.cons (lexes_comment_cons line)⟩
    rw [Bool.not_eq_true] at inside
    subst inside
    by_cases blank : isBlank c = true
    · obtain ⟨gap, layout⟩ := ih false (offset + c.utf8Size)
      have drop : dropLayout false offset (c :: cs) = dropLayout false (offset + c.utf8Size) cs := by
        simp [dropLayout, blank]
      exact ⟨c :: gap, drop ▸ layout.cons (.blank blank)⟩
    by_cases comment : c = '#'
    · subst comment
      obtain ⟨gap, layout⟩ := ih true (offset + '#'.utf8Size)
      exact ⟨'#' :: gap, layout.cons id⟩
    · have drop : dropLayout false offset (c :: cs) = (offset, c :: cs) := by
        simp [dropLayout, blank, comment]
      rw [drop]
      refine ⟨[], rfl, rfl, ?_, fun _ => id⟩
      simpa using And.intro (Bool.eq_false_iff.2 blank) comment

end Layout

namespace Lexeme

variable {afterOp : Bool} {l : Lexeme}

theorem Valid.ascii (valid : l.Valid afterOp) : ∀ c ∈ l.text, c.utf8Size = 1 ∧ c ≠ '\n' :=
  valid.cuts_text.ascii

theorem Valid.text_ne_nil (valid : l.Valid afterOp) : l.text ≠ [] :=
  cut?_text_ne_nil (cut?_some_iff.2 valid.cuts_text)

/-- No lexeme goes on in a new line, so the longest stays the longest. -/
theorem longest_newline {w r after tail : List Char}
    (longest : Longest (Spelled afterOp) (w ++ (r ++ after)) w (r ++ after)) :
    Longest (Spelled afterOp) (w ++ (r ++ '\n' :: tail)) w (r ++ '\n' :: tail) := by
  refine ⟨rfl, longest.holds, ?_⟩
  rintro _ rest ⟨l, valid, rfl⟩ whole
  rw [← List.append_assoc, List.append_eq_append_iff] at whole
  rcases whole with ⟨others, first, _⟩ | ⟨others, first, second⟩
  · refine longest.longest l.text (others ++ after) ⟨l, valid, rfl⟩ ?_
    rw [← List.append_assoc, ← first, List.append_assoc]
  · cases others with
    | nil =>
      rw [List.append_nil] at first
      refine longest.longest l.text after ⟨l, valid, rfl⟩ ?_
      rw [first, List.append_assoc]
    | cons c others =>
      obtain ⟨rfl, _⟩ := List.cons.inj second
      exact absurd rfl (valid.ascii '\n' (by simp [first])).2

end Lexeme

namespace Scan

/-- The beginning of a text that is cut into `ts`, up to byte `place`, where `after` stands: whatever
follows in a new line, it is cut into the same lexemes. -/
structure Front (afterOp : Bool) (offset : Nat) (cs : List Char) (ts : List Token) (place : Nat)
    (before after : List Char) : Prop where
  whole : cs = before ++ after
  place : place = offset + byteLength before
  visible : ∀ c ∈ after.head?, isBlank c = false ∧ c ≠ '#'
  lexes : ∀ {tail ls}, (∀ afterOp, Lexes afterOp tail ls) →
    Lexes afterOp (before ++ '\n' :: tail) (ts.map Token.lexeme ++ ls)

/-- What stands where the tokens `us` of a scan begin. -/
inductive Stands (scan : Scan) : List Token → Nat → List Char → Prop where
  | stop : Stands scan [] scan.stop scan.rest
  | token {afterOp t us r} (valid : t.lexeme.Valid afterOp) :
    Stands scan (t :: us) t.offset (t.lexeme.text ++ r)

variable {afterOp : Bool} {offset start place : Nat} {cs rest gap before after : List Char}
  {l : Lexeme} {ts us : List Token}

theorem front_layout (layout : Layout false gap offset start cs rest) :
    Front afterOp offset cs [] start gap rest where
  whole := layout.whole
  place := layout.place
  visible := layout.visible
  lexes later := layout.lexes (.inr rfl) (.blank (by decide) (later afterOp))

theorem Front.cons (layout : Layout false gap offset start cs (l.text ++ rest))
    (cuts : Lexeme.Cuts afterOp (l.text ++ rest) l rest)
    (front : Front (l = Lexeme.op) (start + l.text.length) rest ts place before after) :
    Front afterOp offset cs (⟨start, l⟩ :: ts) place (gap ++ (l.text ++ before)) after where
  whole := by rw [layout.whole, front.whole, List.append_assoc, List.append_assoc]
  place := by
    have ascii := Nesting.byteLength_ascii fun c member => (cuts.ascii c member).1
    rw [front.place, layout.place, Nesting.byteLength_append, Nesting.byteLength_append, ascii]
    omega
  visible := front.visible
  lexes later := by
    obtain ⟨valid, longest⟩ := Lexeme.cuts_iff_longest.1 cuts
    rw [front.whole] at longest
    rw [List.append_assoc, List.append_assoc]
    refine layout.lexes (.inl ?_) (.lexeme valid (Lexeme.longest_newline longest) (front.lexes later))
    exact List.append_ne_nil_of_left_ne_nil valid.text_ne_nil rest

/-- The tokens of a text are those of its beginning up to any of them, and up to its end. -/
theorem scanFrom_front (split : (scanFrom afterOp offset cs).tokens = ts ++ us) :
    ∃ place before after, Front afterOp offset cs ts place before after ∧
      (scanFrom afterOp offset cs).Stands us place after := by
  induction afterOp, offset, cs using scanFrom.induct generalizing ts with
  | @case1 afterOp offset cs start stops =>
    obtain ⟨gap, layout⟩ := layout_dropLayout false offset cs
    rw [scanFrom_none stops] at split ⊢
    obtain ⟨rfl, rfl⟩ := List.append_eq_nil_iff.1 split.symm
    exact ⟨_, gap, _, front_layout layout, .stop⟩
  | @case2 afterOp offset cs start l rest found ih =>
    obtain ⟨gap, layout⟩ := layout_dropLayout false offset cs
    have cuts := Lexeme.cut?_some_iff.1 found
    rw [scanFrom_some found] at split ⊢
    dsimp only [start] at cuts
    rw [cuts.append] at layout cuts
    cases ts with
    | nil =>
      subst split
      exact ⟨_, gap, _, front_layout layout, .token (t := ⟨_, l⟩) cuts.valid⟩
    | cons t ts =>
      obtain ⟨rfl, later⟩ := List.cons.inj split
      obtain ⟨place, before, after, front, stands⟩ := ih later
      refine ⟨place, _, after, front.cons layout cuts, ?_⟩
      cases stands with
      | stop => exact .stop
      | token valid => exact .token valid

end Scan

namespace State

theorem step_error {s : State} {t : Token} {refusal : Refusal}
    (value : ∀ cs, t.lexeme = .numeral cs → ∃ x, Numeral.value? cs = some x)
    (failed : s.step t = .error refusal) : refusal = .unexpected := by
  have orUnexpected {found : Option State} (failed : step.orUnexpected found = .error refusal) :
      refusal = .unexpected := by
    cases found <;> cases failed
    rfl
  unfold step at failed
  split at failed
  · next numeral =>
    obtain ⟨x, value⟩ := value _ numeral
    rw [value] at failed
    cases failed
  · exact orUnexpected failed
  · exact orUnexpected failed
  · exact orUnexpected failed
  · cases failed
  · split at failed <;> cases failed
    rfl
  · split at failed <;> cases failed
    rfl
  · split at failed <;> cases failed
    rfl
  · cases failed
    rfl

theorem run_error {s : State} {ts : List Token} {stuck : Stuck} (failed : s.run ts = .error stuck) :
    ∃ read later, ts = read ++ stuck.token :: later ∧ s.run read = .ok stuck.state ∧
      stuck.state.step stuck.token = .error stuck.refusal := by
  induction ts generalizing s with
  | nil => cases failed
  | cons t ts ih =>
    rw [run] at failed
    cases step : s.step t with
    | ok next =>
      rw [step] at failed
      obtain ⟨read, later, rfl, run, refused⟩ := ih failed
      exact ⟨t :: read, later, rfl, run_cons_ok.2 ⟨next, step_ok_iff.1 step, run⟩, refused⟩
    | error refusal =>
      rw [step] at failed
      cases failed
      exact ⟨[], ts, rfl, rfl, step⟩

end State

/-- Where the reading of a text fails: the tokens before that place are read, the one that stands there
is refused, and it is what was found. -/
theorem readText_error {text : List Char} {place : Nat} {fault : ParseFault}
    (failed : readText text = .error (place, fault)) :
    ∃ ts us s, (Scan.ofText text).tokens = ts ++ us ∧ State.initial.run ts = .ok s ∧
      (∀ t ∈ us.head?, ∀ s', ¬ State.Step s t s') ∧ ∀ {start after}, (Scan.ofText text).Stands us start after →
        place = start ∧ fault = .unexpected s.expected after.head? := by
  unfold readText at failed
  dsimp only at failed
  split at failed
  · next stuck run =>
    obtain ⟨read, later, split, run, refused⟩ := State.run_error run
    cases failed
    refine ⟨read, _, _, split, run, ?_, fun stands => ?_⟩
    · rintro _ ⟨⟩ s' step
      rw [State.step_ok_iff.2 step] at refused
      cases refused
    cases stands with
    | @token afterOp t us r valid =>
      have unexpected : stuck.refusal = .unexpected := State.step_error (fun cs numeral => by
        rw [numeral] at valid
        cases valid with
        | numeral valid => exact valid.value?) refused
      rw [unexpected, List.head?_append_of_ne_nil _ valid.text_ne_nil]
      exact ⟨rfl, rfl⟩
  · next s run =>
    split at failed
    · cases failed
    · cases failed
      refine ⟨_, [], s, (List.append_nil _).symm, run, nofun, fun stands => ?_⟩
      cases stands
      exact ⟨rfl, rfl⟩

/-- Lexemes, each with a blank behind it. -/
def spell (ls : List Lexeme) : List Char := ls.flatMap fun l => l.text ++ [' ']

theorem lexes_spell {ls : List Lexeme} (plain : ∀ l ∈ ls, l.Plain) (afterOp : Bool) :
    Lexes afterOp (spell ls) ls := by
  induction ls generalizing afterOp with
  | nil => exact .nil
  | cons l ls ih =>
    obtain ⟨here, later⟩ := List.forall_mem_cons.1 plain
    obtain ⟨valid, longest⟩ := Lexeme.cuts_iff_longest.1 (here afterOp (spell ls))
    have whole : spell (l :: ls) = l.text ++ ' ' :: spell ls := by simp [spell]
    rw [whole]
    exact .lexeme valid longest (.blank (by decide) (ih later _))

theorem foundText_eq_iff {found : Option Char} :
    ParseFault.foundText found = "end of input" ↔ found = none := by
  cases found with
  | none => simp [ParseFault.foundText]
  | some c =>
    refine iff_of_false (fun same => ?_) nofun
    have quoted : (ParseFault.foundText (some c)).toList.head? = some '\'' := by
      simp [ParseFault.foundText, Text.quotedChar]
    rw [same] at quoted
    revert quoted
    decide

theorem ofGrammarOffset_offset {source : String} {text : List Char} {offset : Nat}
    (boundary : isBoundary text offset = true) :
    (Position.ofGrammarOffset source text offset).offset = offset := by
  rw [Position.ofGrammarOffset, if_pos boundary]

/-- The beginning of a text whose tokens are read goes on to a text that is parsed. -/
theorem Scan.Front.parsed {offset place : Nat} {cs before after : List Char} {ts : List Token}
    {s : State} (front : Front false offset cs ts place before after)
    (run : State.initial.run ts = .ok s) :
    ∃ more, ∀ source {limit}, (before ++ more).length ≤ limit →
      ∃ tree, parseWithin limit source (String.ofList (before ++ more)) = .ok tree := by
  have start : State.initial.Traced [] := .within (.mk .whole (.fresh .whole))
  obtain ⟨more, plain, sentence⟩ := (start.run run).completes
  rw [List.nil_append] at sentence
  obtain ⟨draft, read⟩ := readText_ok_iff_sentence.2 ⟨_, front.lexes (lexes_spell plain), sentence⟩
  refine ⟨'\n' :: spell more, fun source limit room => ⟨_, parseWithin_ok.2 ⟨?_, draft, ?_, rfl⟩⟩⟩
  · rw [String.toList_ofList]
    exact Nesting.excess?_eq_none (by simpa using room)
  · rwa [String.toList_ofList]

/-- Reading fails right behind the beginning of a text that is parsed, and not in front of layout. -/
theorem readText_stops {text : List Char} {place : Nat} {fault : ParseFault}
    (failed : readText text = .error (place, fault)) :
    ∃ before after expected, text = before ++ after ∧ place = byteLength before ∧
      fault = .unexpected expected after.head? ∧ (∀ c ∈ after.head?, isBlank c = false ∧ c ≠ '#') ∧
      ∃ more, ∀ source {limit}, (before ++ more).length ≤ limit →
        ∃ tree, parseWithin limit source (String.ofList (before ++ more)) = .ok tree := by
  obtain ⟨ts, us, s, split, run, _, found⟩ := readText_error failed
  obtain ⟨start, before, after, front, stands⟩ := Scan.scanFrom_front split
  obtain ⟨rfl, rfl⟩ := found stands
  exact ⟨before, after, s.expected, front.whole, front.place.trans (Nat.zero_add _), rfl, front.visible,
    front.parsed run⟩

end Formula
