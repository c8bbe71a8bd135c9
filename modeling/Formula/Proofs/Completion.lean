import Formula.Proofs.Derivable

/-! Sentences that go on from what has been read. An operand that is missing is a variable, and what is
open is closed from the inside out. Main statement: whatever has been read, some lexemes make a
sentence of it, each of which can be written in front of a blank. -/
namespace Formula

open State Grammar

/-- A lexeme that is cut off in front of a blank, after `op` as elsewhere. -/
def Lexeme.Plain (l : Lexeme) : Prop :=
  ∀ afterOp rest, Cuts afterOp (l.text ++ ' ' :: rest) l (' ' :: rest)

/-- Lexemes with which a sentence begins that goes on with plain ones. -/
def Completes (ls : List Lexeme) : Prop :=
  ∃ more, (∀ l ∈ more, l.Plain) ∧ ls ++ more ∈ sentence .expression

/-- The operand that stands for a missing one. -/
def filler : Lexeme := .word ['x']

theorem filler_free : ['x'] ∉ reserved := by decide

theorem sentence_filler : [filler] ∈ sentence .atom := sentence_of_atom (.word (o := 0) filler_free)

theorem plain_word {cs : List Char} (known : cs = ['x'] ∨ cs = "in".toList) :
    (Lexeme.word cs).Plain := by
  intro afterOp rest
  rcases known with rfl | rfl <;> exact Lexeme.cut?_some_iff.1 rfl

theorem plain_mark {c : Char} (bracket : c = ')' ∨ c = ']') : (Lexeme.mark c).Plain := by
  intro afterOp rest
  rcases bracket with rfl | rfl <;> exact Lexeme.cut?_some_iff.1 rfl

theorem plain_operators {c : Char} (operator : c = '+' ∨ c = '=') : (Lexeme.operators [c]).Plain := by
  intro afterOp rest
  rcases operator with rfl | rfl <;> cases afterOp <;> exact Lexeme.cut?_some_iff.1 rfl

theorem Completes.of_append {ls es : List Lexeme} (completes : Completes es) (ms : List Lexeme)
    (plain : ∀ l ∈ ms, l.Plain) (same : es = ls ++ ms) : Completes ls := by
  subst same
  obtain ⟨more, others, sentence⟩ := completes
  rw [List.append_assoc] at sentence
  exact ⟨ms ++ more, List.forall_mem_append.2 ⟨plain, others⟩, sentence⟩

section Levels

variable {level : Level} {frame : Frame} {outer : List Level} {ls as es before : List Lexeme}

theorem Level.Read.atom (reads : level.Read ls) (atom : as ∈ sentence .atom) :
    ls ++ as ∈ sentence .expression :=
  (reads.addAtom 0 (.var 0 "x") atom).expression rfl

theorem sentence_of_fillers : [filler] ∈ sentence .expression :=
  (Level.Read.fresh .whole).atom sentence_filler

/-- A whole expression inside what is open goes on to the end of what is around it. -/
theorem Around.completes (around : Around frame outer before) (expression : es ∈ sentence .expression) :
    Completes (before ++ es) := by
  induction around generalizing es with
  | whole => exact ⟨[], List.forall_mem_nil _, by simpa using expression⟩
  | inner around reads opens ih =>
    cases opens with
    | group =>
      refine (ih (reads.atom (sentence_grouped expression))).of_append [.mark ')'] ?_ (by simp)
      simp [plain_mark]
    | vector elements empty =>
      have whole := elements es expression [] (sentence_nil (by simp [alternatives]))
      refine (ih (reads.atom (sentence_vector whole))).of_append [.mark ']'] ?_ (by simp)
      simp [plain_mark]
    | bound empty free =>
      have operand := sentence_binding free expression sentence_of_fillers
      refine (ih ((reads.leads empty).expression operand)).of_append
        [.word "in".toList, filler] ?_ (by simp)
      simp [filler, plain_word]
    | body empty free bound =>
      have operand := sentence_binding free bound expression
      simpa using ih ((reads.leads empty).expression operand)

theorem Reaches.atom (reaches : Reaches level outer ls) (atom : as ∈ sentence .atom) :
    Completes (ls ++ as) := by
  cases reaches with
  | mk around reads =>
    rw [List.append_assoc]
    exact around.completes (reads.atom atom)

theorem Reaches.operand (reaches : Reaches level outer ls) (empty : level.operand = none)
    (operand : as ∈ sentence .operand) : Completes (ls ++ as) := by
  cases reaches with
  | mk around reads =>
    rw [List.append_assoc]
    exact around.completes ((reads.leads empty).expression operand)

end Levels

theorem sentence_filled {w : List Char} (free : w ∉ reserved) :
    [.word "let".toList, .word w, .operators ['='], filler, .word "in".toList, filler] ∈
      sentence .operand :=
  sentence_binding free sentence_of_fillers sentence_of_fillers

/-- Whatever has been read, a sentence goes on from it. -/
theorem State.Traced.completes {s : State} {ls : List Lexeme} (traced : s.Traced ls) :
    Completes ls := by
  have word : (Lexeme.word ['x']).Plain := plain_word (.inl rfl)
  cases traced with
  | within reaches =>
    exact (reaches.atom sentence_filler).of_append [filler] (by simp [filler, word]) rfl
  | afterOp reaches =>
    have named : [.op, .operators ['+']] ∈ sentence .atom := sentence_named (.operator (by simp))
    exact (reaches.atom named).of_append [.operators ['+']] (by simp [plain_operators]) (by simp)
  | afterLet reaches empty =>
    refine (reaches.operand empty (sentence_filled filler_free)).of_append
      [.word ['x'], .operators ['='], filler, .word "in".toList, filler] ?_ (by simp)
    simp [filler, plain_word, plain_operators]
  | afterName reaches empty free =>
    refine (reaches.operand empty (sentence_filled free)).of_append
      [.operators ['='], filler, .word "in".toList, filler] ?_ (by simp)
    simp [filler, plain_word, plain_operators]

end Formula
