import Formula.Proofs.Spelling
import Formula.Proofs.LongestNumeral

/-! Cutting a text by longest match. Main statements: a lexeme is cut off a text exactly when it is
the longest with which the text starts, and a text is cut into the lexemes of its longest matches,
whatever the layout between them. -/
namespace Formula

namespace Lexeme

/-- The lexemes, each of the form its kind says. The names of signs are lexemes only after `op`. -/
inductive Valid (afterOp : Bool) : Lexeme → Prop where
  | numeral {cs} (valid : Numeral.Valid cs) : Valid afterOp (.numeral cs)
  | word {c cs} (first : startsWord c = true) (others : ∀ d ∈ cs, continuesWord d = true) :
    Valid afterOp (.word (c :: cs))
  | operators {c cs} (each : ∀ d ∈ c :: cs, isOperatorChar d = true) :
    Valid afterOp (.operators (c :: cs))
  | signName {s : Sign} (named : afterOp = true) : Valid afterOp (.signName s.name.toList)
  | mark {c} (mark : isMark c = true) : Valid afterOp (.mark c)

/-- The texts of lexemes. -/
def Spelled (afterOp : Bool) (cs : List Char) : Prop := ∃ l, Valid afterOp l ∧ l.text = cs

variable {afterOp : Bool} {cs rest r : List Char} {l m : Lexeme}

theorem Cuts.unique {rest' : List Char} (cuts : Cuts afterOp cs l rest)
    (others : Cuts afterOp cs m rest') : l = m ∧ rest = rest' := by
  have same := (cut?_some_iff.2 cuts).symm.trans (cut?_some_iff.2 others)
  cases same
  exact ⟨rfl, rfl⟩

theorem Cuts.valid (cuts : Cuts afterOp cs l rest) : l.Valid afterOp := by
  cases cuts with
  | mark mark => exact .mark mark
  | signName named => exact .signName named
  | operators operator unnamed =>
    exact .operators
      (List.forall_mem_cons.2 ⟨operator, fun d member => List.mem_takeWhile_imp member⟩)
  | numeral digit => exact .numeral (Numeral.longest_cut digit).holds
  | word first => exact .word first fun d member => List.mem_takeWhile_imp member

theorem isDigit_head_of_valid (valid : Numeral.Valid cs) :
    ∃ d ds, cs = d :: ds ∧ d.isDigit = true := by
  rcases valid with ⟨_, _, _⟩ | ⟨_, _, _⟩ | ⟨digits, _, _⟩
  · exact ⟨_, _, rfl, by decide⟩
  · exact ⟨_, _, rfl, by decide⟩
  · obtain ⟨some, each⟩ := digits
    obtain ⟨d, ds, rfl⟩ := List.exists_cons_of_ne_nil some
    exact ⟨d, _, rfl, each d List.mem_cons_self⟩

theorem Valid.cuts (valid : l.Valid afterOp) (whole : l.text ++ r = cs) : ∃ m rest,
    Cuts afterOp cs m rest ∧ (m = l ∨ l.text.length < m.text.length) := by
  subst whole
  cases valid with
  | mark mark => exact ⟨_, _, .mark mark, .inl rfl⟩
  | signName named => exact ⟨_, _, .signName named, .inl rfl⟩
  | @numeral cs valid =>
    obtain ⟨d, ds, rfl, digit⟩ := isDigit_head_of_valid valid
    have longest : Longest Numeral.Valid (d :: (ds ++ r)) _ _ := Numeral.longest_cut digit
    refine ⟨_, _, .numeral digit, ?_⟩
    rcases (longest.longest _ r valid rfl).lt_or_eq with shorter | same
    · exact .inr shorter
    · exact .inl (congrArg _ (List.append_inj longest.append same.symm).1)
  | @word c cs first others =>
    change ∃ m rest, Cuts afterOp (c :: (cs ++ r)) m rest ∧ _
    refine ⟨_, _, .word first, ?_⟩
    rw [List.takeWhile_append_of_pos others]
    cases more : r.takeWhile continuesWord <;> simp [text]
  | @operators c cs each =>
    obtain ⟨operator, others⟩ := List.forall_mem_cons.1 each
    by_cases named : afterOp = true ∧ (c = '+' ∨ c = '-') ∧ (cs ++ r).head? = some '_'
    · obtain ⟨after, sign, underscore⟩ := named
      -- The underscore is no operator character, so the run before it is the sign alone.
      obtain rfl : cs = [] := by
        cases cs with
        | nil => rfl
        | cons d cs =>
          cases underscore
          exact absurd (others '_' List.mem_cons_self) (by decide)
      obtain ⟨r, rfl⟩ : ∃ tail, r = '_' :: tail := List.head?_eq_some_iff.1 underscore
      rcases sign with rfl | rfl
      · exact ⟨_, _, .signName (s := .plus) after, .inr (by decide)⟩
      · exact ⟨_, _, .signName (s := .minus) after, .inr (by decide)⟩
    · change ∃ m rest, Cuts afterOp (c :: (cs ++ r)) m rest ∧ _
      refine ⟨_, _, .operators operator named, ?_⟩
      rw [List.takeWhile_append_of_pos others]
      cases more : r.takeWhile isOperatorChar <;> simp [text]

theorem Valid.cuts_text (valid : l.Valid afterOp) : Cuts afterOp l.text l [] := by
  obtain ⟨m, rest, cuts, same | longer⟩ := valid.cuts (List.append_nil l.text)
  · subst same
    obtain rfl := List.append_cancel_left ((List.append_nil m.text).trans cuts.append)
    exact cuts
  · have whole := congrArg List.length cuts.append
    rw [List.length_append] at whole
    omega

/-- A lexeme is cut off a text exactly when it is the longest with which the text starts. -/
theorem cuts_iff_longest : Cuts afterOp cs l rest ↔
    l.Valid afterOp ∧ Longest (Spelled afterOp) cs l.text rest := by
  constructor
  · intro cuts
    refine ⟨cuts.valid, cuts.append.symm, ⟨l, cuts.valid, rfl⟩, ?_⟩
    rintro _ r ⟨m, valid, rfl⟩ whole
    obtain ⟨k, others, found, longer⟩ := valid.cuts whole
    obtain ⟨rfl, rfl⟩ := cuts.unique found
    rcases longer with rfl | longer
    · exact Nat.le_refl _
    · exact longer.le
  · rintro ⟨valid, longest⟩
    obtain ⟨m, others, cuts, same | longer⟩ := valid.cuts longest.append
    · subst same
      have same := cuts.append.symm.trans longest.append.symm
      rwa [← List.append_cancel_left same]
    · have within := longest.longest m.text others ⟨m, cuts.valid, rfl⟩ cuts.append.symm
      omega

end Lexeme

/-- What a text is cut into by longest match: lexemes, with blanks and comments between them. A
comment goes on to the end of its line. -/
inductive Lexes : Bool → List Char → List Lexeme → Prop where
  | nil {afterOp} : Lexes afterOp [] []
  | blank {afterOp c cs ls} (blank : isBlank c = true) (later : Lexes afterOp cs ls) :
    Lexes afterOp (c :: cs) ls
  | comment {afterOp body rest ls} (within : ∀ c ∈ body, c ≠ '\n' ∧ c ≠ '\r')
    (ends : ∀ c ∈ rest.head?, c = '\n' ∨ c = '\r') (later : Lexes afterOp rest ls) :
    Lexes afterOp ('#' :: (body ++ rest)) ls
  | lexeme {afterOp cs l rest ls} (valid : l.Valid afterOp)
    (longest : Longest (Lexeme.Spelled afterOp) cs l.text rest)
    (later : Lexes (l = Lexeme.op) rest ls) : Lexes afterOp cs (l :: ls)

namespace Scan

variable {afterOp : Bool} {cs ds rest : List Char} {ls : List Lexeme} {c : Char}

theorem dropLayout_comment {body : List Char} (within : ∀ c ∈ body, c ≠ '\n' ∧ c ≠ '\r')
    (ends : ∀ c ∈ rest.head?, c = '\n' ∨ c = '\r') (offset : Nat) :
    ∃ stop, dropLayout true offset (body ++ rest) = dropLayout false stop rest := by
  induction body generalizing offset with
  | nil =>
    cases rest with
    | nil => exact ⟨offset, rfl⟩
    | cons c rest =>
      refine ⟨offset, ?_⟩
      rcases ends c rfl with rfl | rfl <;> simp [dropLayout, isBlank]
  | cons c body ih =>
    obtain ⟨plain, others⟩ := List.forall_mem_cons.1 within
    obtain ⟨stop, same⟩ := ih others (offset + c.utf8Size)
    exact ⟨stop, by simpa [dropLayout, plain] using same⟩

theorem lexes_scanFrom (lexes : Lexes afterOp cs ls) (offset : Nat) :
    (scanFrom afterOp offset cs).rest = [] ∧
      (scanFrom afterOp offset cs).tokens.map Token.lexeme = ls := by
  induction lexes generalizing offset with
  | nil =>
    rw [scanFrom_none rfl]
    exact ⟨rfl, rfl⟩
  | @blank afterOp c cs ls blank later ih =>
    have same : dropLayout false offset (c :: cs) = dropLayout false (offset + c.utf8Size) cs := by
      simp [dropLayout, blank]
    rw [scanFrom_congr same]
    exact ih _
  | @comment afterOp body rest ls within ends later ih =>
    obtain ⟨stop, same⟩ := dropLayout_comment within ends (offset + 1)
    have same : dropLayout false offset ('#' :: (body ++ rest)) = dropLayout false stop rest := by
      rw [← same]
      rfl
    rw [scanFrom_congr same]
    exact ih _
  | lexeme valid longest later ih =>
    have cuts := Lexeme.cuts_iff_longest.2 ⟨valid, longest⟩
    rw [scanFrom_cuts cuts]
    simpa [prepend] using ih _

theorem lexes_of_dropLayout (cs : List Char) (offset : Nat) :
    (Lexes afterOp (dropLayout false offset cs).2 ls → Lexes afterOp cs ls) ∧
    (Lexes afterOp (dropLayout true offset cs).2 ls → ∃ body rest, cs = body ++ rest ∧
      (∀ c ∈ body, c ≠ '\n' ∧ c ≠ '\r') ∧ (∀ c ∈ rest.head?, c = '\n' ∨ c = '\r') ∧
      Lexes afterOp rest ls) := by
  induction cs generalizing offset with
  | nil => exact ⟨id, fun lexes => ⟨[], [], rfl, by simp, by simp, lexes⟩⟩
  | cons c cs ih =>
    obtain ⟨outside, inside⟩ := ih (offset + c.utf8Size)
    constructor
    · intro lexes
      by_cases blank : isBlank c = true
      · exact .blank blank (outside (by simpa [dropLayout, blank] using lexes))
      by_cases hash : c = '#'
      · subst hash
        obtain ⟨body, rest, rfl, within, ends, later⟩ :=
          inside (by simpa [dropLayout, blank] using lexes)
        exact .comment within ends later
      · simpa [dropLayout, blank, hash] using lexes
    · intro lexes
      by_cases plain : c ≠ '\n' ∧ c ≠ '\r'
      · obtain ⟨body, rest, rfl, within, ends, later⟩ :=
          inside (by simpa [dropLayout, plain] using lexes)
        exact ⟨c :: body, rest, rfl, List.forall_mem_cons.2 ⟨plain, within⟩, ends, later⟩
      · have line : c = '\n' ∨ c = '\r' := by simpa [or_iff_not_imp_left] using plain
        have blank : isBlank c = true := Lexeme.isBlank_iff.2 (.inr (.inr line.symm))
        refine ⟨[], c :: cs, rfl, by simp, by simpa using line, .blank blank (outside ?_)⟩
        rcases line with rfl | rfl <;> simpa [dropLayout] using lexes

theorem scanFrom_lexes (offset : Nat) (whole : (scanFrom afterOp offset cs).rest = []) :
    Lexes afterOp cs ((scanFrom afterOp offset cs).tokens.map Token.lexeme) := by
  induction afterOp, offset, cs using scanFrom.induct with
  | case1 afterOp offset cs start stops =>
    rw [scanFrom_none stops] at whole ⊢
    refine (lexes_of_dropLayout cs offset).1 ?_
    rw [show (dropLayout false offset cs).2 = [] from whole]
    exact .nil
  | case2 afterOp offset cs start l rest found ih =>
    obtain ⟨valid, longest⟩ := Lexeme.cuts_iff_longest.1 (Lexeme.cut?_some_iff.1 found)
    rw [scanFrom_some found] at whole ⊢
    exact (lexes_of_dropLayout cs offset).1 (.lexeme valid longest (ih whole))

/-- A text is cut by longest match into the lexemes of its tokens, and only if all of it is cut. -/
theorem lexes_iff (offset : Nat) : Lexes afterOp cs ls ↔
    (scanFrom afterOp offset cs).rest = [] ∧
      (scanFrom afterOp offset cs).tokens.map Token.lexeme = ls :=
  ⟨fun lexes => lexes_scanFrom lexes offset,
    fun ⟨whole, same⟩ => same ▸ scanFrom_lexes offset whole⟩

end Scan

theorem Lexes.unique {afterOp : Bool} {cs : List Char} {ls ms : List Lexeme}
    (lexes : Lexes afterOp cs ls) (others : Lexes afterOp cs ms) : ls = ms := by
  rw [← (Scan.lexes_scanFrom lexes 0).2, ← (Scan.lexes_scanFrom others 0).2]

end Formula
