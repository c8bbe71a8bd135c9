import Formula.Lexeme.Scan
import Formula.Proofs.Numerals

/-! How a text is cut into lexemes. Every lexeme is of the form its kind says, and its characters are
single bytes. -/
namespace Formula

namespace Lexeme

/-- The kinds of cuts: a lexeme at the start of a text, and what follows it. -/
inductive Cuts (afterOp : Bool) : List Char → Lexeme → List Char → Prop where
  | mark {c rest} (mark : isMark c = true) : Cuts afterOp (c :: rest) (.mark c) rest
  | signName {s : Sign} {rest} (named : afterOp = true) :
    Cuts afterOp (s.name.toList ++ rest) (.signName s.name.toList) rest
  | operators {c cs} (operator : isOperatorChar c = true)
    (unnamed : ¬ (afterOp = true ∧ (c = '+' ∨ c = '-') ∧ cs.head? = some '_')) :
    Cuts afterOp (c :: cs) (.operators (c :: cs.takeWhile isOperatorChar))
      (cs.dropWhile isOperatorChar)
  | numeral {c cs} (digit : c.isDigit = true) :
    Cuts afterOp (c :: cs) (.numeral (Numeral.cut (c :: cs)).1) (Numeral.cut (c :: cs)).2
  | word {c cs} (first : startsWord c = true) :
    Cuts afterOp (c :: cs) (.word (c :: cs.takeWhile continuesWord)) (cs.dropWhile continuesWord)

theorem isBlank_iff {c : Char} :
    isBlank c = true ↔ c = ' ' ∨ c = '\t' ∨ c = '\r' ∨ c = '\n' := by
  simp [isBlank, or_assoc]

theorem isOperatorChar_iff {c : Char} : isOperatorChar c = true ↔ c ∈ operatorChars := by
  simp [isOperatorChar]

theorem not_isMark_of_isOperatorChar {c : Char} (operator : isOperatorChar c = true) :
    isMark c = false := by
  rw [isOperatorChar_iff] at operator
  exact Numeral.forall_mem_of_all (P := fun c => isMark c = false) rfl c operator

theorem isMark_iff {c : Char} : isMark c = true ↔ c ∈ ['(', ')', '[', ']', ','] := by
  simp [isMark, or_assoc]

theorem isAlphanum_or_of_startsWord {c : Char} (first : startsWord c = true) :
    c.isAlphanum = true ∨ c = '$' := by
  simp only [startsWord, Bool.or_eq_true, decide_eq_true_eq] at first
  exact first.imp_left fun alpha => by simp [Char.isAlphanum, alpha]

theorem continuesWord_of_isAlphanum_or {c : Char} (starts : c.isAlphanum = true ∨ c = '$') :
    continuesWord c = true := by
  rcases starts with alphanum | rfl
  · simp [continuesWord, alphanum]
  · decide

theorem continuesWord_of_startsWord {c : Char} (first : startsWord c = true) :
    continuesWord c = true :=
  continuesWord_of_isAlphanum_or (isAlphanum_or_of_startsWord first)

theorem continuesWord_of_isDigit {c : Char} (digit : c.isDigit = true) : continuesWord c = true := by
  simp [continuesWord, Char.isAlphanum, digit]

theorem not_isDigit_of_startsWord {c : Char} (first : startsWord c = true) :
    c.isDigit = false := by
  simp only [startsWord, Bool.or_eq_true, decide_eq_true_eq] at first
  rcases first with alpha | rfl
  · simp [Char.isAlpha, Char.isUpper, Char.isLower, Char.isDigit, UInt32.le_iff_toNat_le] at alpha ⊢
    omega
  · decide

theorem not_continuesWord_of_isMark {c : Char} (mark : isMark c = true) :
    continuesWord c = false := by
  rw [isMark_iff] at mark
  exact Numeral.forall_mem_of_all (P := fun c => continuesWord c = false) rfl c mark

theorem not_continuesWord_of_isOperatorChar {c : Char} (operator : isOperatorChar c = true) :
    continuesWord c = false := by
  rw [isOperatorChar_iff] at operator
  exact Numeral.forall_mem_of_all (P := fun c => continuesWord c = false) rfl c operator

theorem not_isMark_of_continuesWord {c : Char} (continues : continuesWord c = true) :
    isMark c = false :=
  Bool.eq_false_iff.2 fun mark => by simp [not_continuesWord_of_isMark mark] at continues

theorem not_isOperatorChar_of_continuesWord {c : Char} (continues : continuesWord c = true) :
    isOperatorChar c = false :=
  Bool.eq_false_iff.2 fun operator => by
    simp [not_continuesWord_of_isOperatorChar operator] at continues

theorem cut?_some_iff {afterOp : Bool} {cs rest : List Char} {l : Lexeme} :
    cut? afterOp cs = some (l, rest) ↔ Cuts afterOp cs l rest := by
  constructor
  · intro found
    cases cs with
    | nil => simp [cut?] at found
    | cons c cs =>
      simp only [cut?] at found
      split at found
      · next mark => cases found; exact .mark mark
      split at found
      · next operator =>
        split at found
        · next named =>
          cases found
          simp only [Bool.and_eq_true, Bool.or_eq_true, decide_eq_true_eq] at named
          obtain ⟨⟨after, sign⟩, underscore⟩ := named
          obtain ⟨d, tail, rfl⟩ : ∃ d tail, cs = d :: tail := List.exists_cons_of_ne_nil (by
            rintro rfl
            contradiction)
          cases underscore
          rcases sign with rfl | rfl
          · exact .signName (s := .plus) after
          · exact .signName (s := .minus) after
        · next unnamed =>
          cases found
          exact .operators operator (by simpa [and_assoc] using unnamed)
      split at found
      · next digit => cases found; exact .numeral digit
      split at found
      · next first => cases found; exact .word first
      · contradiction
  · intro cuts
    cases cuts with
    | mark mark => simp [cut?, mark]
    | @signName s rest named =>
      subst named
      cases s <;> rfl
    | operators operator unnamed =>
      have mark := not_isMark_of_isOperatorChar operator
      simp only [cut?, mark, operator]
      simpa [and_assoc] using unnamed
    | numeral digit =>
      simp [cut?, not_isMark_of_continuesWord (continuesWord_of_isDigit digit),
        not_isOperatorChar_of_continuesWord (continuesWord_of_isDigit digit), digit]
    | word first =>
      simp [cut?, not_isMark_of_continuesWord (continuesWord_of_startsWord first),
        not_isOperatorChar_of_continuesWord (continuesWord_of_startsWord first),
        not_isDigit_of_startsWord first, first]

/-- A lexeme of the form its kind says. -/
inductive Cut : Lexeme → Prop where
  | numeral (cs) : Cut (.numeral cs)
  | word {c cs} (first : startsWord c = true) (others : ∀ d ∈ cs, continuesWord d = true) :
    Cut (.word (c :: cs))
  | operators {c cs} (each : ∀ d ∈ c :: cs, isOperatorChar d = true) : Cut (.operators (c :: cs))
  | signName (s : Sign) : Cut (.signName s.name.toList)
  | mark (c) : Cut (.mark c)

theorem Cuts.cut {afterOp : Bool} {cs rest : List Char} {l : Lexeme} (cuts : Cuts afterOp cs l rest) :
    l.Cut := by
  cases cuts with
  | mark mark => exact .mark _
  | signName named => exact .signName _
  | operators operator unnamed =>
    exact .operators (List.forall_mem_cons.2 ⟨operator, fun d member => List.mem_takeWhile_imp member⟩)
  | numeral digit => exact .numeral _
  | word first => exact .word first fun d member => List.mem_takeWhile_imp member

/-- The characters of which lexemes are made. -/
def isLexical (c : Char) : Bool := isMark c || isOperatorChar c || continuesWord c || c = '.'

theorem lexical_of_continuesWord {c : Char} (continues : continuesWord c = true) :
    isLexical c = true := by
  simp [isLexical, continues]

theorem lexical_of_pieces {t : List Char} (pieces : Numeral.Pieces t) :
    ∀ c ∈ t, isLexical c = true := by
  have alphanum {c : Char} (alphanum : c.isAlphanum = true) : isLexical c = true :=
    lexical_of_continuesWord (continuesWord_of_isAlphanum_or (.inl alphanum))
  induction pieces with
  | last digit word =>
    exact List.forall_mem_cons.2 ⟨alphanum (Numeral.isAlphanum_of_isDigit digit),
      fun c member => alphanum (word c member)⟩
  | join digit word separator rest ih =>
    refine List.forall_mem_append.2 ⟨?_, List.forall_mem_cons.2 ⟨?_, ih⟩⟩
    · exact List.forall_mem_cons.2 ⟨alphanum (Numeral.isAlphanum_of_isDigit digit),
        fun c member => alphanum (word c member)⟩
    · rcases separator with rfl | rfl | rfl <;> decide

theorem Cuts.lexical {afterOp : Bool} {cs rest : List Char} {l : Lexeme}
    (cuts : Cuts afterOp cs l rest) : ∀ c ∈ l.text, isLexical c = true := by
  have operators {c : Char} (operator : isOperatorChar c = true) : isLexical c = true := by
    simp [isLexical, operator]
  cases cuts with
  | mark mark => simpa [text, isLexical] using Or.inl (Or.inl (Or.inl mark))
  | @signName s rest named => cases s <;> exact Numeral.forall_mem_of_all rfl
  | operators operator unnamed =>
    exact List.forall_mem_cons.2 ⟨operators operator,
      fun d member => operators (List.mem_takeWhile_imp member)⟩
  | numeral digit => exact lexical_of_pieces (Numeral.pieces_cut digit)
  | word first =>
    exact List.forall_mem_cons.2 ⟨lexical_of_continuesWord (continuesWord_of_startsWord first),
      fun d member => lexical_of_continuesWord (List.mem_takeWhile_imp member)⟩

theorem ascii_of_isAlphanum {c : Char} (alphanum : c.isAlphanum = true) : c.utf8Size = 1 := by
  simp [Char.isAlphanum, Char.isAlpha, Char.isUpper, Char.isLower, Char.isDigit,
    UInt32.le_iff_toNat_le] at alphanum
  simp [Char.utf8Size, UInt32.le_iff_toNat_le]
  omega

theorem ascii_of_lexical {c : Char} (lexical : isLexical c = true) : c.utf8Size = 1 ∧ c ≠ '\n' := by
  refine ⟨?_, by rintro rfl; revert lexical; decide⟩
  simp only [isLexical, continuesWord, Bool.or_eq_true, decide_eq_true_eq] at lexical
  rcases lexical with ((mark | operator) | ((alphanum | rfl) | rfl) | rfl) | rfl
  · rw [isMark_iff] at mark
    exact Numeral.forall_mem_of_all (P := fun c => c.utf8Size = 1) rfl c mark
  · rw [isOperatorChar_iff] at operator
    exact Numeral.forall_mem_of_all (P := fun c => c.utf8Size = 1) rfl c operator
  · exact ascii_of_isAlphanum alphanum
  all_goals decide

theorem Cuts.ascii {afterOp : Bool} {cs rest : List Char} {l : Lexeme} (cuts : Cuts afterOp cs l rest) :
    ∀ c ∈ l.text, c.utf8Size = 1 ∧ c ≠ '\n' :=
  fun c member => ascii_of_lexical (cuts.lexical c member)

theorem Cuts.append {afterOp : Bool} {cs rest : List Char} {l : Lexeme}
    (cuts : Cuts afterOp cs l rest) : cs = l.text ++ rest :=
  (cut?_append (cut?_some_iff.2 cuts)).symm

end Lexeme

namespace Scan

theorem scanFrom_none {afterOp : Bool} {offset : Nat} {cs : List Char}
    (stops : Lexeme.cut? afterOp (dropLayout false offset cs).2 = none) :
    scanFrom afterOp offset cs =
      ⟨[], (dropLayout false offset cs).1, (dropLayout false offset cs).2⟩ := by
  rw [scanFrom]
  split <;> simp_all

theorem scanFrom_some {afterOp : Bool} {offset : Nat} {cs rest : List Char} {l : Lexeme}
    (found : Lexeme.cut? afterOp (dropLayout false offset cs).2 = some (l, rest)) :
    scanFrom afterOp offset cs =
      let start := (dropLayout false offset cs).1
      let later := scanFrom (l = Lexeme.op) (start + l.text.length) rest
      ⟨⟨start, l⟩ :: later.tokens, later.stop, later.rest⟩ := by
  rw [scanFrom]
  split <;> simp_all

theorem cut_of_mem {afterOp : Bool} {offset : Nat} {cs : List Char} {t : Token}
    (member : t ∈ (scanFrom afterOp offset cs).tokens) : t.lexeme.Cut := by
  induction afterOp, offset, cs using scanFrom.induct with
  | case1 afterOp offset cs start stops =>
    rw [scanFrom_none stops] at member
    contradiction
  | case2 afterOp offset cs start l rest found ih =>
    rw [scanFrom_some found] at member
    rcases List.mem_cons.1 member with rfl | member
    · exact (Lexeme.cut?_some_iff.1 found).cut
    · exact ih member

end Scan

end Formula
