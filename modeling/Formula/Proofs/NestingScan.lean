import Formula.Nesting
import Formula.Proofs.Lexing
import Formula.Proofs.Numerals

/-! The scan for nesting beside the cutting into lexemes. Where a lexeme ends, the scan is at the same
place, or it has already passed the rest of a word that a numeral runs into, or it takes the rest of
the line for a comment that has ended for the lexemes. -/
namespace Formula.Nesting

section Equations

variable {limit : Nat} {opened : List Opener} {operators offset : Nat} {c : Char} {cs : List Char}

theorem excess?_operator (operator : isOperatorChar c = true) :
    excess? limit opened operators offset (c :: cs) =
      if limit < opened.length + operators + 1 then some ⟨offset, opened.length + operators + 1⟩
      else excess? limit opened (operators + 1)
        (offset + 1 + (cs.takeWhile isOperatorChar).length) (cs.dropWhile isOperatorChar) := by
  rw [excess?, if_pos operator]

theorem excess?_comment :
    excess? limit opened operators offset ('#' :: cs) =
      excess? limit opened operators (offset + 1 + byteLength (cs.takeWhile (· ≠ '\n')))
        (cs.dropWhile (· ≠ '\n')) := by
  rw [excess?, if_neg (by decide), if_pos rfl]

theorem excess?_openBracket (bracket : c = '(' ∨ c = '[') :
    excess? limit opened operators offset (c :: cs) =
      if limit < opened.length + 1 then some ⟨offset, opened.length + 1⟩
      else excess? limit (.bracket :: opened) 0 (offset + 1) cs := by
  have operator : isOperatorChar c ≠ true := by rcases bracket with rfl | rfl <;> decide
  have comment : c ≠ '#' := by rcases bracket with rfl | rfl <;> decide
  rw [excess?, if_neg operator, if_neg comment, if_pos bracket]
  rfl

theorem excess?_closeBracket (bracket : c = ')' ∨ c = ']') :
    excess? limit opened operators offset (c :: cs) =
      excess? limit ((endBindings opened).drop 1) 0 (offset + 1) cs := by
  have operator : isOperatorChar c ≠ true := by rcases bracket with rfl | rfl <;> decide
  have comment : c ≠ '#' := by rcases bracket with rfl | rfl <;> decide
  have other : ¬ (c = '(' ∨ c = '[') := by rcases bracket with rfl | rfl <;> decide
  rw [excess?, if_neg operator, if_neg comment, if_neg other, if_pos bracket]

theorem excess?_comma :
    excess? limit opened operators offset (',' :: cs) =
      excess? limit (endBindings opened) 0 (offset + 1) cs := by
  rw [excess?, if_neg (by decide), if_neg (by decide), if_neg (by decide), if_neg (by decide),
    if_pos rfl]

theorem excess?_word (starts : c.isAlphanum = true ∨ c = '$') :
    excess? limit opened operators offset (c :: cs) =
      if c :: cs.takeWhile Lexeme.continuesWord = ['l', 'e', 't'] then
        if limit < opened.length + 1 then some ⟨offset, opened.length + 1⟩
        else excess? limit (.binding :: opened) 0
          (offset + (c :: cs.takeWhile Lexeme.continuesWord).length)
          (cs.dropWhile Lexeme.continuesWord)
      else excess? limit opened 0 (offset + (c :: cs.takeWhile Lexeme.continuesWord).length)
        (cs.dropWhile Lexeme.continuesWord) := by
  have continues := Lexeme.continuesWord_of_isAlphanum_or starts
  have operator := Lexeme.not_isOperatorChar_of_continuesWord continues
  have mark := Lexeme.not_isMark_of_continuesWord continues
  have comment : c ≠ '#' := by rintro rfl; revert continues; decide
  simp only [Lexeme.isMark, Bool.or_eq_false_iff, decide_eq_false_iff_not] at mark
  rw [excess?, if_neg (by simp [operator]), if_neg comment, if_neg (by simp [mark]),
    if_neg (by simp [mark]), if_neg mark.2, if_pos (by simpa using starts)]
  rfl

theorem excess?_other (operator : isOperatorChar c = false) (comment : c ≠ '#')
    (mark : Lexeme.isMark c = false) (starts : c.isAlphanum = false) (dollar : c ≠ '$') :
    excess? limit opened operators offset (c :: cs) =
      excess? limit opened operators (offset + c.utf8Size) cs := by
  simp only [Lexeme.isMark, Bool.or_eq_false_iff, decide_eq_false_iff_not] at mark
  rw [excess?, if_neg (by simp [operator]), if_neg comment, if_neg (by simp [mark]),
    if_neg (by simp [mark]), if_neg mark.2, if_neg (by simp [starts, dollar])]

end Equations

/-- The scan passes a text to its end. -/
def Passes (limit : Nat) (opened : List Opener) (cs : List Char) : Prop :=
  ∃ operators offset, excess? limit opened operators offset cs = none

section Steps

variable {limit : Nat} {opened : List Opener} {c : Char} {cs : List Char}

theorem Passes.operator (passes : Passes limit opened (c :: cs))
    (operator : isOperatorChar c = true) :
    Passes limit opened (cs.dropWhile isOperatorChar) := by
  obtain ⟨operators, offset, none⟩ := passes
  rw [excess?_operator operator] at none
  split at none
  · contradiction
  · exact ⟨_, _, none⟩

theorem Passes.comment (passes : Passes limit opened ('#' :: cs)) :
    Passes limit opened (cs.dropWhile (· ≠ '\n')) := by
  obtain ⟨operators, offset, none⟩ := passes
  rw [excess?_comment] at none
  exact ⟨_, _, none⟩

theorem Passes.openBracket (passes : Passes limit opened (c :: cs)) (bracket : c = '(' ∨ c = '[') :
    opened.length < limit ∧ Passes limit (.bracket :: opened) cs := by
  obtain ⟨operators, offset, none⟩ := passes
  rw [excess?_openBracket bracket] at none
  split at none
  · contradiction
  · next room => exact ⟨Nat.not_lt.1 room, _, _, none⟩

theorem Passes.closeBracket (passes : Passes limit opened (c :: cs))
    (bracket : c = ')' ∨ c = ']') : Passes limit ((endBindings opened).drop 1) cs := by
  obtain ⟨operators, offset, none⟩ := passes
  rw [excess?_closeBracket bracket] at none
  exact ⟨_, _, none⟩

theorem Passes.comma (passes : Passes limit opened (',' :: cs)) :
    Passes limit (endBindings opened) cs := by
  obtain ⟨operators, offset, none⟩ := passes
  rw [excess?_comma] at none
  exact ⟨_, _, none⟩

theorem Passes.word (passes : Passes limit opened (c :: cs))
    (starts : c.isAlphanum = true ∨ c = '$') :
    if c :: cs.takeWhile Lexeme.continuesWord = ['l', 'e', 't'] then
      opened.length < limit ∧ Passes limit (.binding :: opened) (cs.dropWhile Lexeme.continuesWord)
    else Passes limit opened (cs.dropWhile Lexeme.continuesWord) := by
  obtain ⟨operators, offset, none⟩ := passes
  rw [excess?_word starts] at none
  split at none
  · next isLet =>
    rw [if_pos isLet]
    split at none
    · contradiction
    · next room => exact ⟨Nat.not_lt.1 room, _, _, none⟩
  · next other =>
    rw [if_neg other]
    exact ⟨_, _, none⟩

theorem Passes.other (passes : Passes limit opened (c :: cs)) (operator : isOperatorChar c = false)
    (comment : c ≠ '#') (mark : Lexeme.isMark c = false) (starts : c.isAlphanum = false)
    (dollar : c ≠ '$') : Passes limit opened cs := by
  obtain ⟨operators, offset, none⟩ := passes
  rw [excess?_other operator comment mark starts dollar] at none
  exact ⟨_, _, none⟩

theorem Passes.blank (passes : Passes limit opened (c :: cs)) (blank : isBlank c = true) :
    Passes limit opened cs := by
  rcases Lexeme.isBlank_iff.1 blank with rfl | rfl | rfl | rfl <;>
    exact passes.other (by decide) (by decide) (by decide) (by decide) (by decide)

end Steps

/-- Where the scan is when a text is cut up to some place: there too, behind the word that starts
there, or behind the line. -/
inductive Mode where
  | aligned | inWord | inComment
deriving DecidableEq

/-- What the scan has not yet seen of what has not yet been cut. -/
def Mode.skip : Mode → List Char → List Char
  | .aligned, cs => cs
  | .inWord, cs => cs.dropWhile Lexeme.continuesWord
  | .inComment, cs => cs.dropWhile (· ≠ '\n')

/-- The last line of a text, from its end. -/
def lastLine (before : List Char) : List Char := before.reverse.takeWhile (· ≠ '\n')

theorem mem_lastLine_append {before cs : List Char} (marked : '#' ∈ lastLine before)
    (oneLine : ∀ c ∈ cs, c ≠ '\n') : '#' ∈ lastLine (before ++ cs) := by
  have whole : (cs.reverse ++ before.reverse).takeWhile (· ≠ '\n') =
      cs.reverse ++ before.reverse.takeWhile (· ≠ '\n') :=
    List.takeWhile_append_of_pos fun c member => by simpa using oneLine c (List.mem_reverse.1 member)
  rw [lastLine, List.reverse_append, whole]
  exact List.mem_append_right _ marked

theorem hash_mem_lastLine (before : List Char) : '#' ∈ lastLine (before ++ ['#']) := by
  simp [lastLine]

/-- The scan passes the rest of a text from where it is when the text is cut up to `offset`. -/
structure Follows (limit : Nat) (text : List Char) (m : Mode) (opened : List Opener) (offset : Nat)
    (cs : List Char) : Prop where
  place : ∃ before, text = before ++ cs ∧ byteLength before = offset ∧
    (m = .inComment → '#' ∈ lastLine before)
  passes : Passes limit opened (m.skip cs)

theorem byteLength_append (cs ds : List Char) :
    byteLength (cs ++ ds) = byteLength cs + byteLength ds := by
  induction cs with
  | nil => simp [byteLength]
  | cons c cs ih =>
    simp only [List.cons_append, byteLength, ih]
    omega

theorem byteLength_ascii {cs : List Char} (ascii : ∀ c ∈ cs, c.utf8Size = 1) :
    byteLength cs = cs.length := by
  induction cs with
  | nil => rfl
  | cons c cs ih =>
    obtain ⟨head, tail⟩ := List.forall_mem_cons.1 ascii
    have rest := ih tail
    simp only [byteLength, List.length_cons] at rest ⊢
    omega

theorem ne_let_of_isDigit {c : Char} {w : List Char} (digit : c.isDigit = true) :
    c :: w ≠ ['l', 'e', 't'] := by
  intro isLet
  rw [(List.cons.inj isLet).1] at digit
  contradiction

theorem dropWhile_piece {d : Char} {w rest : List Char} (digit : d.isDigit = true)
    (word : ∀ c ∈ w, c.isAlphanum = true) :
    (d :: w ++ rest).dropWhile Lexeme.continuesWord = rest.dropWhile Lexeme.continuesWord := by
  refine List.dropWhile_append_of_pos (List.forall_mem_cons.2 ⟨?_, fun c member => ?_⟩)
  · exact Lexeme.continuesWord_of_isDigit digit
  · simp [Lexeme.continuesWord, word c member]

namespace Follows

variable {limit : Nat} {text : List Char} {m : Mode} {opened : List Opener} {offset : Nat}
  {c : Char} {cs : List Char}

theorem comment (follows : Follows limit text .inComment opened offset (c :: cs)) (line : c ≠ '\n') :
    Follows limit text .inComment opened (offset + c.utf8Size) cs := by
  obtain ⟨⟨before, rfl, rfl, marked⟩, passes⟩ := follows
  refine ⟨⟨before ++ [c], by simp, byteLength_append before [c], fun _ => ?_⟩, ?_⟩
  · exact mem_lastLine_append (marked rfl) (List.forall_mem_singleton.2 line)
  · simpa [Mode.skip, line] using passes

theorem aligned (follows : Follows limit text m opened offset (c :: cs))
    {opened' : List Opener} (passes : Passes limit opened' cs) :
    Follows limit text .aligned opened' (offset + c.utf8Size) cs := by
  obtain ⟨⟨before, rfl, rfl, _⟩, _⟩ := follows
  exact ⟨⟨before ++ [c], by simp, byteLength_append before [c], fun inside => by cases inside⟩,
    passes⟩

theorem lineFeed (follows : Follows limit text .inComment opened offset ('\n' :: cs)) :
    Follows limit text .aligned opened (offset + 1) cs :=
  follows.aligned (Passes.blank (by simpa [Mode.skip] using follows.passes) (by decide))

theorem of_inWord (follows : Follows limit text .inWord opened offset cs)
    (outside : ∀ c ∈ cs.head?, Lexeme.continuesWord c = false) :
    Follows limit text .aligned opened offset cs := by
  obtain ⟨⟨before, place, size, _⟩, passes⟩ := follows
  refine ⟨⟨before, place, size, fun inside => by cases inside⟩, ?_⟩
  cases cs with
  | nil => exact passes
  | cons c cs => simpa [Mode.skip, outside c rfl] using passes

/-- Layout leaves the scan where it is, aligned, or behind the line. -/
theorem layout (follows : Follows limit text m opened offset cs) {comment : Bool}
    (inside : comment = true → m = .inComment) :
    ∃ m', Follows limit text m' opened (dropLayout comment offset cs).1
      (dropLayout comment offset cs).2 ∧ (m' = .inWord → m = .inWord) := by
  induction cs generalizing m comment offset with
  | nil => exact ⟨m, follows, id⟩
  | cons c cs ih =>
    -- Once aligned or in a comment, the scan does not come to be in a word.
    have later {m' : Mode} (next : Follows limit text m' opened (offset + c.utf8Size) cs)
        {comment : Bool} (inside : comment = true → m' = .inComment) (noWord : m' ≠ .inWord) :
        ∃ m'', Follows limit text m'' opened (dropLayout comment (offset + c.utf8Size) cs).1
          (dropLayout comment (offset + c.utf8Size) cs).2 ∧ (m'' = .inWord → m = .inWord) := by
      obtain ⟨m'', found, word⟩ := ih next inside
      exact ⟨m'', found, fun reached => absurd (word reached) noWord⟩
    have alignedOf (outside : Lexeme.continuesWord c = false) (noComment : m ≠ .inComment) :
        Follows limit text .aligned opened offset (c :: cs) := by
      cases m with
      | aligned => exact follows
      | inWord => exact follows.of_inWord (by simpa using outside)
      | inComment => contradiction
    unfold dropLayout
    split
    · next isComment =>
      cases inside isComment
      by_cases line : c = '\n'
      · subst line
        exact later follows.lineFeed (by simp) (by simp)
      · exact later (follows.comment line) (fun _ => rfl) (by simp)
    split
    · next blank =>
      have outside : Lexeme.continuesWord c = false := by
        rcases Lexeme.isBlank_iff.1 blank with rfl | rfl | rfl | rfl <;> decide
      by_cases commented : m = .inComment
      · subst commented
        by_cases line : c = '\n'
        · subst line
          exact later follows.lineFeed (by simp) (by simp)
        · exact later (follows.comment line) (by simp) (by simp)
      · have here := alignedOf outside commented
        exact later (here.aligned (here.passes.blank blank)) (by simp) (by simp)
    split
    · next hash =>
      subst hash
      by_cases commented : m = .inComment
      · subst commented
        exact later (follows.comment (by decide)) (fun _ => rfl) (by simp)
      · have here := alignedOf (by decide) commented
        obtain ⟨before, place, size, _⟩ := here.place
        have next : Follows limit text .inComment opened (offset + Char.utf8Size '#') cs := by
          refine ⟨⟨before ++ ['#'], by simp [place], ?_, fun _ => ?_⟩, ?_⟩
          · rw [byteLength_append, size]
            rfl
          · exact hash_mem_lastLine before
          · exact here.passes.comment
        exact later next (fun _ => rfl) (by simp)
    · exact ⟨m, follows, id⟩

theorem passes_digit {tail : List Char} (digit : c.isDigit = true)
    (passes : Passes limit opened (c :: tail)) :
    Passes limit opened ((c :: tail).dropWhile Lexeme.continuesWord) := by
  have read := passes.word (.inl (Numeral.isAlphanum_of_isDigit digit))
  rw [if_neg (ne_let_of_isDigit digit)] at read
  rwa [List.dropWhile_cons_of_pos (Lexeme.continuesWord_of_isDigit digit)]

/-- Behind its first word the scan passes a numeral without opening anything, and the rest of a word
that it runs into with it. -/
theorem passes_pieces {t rest : List Char} (pieces : Numeral.Pieces t)
    (passes : Passes limit opened ((t ++ rest).dropWhile Lexeme.continuesWord)) :
    Passes limit opened (rest.dropWhile Lexeme.continuesWord) := by
  induction pieces with
  | last digit word => rwa [dropWhile_piece digit word] at passes
  | @join d w s t digit word separator following ih =>
    obtain ⟨f, fs, rfl, first⟩ := following.head
    rw [List.append_assoc, dropWhile_piece digit word, List.cons_append] at passes
    refine ih (passes_digit first ?_)
    rcases separator with rfl | sign
    · exact Passes.other (c := '.') (by simpa [Lexeme.continuesWord] using passes) (by decide)
        (by decide) (by decide) (by decide) (by decide)
    · have operator : isOperatorChar s = true := by rcases sign with rfl | rfl <;> decide
      have plain := Lexeme.not_isOperatorChar_of_continuesWord (Lexeme.continuesWord_of_isDigit first)
      rw [List.dropWhile_cons_of_neg (by
        simp [Lexeme.not_continuesWord_of_isOperatorChar operator])] at passes
      simpa [plain] using passes.operator operator

end Follows

/-- What the scan has open behind a lexeme. -/
def after (l : Lexeme) (opened : List Opener) : List Opener :=
  match l with
  | .mark c =>
    if c = '(' ∨ c = '[' then .bracket :: opened
    else if c = ')' ∨ c = ']' then (endBindings opened).drop 1
    else if c = ',' then endBindings opened
    else opened
  | .word cs => if cs = ['l', 'e', 't'] then .binding :: opened else opened
  | _ => opened

/-- Whether a lexeme opens a level. -/
def opens : Lexeme → Bool
  | .mark c => c = '(' || c = '['
  | .word cs => cs = ['l', 'e', 't']
  | _ => false

namespace Follows

variable {limit : Nat} {text : List Char} {m : Mode} {opened : List Opener} {offset : Nat}
  {cs rest : List Char} {afterOp : Bool} {l : Lexeme}

theorem past (follows : Follows limit text m opened offset cs) (cuts : Lexeme.Cuts afterOp cs l rest)
    {m' : Mode} {opened' : List Opener} (passes : Passes limit opened' (m'.skip rest))
    (inside : m' = .inComment → m = .inComment) :
    Follows limit text m' opened' (offset + l.text.length) rest := by
  obtain ⟨⟨before, rfl, rfl, marked⟩, _⟩ := follows
  have ascii := cuts.ascii
  refine ⟨⟨before ++ l.text, ?_, ?_, fun reached => ?_⟩, passes⟩
  · rw [cuts.append, List.append_assoc]
  · rw [byteLength_append, byteLength_ascii fun c member => (ascii c member).1]
  · exact mem_lastLine_append (marked (inside reached)) fun c member => (ascii c member).2

/-- An aligned scan does for a lexeme what the lexeme says, and is aligned behind it or, behind a
numeral, perhaps in a word. -/
theorem lexeme_aligned (follows : Follows limit text .aligned opened offset cs)
    (cuts : Lexeme.Cuts afterOp cs l rest) :
    (opens l = true → opened.length < limit) ∧ ∃ m',
      Follows limit text m' (after l opened) (offset + l.text.length) rest ∧ m' ≠ .inComment ∧
      (m' = .inWord → ∃ t, l = .numeral t) := by
  have passes : Passes limit opened cs := follows.passes
  have reached (m' : Mode) {opened' : List Opener} (passes : Passes limit opened' (m'.skip rest))
      (same : after l opened = opened') (outside : m' ≠ .inComment)
      (numeral : m' = .inWord → ∃ t, l = .numeral t) : ∃ m',
      Follows limit text m' (after l opened) (offset + l.text.length) rest ∧ m' ≠ .inComment ∧
      (m' = .inWord → ∃ t, l = .numeral t) := by
    rw [same]
    exact ⟨m', follows.past cuts passes (absurd · outside), outside, numeral⟩
  have behind {opened' : List Opener} (passes : Passes limit opened' rest)
      (same : after l opened = opened') := reached .aligned passes same (by simp) (by simp)
  cases cuts with
  | @mark c rest mark =>
    rw [Lexeme.isMark_iff] at mark
    simp only [List.mem_cons, List.not_mem_nil, or_false] at mark
    rcases mark with rfl | rfl | rfl | rfl | rfl
    · obtain ⟨room, opened⟩ := passes.openBracket (.inl rfl)
      exact ⟨fun _ => room, behind opened rfl⟩
    · exact ⟨by simp [opens], behind (passes.closeBracket (.inl rfl)) (by simp [after])⟩
    · obtain ⟨room, opened⟩ := passes.openBracket (.inr rfl)
      exact ⟨fun _ => room, behind opened rfl⟩
    · exact ⟨by simp [opens], behind (passes.closeBracket (.inr rfl)) (by simp [after])⟩
    · exact ⟨by simp [opens], behind passes.comma (by simp [after])⟩
  | @signName s rest named =>
    have read : Passes limit opened ('_' :: rest) := by
      have stop := List.dropWhile_cons_of_neg (p := isOperatorChar) (a := '_') (l := rest) (by decide)
      rw [← stop]
      cases s with
      | plus => exact Passes.operator (c := '+') passes (by decide)
      | minus => exact Passes.operator (c := '-') passes (by decide)
    exact ⟨by simp [opens], behind (read.other (by decide) (by decide) (by decide) (by decide)
      (by decide)) rfl⟩
  | operators operator unnamed =>
    refine ⟨by simp [opens], behind ?_ rfl⟩
    exact passes.operator operator
  | @numeral c tail digit =>
    have behindWord := passes_digit digit passes
    rw [← Numeral.cut_append (c :: tail)] at behindWord
    exact ⟨by simp [opens], reached .inWord (passes_pieces (Numeral.pieces_cut digit) behindWord) rfl
      (by simp) fun _ => ⟨_, rfl⟩⟩
  | @word c tail first =>
    have read := passes.word (Lexeme.isAlphanum_or_of_startsWord first)
    by_cases isLet : c :: tail.takeWhile Lexeme.continuesWord = ['l', 'e', 't']
    · rw [if_pos isLet] at read
      exact ⟨fun _ => read.1, behind read.2 (by simp [after, isLet])⟩
    · rw [if_neg isLet] at read
      exact ⟨by simp [opens, isLet], behind read (by simp [after, isLet])⟩

/-- A scan that has gone ahead in a word passes the numeral or the word that is the rest of it. -/
theorem lexeme_inWord (follows : Follows limit text .inWord opened offset cs)
    (cuts : Lexeme.Cuts afterOp cs l rest) :
    Follows limit text .aligned opened offset cs ∨
      ((∃ t, l = .numeral t ∨ l = .word t) ∧ ∃ m',
        Follows limit text m' opened (offset + l.text.length) rest ∧ m' ≠ .inComment ∧
        (m' = .inWord → ∃ t, l = .numeral t)) := by
  have passes : Passes limit opened (cs.dropWhile Lexeme.continuesWord) := follows.passes
  have whole := cuts
  cases cuts with
  | mark mark =>
    exact .inl (follows.of_inWord (by simpa using Lexeme.not_continuesWord_of_isMark mark))
  | @signName s rest named =>
    exact .inl (follows.of_inWord fun c head => by cases s <;> cases head <;> decide)
  | operators operator unnamed =>
    exact .inl (follows.of_inWord (by simpa using Lexeme.not_continuesWord_of_isOperatorChar operator))
  | @numeral c tail digit =>
    refine .inr ⟨⟨_, .inl rfl⟩, .inWord, ?_, by simp, fun _ => ⟨_, rfl⟩⟩
    rw [← Numeral.cut_append (c :: tail)] at passes
    exact follows.past whole
      (passes_pieces (Numeral.pieces_cut digit) passes) (by simp)
  | @word c tail first =>
    refine .inr ⟨⟨_, .inr rfl⟩, .aligned, ?_, by simp, by simp⟩
    have continues := Lexeme.continuesWord_of_startsWord first
    rw [List.dropWhile_cons_of_pos continues] at passes
    exact follows.past whole passes (by simp)

theorem lexeme_inComment (follows : Follows limit text .inComment opened offset cs)
    (cuts : Lexeme.Cuts afterOp cs l rest) :
    Follows limit text .inComment opened (offset + l.text.length) rest := by
  refine follows.past cuts ?_ id
  have passes : Passes limit opened (cs.dropWhile (· ≠ '\n')) := follows.passes
  rw [cuts.append, List.dropWhile_append_of_pos fun c member => by
    simpa using (cuts.ascii c member).2] at passes
  exact passes

end Follows

end Formula.Nesting
