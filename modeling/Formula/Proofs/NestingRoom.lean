import Formula.Proofs.NestingLevels
import Formula.Proofs.Viable

/-! Room for the levels of a text. Where operators follow each other, each of them is one level more
than those that enclose the place. Main statement: an expression is parsed within every limit that its
levels keep to. -/
namespace Formula

namespace Nesting

/-- An operator, the name of a sign, or the `=` of a `let`. -/
def isOperators : Lexeme → Bool
  | .operators _ | .signName _ => true
  | _ => false

/-- The number of operators with which some lexemes end. -/
def operatorRun (ls : List Lexeme) : Nat := (ls.rtakeWhile isOperators).length

/-- A numeral with a sign in its exponent. -/
def signed : Lexeme → Bool
  | .numeral cs => cs.contains '+' || cs.contains '-'
  | _ => false

/-- Nowhere in a row of lexemes are there more levels than the limit. -/
structure Fits (limit : Nat) (lexemes : List Lexeme) : Prop where
  levels : ∀ ls, ls <+: lexemes → enclosing ls + operatorRun ls ≤ limit
  /-- The scan takes the sign of an exponent for an operator. -/
  exponents : ∀ ls l, ls ++ [l] <+: lexemes → signed l = true → enclosing ls < limit

instance (limit : Nat) (lexemes : List Lexeme) : Decidable (Fits limit lexemes) :=
  decidable_of_iff (∀ ls ∈ lexemes.inits, enclosing ls + operatorRun ls ≤ limit ∧
      ∀ l ∈ ls.getLast?, signed l = true → enclosing ls.dropLast < limit) (by
    simp only [List.mem_inits]
    constructor
    · refine fun each => ⟨fun ls front => (each ls front).1, fun ls l front sign => ?_⟩
      simpa using (each _ front).2 l (by simp) sign
    · refine fun fits ls front => ⟨fits.levels ls front, fun l last sign => ?_⟩
      rw [← List.dropLast_append_getLast? l last] at front
      exact fits.exponents _ l front sign)

/-- A place behind a `#` of the same line. A lexeme stands there only if a carriage return has ended the
comment, and for the scan it is part of the comment. -/
def Commented (text : List Char) (offset : Nat) : Prop :=
  ∃ before later, text = before ++ later ∧ byteLength before = offset ∧ '#' ∈ lastLine before

instance (text : List Char) (offset : Nat) : Decidable (Commented text offset) :=
  decidable_of_iff (∃ before ∈ text.inits, byteLength before = offset ∧ '#' ∈ lastLine before) (by
    simp only [List.mem_inits]
    constructor
    · rintro ⟨before, ⟨later, whole⟩, size, marked⟩
      exact ⟨before, later, whole.symm, size, marked⟩
    · rintro ⟨before, later, whole, size, marked⟩
      exact ⟨before, ⟨later, whole.symm⟩, size, marked⟩)

section Run

variable {l : Lexeme} {ls : List Lexeme}

/-- How many operators have been read since the last other lexeme. -/
def runBehind (operators : Nat) : Lexeme → Nat
  | .operators _ | .signName _ => operators + 1
  | _ => 0

theorem operatorRun_concat : operatorRun (ls ++ [l]) = runBehind (operatorRun ls) l := by
  rw [operatorRun, List.rtakeWhile_concat]
  cases l <;> simp [isOperators, runBehind, operatorRun]

end Run

section Quiet

variable {limit operators offset : Nat} {opened : List Opener} {c : Char} {text before cs rest : List Char}
  {afterOp : Bool} {l : Lexeme}

theorem Quiet.nil : Quiet limit opened operators [] := fun _ => by rw [excess?]

theorem Quiet.digit (later : Quiet limit opened 0 ((c :: cs).dropWhile Lexeme.continuesWord))
    (digit : c.isDigit = true) : Quiet limit opened operators (c :: cs) := by
  intro offset
  rw [List.dropWhile_cons_of_pos (Lexeme.continuesWord_of_isDigit digit)] at later
  rw [excess?_word (.inl (Numeral.isAlphanum_of_isDigit digit)), if_neg (ne_let_of_isDigit digit)]
  exact later _

/-- Behind its first word a numeral opens nothing; a sign in it needs the room of an operator. -/
theorem Quiet.pieces {t : List Char} (pieces : Numeral.Pieces t)
    (room : '+' ∈ t ∨ '-' ∈ t → opened.length < limit)
    (later : Quiet limit opened 0 (rest.dropWhile Lexeme.continuesWord)) :
    Quiet limit opened 0 ((t ++ rest).dropWhile Lexeme.continuesWord) := by
  induction pieces with
  | last digit word => rwa [dropWhile_piece digit word]
  | @join d w s t digit word separator following ih =>
    obtain ⟨f, fs, rfl, first⟩ := following.head
    have behind := ih fun sign => room (sign.imp (by simp +contextual) (by simp +contextual))
    have numeral {k : Nat} : Quiet limit opened k (f :: fs ++ rest) := behind.digit first
    have outside : Lexeme.continuesWord s = false := by
      rcases separator with rfl | rfl | rfl <;> decide
    rw [List.append_assoc, dropWhile_piece digit word, List.cons_append,
      List.dropWhile_cons_of_neg (by simp [outside])]
    rcases separator with rfl | sign
    · exact numeral.other (by decide) (by decide) (by decide) (by decide) (by decide)
    · have operator : isOperatorChar s = true := by rcases sign with rfl | rfl <;> decide
      have plain := Lexeme.not_isOperatorChar_of_continuesWord (Lexeme.continuesWord_of_isDigit first)
      have some : opened.length < limit := room (by rcases sign with rfl | rfl <;> simp)
      exact numeral.operatorChar operator (by simpa using plain) some

/-- What the scan has still to see behind a lexeme: a word into which a numeral runs has been passed
with the numeral. -/
def unseen (l : Lexeme) (rest : List Char) : List Char :=
  match l with
  | .numeral _ => rest.dropWhile Lexeme.continuesWord
  | _ => rest

/-- There is room for a lexeme, and nothing to find behind it. -/
structure Passable (limit : Nat) (opened : List Opener) (operators : Nat) (l : Lexeme)
    (rest : List Char) : Prop where
  room : (after l opened).length + runBehind operators l ≤ limit
  exponent : signed l = true → opened.length < limit
  later : Quiet limit (after l opened) (runBehind operators l) (unseen l rest)

theorem Passable.numeral {t : List Char} (passable : Passable limit opened operators (.numeral t) rest)
    (pieces : Numeral.Pieces t) : Quiet limit opened 0 ((t ++ rest).dropWhile Lexeme.continuesWord) :=
  Quiet.pieces pieces
    (fun sign => passable.exponent (by simpa [signed, List.contains_eq_mem] using sign)) passable.later

theorem Passable.quiet (passable : Passable limit opened operators l rest)
    (cuts : Lexeme.Cuts afterOp cs l rest) : Quiet limit opened operators cs := by
  have ⟨room, _, later⟩ := passable
  cases cuts with
  | @mark c rest mark =>
    rw [Lexeme.isMark_iff] at mark
    simp only [List.mem_cons, List.not_mem_nil, or_false] at mark
    have closes (bracket : c = ')' ∨ c = ']')
        (later : Quiet limit ((endBindings opened).drop 1) 0 rest) :
        Quiet limit opened operators (c :: rest) := fun offset => by
      rw [excess?_closeBracket bracket]
      exact later _
    rcases mark with rfl | rfl | rfl | rfl | rfl
    · exact Quiet.openBracket later (.inl rfl) room
    · exact closes (.inl rfl) later
    · exact Quiet.openBracket later (.inr rfl) room
    · exact closes (.inr rfl) later
    · intro offset
      rw [excess?_comma]
      exact later _
  | @signName s rest named =>
    have behind : Quiet limit opened (operators + 1) ('_' :: rest) :=
      Quiet.other later (by decide) (by decide) (by decide) (by decide) (by decide)
    cases s <;> exact behind.operatorChar (by decide) (by simp; decide) room
  | operators operator unnamed =>
    have room : opened.length + operators + 1 ≤ limit := room
    intro offset
    rw [excess?_operator operator, if_neg (Nat.not_lt.2 room)]
    exact later _
  | @numeral c tail digit =>
    have behind := passable.numeral (Numeral.pieces_cut digit)
    rw [Numeral.cut_append] at behind
    exact behind.digit digit
  | @word c tail first =>
    intro offset
    rw [excess?_word (Lexeme.isAlphanum_or_of_startsWord first)]
    by_cases isLet : c :: tail.takeWhile Lexeme.continuesWord = ['l', 'e', 't']
    · rw [after, if_pos isLet] at room later
      have room : opened.length + 1 ≤ limit := room
      rw [if_pos isLet, if_neg (Nat.not_lt.2 room)]
      exact later _
    · rw [after, if_neg isLet] at later
      rw [if_neg isLet]
      exact later _

/-- Behind a numeral the scan has perhaps passed a lexeme that goes on with its word. -/
theorem Passable.quiet_inWord (passable : Passable limit opened 0 l rest)
    (cuts : Lexeme.Cuts afterOp cs l rest) (closed : ∀ t, l = .word t → opens l = false) :
    Quiet limit opened 0 (cs.dropWhile Lexeme.continuesWord) := by
  have aligned {c : Char} {cs : List Char} (quiet : Quiet limit opened 0 (c :: cs))
      (outside : Lexeme.continuesWord c = false) :
      Quiet limit opened 0 ((c :: cs).dropWhile Lexeme.continuesWord) := by
    rwa [List.dropWhile_cons_of_neg (by simp [outside])]
  have quiet := passable.quiet cuts
  cases cuts with
  | mark mark => exact aligned quiet (Lexeme.not_continuesWord_of_isMark mark)
  | @signName s rest named => cases s <;> exact aligned quiet (by decide)
  | operators operator unnamed =>
    exact aligned quiet (Lexeme.not_continuesWord_of_isOperatorChar operator)
  | @numeral c tail digit =>
    have behind := passable.numeral (Numeral.pieces_cut digit)
    rwa [Numeral.cut_append] at behind
  | @word c tail first =>
    have plain := closed _ rfl
    simp only [opens, decide_eq_false_iff_not] at plain
    have later := passable.later
    rw [after, if_neg plain] at later
    rwa [List.dropWhile_cons_of_pos (Lexeme.continuesWord_of_startsWord first)]

theorem dropLayout_cons (comment : Bool) (offset : Nat) (c : Char) (cs : List Char) :
    (comment = false ∧ dropLayout comment offset (c :: cs) = (offset, c :: cs)) ∨
      ∃ comment', dropLayout comment offset (c :: cs) = dropLayout comment' (offset + c.utf8Size) cs ∧
        (comment = true ∨ isBlank c = true ∨ c = '#') ∧
        (comment' = true → c ≠ '\n' ∧ (comment = true ∨ c = '#')) := by
  cases comment with
  | true => exact .inr ⟨c ≠ '\n' && c ≠ '\r', by simp [dropLayout], .inl rfl, by simp +contextual⟩
  | false =>
    by_cases blank : isBlank c = true
    · exact .inr ⟨false, by simp [dropLayout, blank], .inr (.inl blank), by simp⟩
    by_cases hash : c = '#'
    · subst hash
      exact .inr ⟨true, by simp [dropLayout, blank], .inr (.inr rfl), by decide⟩
    · exact .inl ⟨rfl, by simp [dropLayout, blank, hash]⟩

/-- There is nothing to find in layout if what follows stands behind no `#` of the same line. -/
theorem Quiet.layout {m : Mode} {comment : Bool} (place : text = before ++ cs) (outside : m ≠ .inWord)
    (inside : comment = true → m = .inComment) (marked : m = .inComment → '#' ∈ lastLine before)
    (clear : (dropLayout comment offset cs).2 ≠ [] →
      ∀ front, text = front ++ (dropLayout comment offset cs).2 → '#' ∉ lastLine front)
    (later : Quiet limit opened operators (dropLayout comment offset cs).2) :
    Quiet limit opened operators (m.skip cs) := by
  induction cs generalizing m comment offset before with
  | nil => cases m <;> exact Quiet.nil
  | cons c cs ih =>
    have place' : text = (before ++ [c]) ++ cs := by simp [place]
    rcases dropLayout_cons comment offset c cs with ⟨rfl, visible⟩ | ⟨comment', drop, kind, goes⟩
    · rw [visible] at clear later
      have seen : m ≠ .inComment := fun commented =>
        clear (List.cons_ne_nil _ _) before place (marked commented)
      cases m <;> first | contradiction | exact later
    rw [drop] at clear later
    cases m with
    | inWord => contradiction
    | inComment =>
      by_cases line : c = '\n'
      · subst line
        have behind := ih (m := .aligned) place' (by decide) (fun more => absurd rfl (goes more).1)
          (by simp) clear later
        simpa [Mode.skip] using
          behind.other (c := '\n') (by decide) (by decide) (by decide) (by decide) (by decide)
      · have goesOn := mem_lastLine_append (marked rfl) (List.forall_mem_singleton.2 line)
        simpa [Mode.skip, line] using
          ih (m := .inComment) place' (by decide) (fun _ => rfl) (fun _ => goesOn) clear later
    | aligned =>
      have noComment : comment ≠ true := fun commented => absurd (inside commented) (by decide)
      rcases kind.resolve_left noComment with blank | rfl
      · have none : comment' = true → Mode.aligned = .inComment := fun more => by
          rcases (goes more).2 with commented | rfl
          · exact absurd commented noComment
          · contradiction
        have behind := ih (m := .aligned) place' (by decide) none (by simp) clear later
        rcases Lexeme.isBlank_iff.1 blank with rfl | rfl | rfl | rfl <;>
          exact behind.other (by decide) (by decide) (by decide) (by decide) (by decide)
      · have begins : '#' ∈ lastLine (before ++ ['#']) := hash_mem_lastLine before
        have behind := ih (m := .inComment) place' (by decide) (fun _ => rfl) (fun _ => begins) clear
          later
        intro offset
        rw [Mode.skip, excess?_comment]
        exact behind _

theorem Quiet.gap (place : text = before ++ cs) (size : byteLength before = offset)
    (seen : (dropLayout false offset cs).2 ≠ [] → ¬ Commented text (dropLayout false offset cs).1)
    (later : Quiet limit opened operators (dropLayout false offset cs).2) :
    Quiet limit opened operators cs := by
  have noComment : false = true → Mode.aligned = .inComment := by simp
  refine Quiet.layout (m := .aligned) place (by decide) noComment (by simp)
    (fun some front parts marked => ?_) later
  obtain ⟨gap, layout⟩ := layout_dropLayout false offset cs
  obtain rfl : before ++ gap = front := by
    rw [place] at parts
    have same : before ++ gap ++ (dropLayout false offset cs).2 =
        front ++ (dropLayout false offset cs).2 := by
      rw [← parts, List.append_assoc, ← layout.whole]
    exact List.append_cancel_right same
  refine seen some ⟨before ++ gap, _, parts, ?_, marked⟩
  rw [byteLength_append, size, layout.place]

theorem dropWhile_or_dropLayout (offset : Nat) (cs : List Char) :
    cs.dropWhile Lexeme.continuesWord = cs ∨ dropLayout false offset cs = (offset, cs) := by
  cases cs with
  | nil => exact .inl rfl
  | cons c cs =>
    by_cases outside : Lexeme.continuesWord c = false
    · exact .inl (by simp [outside])
    · refine .inr ?_
      have blank : isBlank c = false := Bool.eq_false_iff.2 fun blank => by
        rcases Lexeme.isBlank_iff.1 blank with rfl | rfl | rfl | rfl <;> exact outside (by decide)
      have hash : c ≠ '#' := by rintro rfl; exact outside (by decide)
      simp [dropLayout, blank, hash]

/-- In a text that is read and whose levels keep to the limit there is nothing to find, behind an
operand also if the scan has passed the rest of the word into which the operand runs. -/
theorem quiet_scanFrom {s s' : State} {ls all : List Lexeme} (fits : Fits limit all)
    (place : text = before ++ cs) (size : byteLength before = offset)
    (split : ls ++ (Scan.scanFrom afterOp offset cs).tokens.map Token.lexeme = all)
    (whole : (Scan.scanFrom afterOp offset cs).rest = [])
    (seen : ∀ t ∈ (Scan.scanFrom afterOp offset cs).tokens, ¬ Commented text t.offset)
    (run : s.run (Scan.scanFrom afterOp offset cs).tokens = .ok s') :
    Quiet limit (openedBy ls) (operatorRun ls) cs ∧
      (HasOperand s → operatorRun ls = 0 →
        Quiet limit (openedBy ls) 0 (cs.dropWhile Lexeme.continuesWord)) := by
  induction afterOp, offset, cs using Scan.scanFrom.induct generalizing s ls before with
  | @case1 afterOp offset cs start stops =>
    rw [Scan.scanFrom_none stops] at whole
    dsimp only at whole
    have aligned : Quiet limit (openedBy ls) (operatorRun ls) cs :=
      Quiet.gap place size (absurd whole) (by rw [whole]; exact Quiet.nil)
    refine ⟨aligned, fun _ none => ?_⟩
    rcases dropWhile_or_dropLayout offset cs with same | drop
    · rw [same]
      exact none ▸ aligned
    · rw [drop] at whole
      cases whole
      exact Quiet.nil
  | @case2 afterOp offset cs start l rest found ih =>
    obtain ⟨gap, layout⟩ := layout_dropLayout false offset cs
    have cuts : Lexeme.Cuts afterOp (dropLayout false offset cs).2 l rest :=
      Lexeme.cut?_some_iff.1 found
    rw [Scan.scanFrom_some found] at split whole seen run
    obtain ⟨here, others⟩ := List.forall_mem_cons.1 seen
    obtain ⟨middle, step, run⟩ := State.run_cons_ok.1 run
    rw [List.map_cons, List.append_cons] at split
    have front : ls ++ [l] <+: all := ⟨_, split⟩
    have behind : text = (before ++ (gap ++ l.text)) ++ rest := by
      rw [place, layout.whole, List.append_assoc, List.append_assoc, ← cuts.append]
    have size' : byteLength (before ++ (gap ++ l.text)) = start.1 + l.text.length := by
      rw [byteLength_append, byteLength_append, size,
        byteLength_ascii fun c member => (cuts.ascii c member).1, layout.place]
      omega
    obtain ⟨aligned, inWord⟩ := ih behind size' split whole others run
    rw [openedBy_concat, operatorRun_concat] at aligned inWord
    have passable : Passable limit (openedBy ls) (operatorRun ls) l rest := by
      refine ⟨?_, fun sign => ?_, ?_⟩
      · rw [← openedBy_concat, ← operatorRun_concat, length_openedBy]
        exact fits.levels _ front
      · rw [length_openedBy]
        exact fits.exponents ls l front sign
      · cases l with
        | numeral => exact inWord (hasOperand_numeral step) rfl
        | _ => exact aligned
    have quiet : Quiet limit (openedBy ls) (operatorRun ls) cs :=
      Quiet.gap place size (fun _ => here) (passable.quiet cuts)
    refine ⟨quiet, fun operand none => ?_⟩
    rcases dropWhile_or_dropLayout offset cs with same | drop
    · rw [same]
      exact none ▸ quiet
    · rw [none] at passable
      rw [drop] at cuts
      exact passable.quiet_inWord cuts fun t word => operand.not_opens (.inr word) step

end Quiet

end Nesting

open Nesting

/-- An expression whose levels keep to the limit is parsed within it. The levels that enclose a place
are those that reading has open there, if no `let` stands in what another binds. -/
theorem parseWithin_of_fits {limit other : Nat} {source text : String} {tree : Expr Position}
    (parsed : parseWithin other source text = .ok tree)
    (fits : Fits limit ((Scan.ofText text.toList).tokens.map Token.lexeme))
    (seen : ∀ t ∈ (Scan.ofText text.toList).tokens, ¬ Commented text.toList t.offset) :
    parseWithin limit source text = .ok tree ∧
      ∀ ts, ts <+: (Scan.ofText text.toList).tokens → State.initial.letsApart ts = true →
        ∃ s, State.initial.run ts = .ok s ∧
          enclosing (ts.map Token.lexeme) = s.openers.length := by
  obtain ⟨_, draft, read, rfl⟩ := parseWithin_ok.1 parsed
  obtain ⟨whole, s, run, _⟩ := readText_ok.1 read
  have place : text.toList = [] ++ text.toList := rfl
  have quiet : Quiet limit (openedBy []) 0 text.toList :=
    (quiet_scanFrom fits place rfl rfl whole seen run).1
  refine ⟨parseWithin_ok.2 ⟨quiet 0, draft, read, rfl⟩, fun ts front free => ?_⟩
  obtain ⟨us, split⟩ := front
  rw [← split, State.run_append_ok] at run
  obtain ⟨middle, run, _⟩ := run
  exact ⟨middle, run, enclosing_eq_openers free run⟩

theorem exists_parsed {limit : Nat} {text : String}
    (parsed : (parseWithin limit "s" text).toOption.isSome = true) :
    ∃ tree, parseWithin limit "s" text = .ok tree := by
  cases found : parseWithin limit "s" text with
  | ok tree => exact ⟨tree, rfl⟩
  | error =>
    rw [found] at parsed
    contradiction

/-- An `op`, an exponent and a `let` in what another binds, with a bracket in the comment. -/
def crowded : String := "[- op + a, # [\nlet a = let b = 1e-5 in b in a]"

theorem parseWithin_of_fits_crowded : ∃ tree, parseWithin 500 "s" crowded = .ok tree ∧
    parseWithin 4 "s" crowded = .ok tree ∧
    ∃ s, State.initial.run ((Scan.ofText crowded.toList).tokens.take 9) = .ok s ∧
      enclosing (((Scan.ofText crowded.toList).tokens.take 9).map Token.lexeme) = s.openers.length := by
  have shown : (parseWithin 500 "s" crowded).toOption.isSome = true := by decide +kernel
  obtain ⟨tree, parsed⟩ := exists_parsed shown
  have fits : Fits 4 ((Scan.ofText crowded.toList).tokens.map Token.lexeme) := by decide +kernel
  obtain ⟨within, levels⟩ := parseWithin_of_fits parsed fits (by decide +kernel)
  exact ⟨tree, parsed, within, levels _ (List.take_prefix 9 _) (by decide +kernel)⟩

/-- The number of operators with which some lexemes end, if the `=` of a `let` is none. -/
def plainRun (ls : List Lexeme) : Nat :=
  (ls.rtakeWhile fun l => isOperators l && l ≠ .operators ['=']).length

/-- An expression that is refused as nesting too deep, although nowhere in it reading has more brackets
and `let`s open, with the operators that follow each other there, than the limit says. -/
structure Overcounted (limit : Nat) (text : String) : Prop where
  parsed : ∃ other tree, parseWithin other "s" text = .ok tree
  shallow : ∀ ts s, ts <+: (Scan.ofText text.toList).tokens → State.initial.run ts = .ok s →
    s.openers.length + plainRun (ts.map Token.lexeme) ≤ limit
  refused : ∃ place depth, parseWithin limit "s" text = .error ⟨place, .tooDeep depth limit⟩

theorem Overcounted.of_scan {limit : Nat} {text : String}
    (parsed : (parseWithin 500 "s" text).toOption.isSome = true)
    (shallow : ∀ ts ∈ (Scan.ofText text.toList).tokens.inits,
      ∀ s ∈ (State.initial.run ts).toOption,
        s.openers.length + plainRun (ts.map Token.lexeme) ≤ limit)
    (refused : (nestingExcess? limit text.toList).isSome = true) : Overcounted limit text where
  parsed := ⟨500, exists_parsed parsed⟩
  shallow ts s front run := shallow ts ((List.mem_inits _ _).2 front) s (by rw [run]; rfl)
  refused := by
    obtain ⟨excess, found⟩ := Option.isSome_iff_exists.1 refused
    exact ⟨_, _, by rw [parseWithin, found]⟩

/-- The scan counts the `=` of a `let`, goes on counting a `let` that has ended in what another binds,
takes the sign of an exponent for an operator, and takes for part of a comment the bracket that closes
behind a carriage return. -/
theorem overcounted_let_exponent_return : Overcounted 1 "let x = 1 in x" ∧
    Overcounted 3 "let a = let b = 1 in b in let c = 1 in c" ∧
    Overcounted 0 "1e-5" ∧ Overcounted 1 "(1#\r)\n(1)" := by
  refine ⟨?_, ?_, ?_, ?_⟩ <;> exact .of_scan (by decide +kernel) (by decide +kernel) (by decide +kernel)

end Formula
