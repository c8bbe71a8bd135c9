import Formula.Proofs.Written

/-! Cutting a written form into lexemes. What a text spells is a row of lexemes and what follows them,
wherever the text stands. Main statement: the written form of a printable tree spells the lexemes of
the tree, if a character follows that ends them. -/
namespace Formula

namespace Scan

/-- Tokens in front of those of a scan. -/
def prepend (ts : List Token) (s : Scan) : Scan := { s with tokens := ts ++ s.tokens }

/-- Wherever `cs` stands, it is cut into lexemes `ls` down to `rest`. -/
def Spells (cs : List Char) (ls : List Lexeme) (rest : List Char) : Prop :=
  ∀ offset, ∃ ts stop, ts.map Token.lexeme = ls ∧
    scanFrom false offset cs = (scanFrom false stop rest).prepend ts

variable {cs ds rest : List Char} {ls ms : List Lexeme} {c : Char}

theorem Spells.refl (cs : List Char) : Spells cs [] cs := fun offset => ⟨[], offset, rfl, rfl⟩

theorem Spells.trans (first : Spells cs ls ds) (second : Spells ds ms rest) :
    Spells cs (ls ++ ms) rest := by
  intro offset
  obtain ⟨ts, middle, lexemes, scan⟩ := first offset
  obtain ⟨us, stop, later, scan'⟩ := second middle
  refine ⟨ts ++ us, stop, by rw [List.map_append, lexemes, later], ?_⟩
  rw [scan, scan']
  simp [prepend]

theorem scanFrom_congr {afterOp : Bool} {start offset : Nat}
    (same : dropLayout false start cs = dropLayout false offset ds) :
    scanFrom afterOp start cs = scanFrom afterOp offset ds := by
  cases found : Lexeme.cut? afterOp (dropLayout false offset ds).2 with
  | none => rw [scanFrom_none found, scanFrom_none (by rw [same, found]), same]
  | some cut => rw [scanFrom_some found, scanFrom_some (by rw [same, found]), same]

theorem scanFrom_space (afterOp : Bool) (offset : Nat) (cs : List Char) :
    scanFrom afterOp offset (' ' :: cs) = scanFrom afterOp (offset + 1) cs :=
  scanFrom_congr rfl

theorem Spells.space (spells : Spells cs ls rest) : Spells (' ' :: cs) ls rest := by
  intro offset
  rw [scanFrom_space]
  exact spells (offset + 1)

theorem dropLayout_of_cuts {afterOp : Bool} {l : Lexeme} (cuts : Lexeme.Cuts afterOp cs l rest)
    (offset : Nat) : dropLayout false offset cs = (offset, cs) := by
  have found := Lexeme.cut?_some_iff.2 cuts
  cases cs with
  | nil => rfl
  | cons c cs =>
    have notBlank : isBlank c = false := by
      refine Bool.eq_false_iff.2 fun blank => ?_
      rcases Lexeme.isBlank_iff.1 blank with rfl | rfl | rfl | rfl <;>
        simp [Lexeme.cut?] at found <;> contradiction
    have notHash : c ≠ '#' := by
      rintro rfl
      simp [Lexeme.cut?] at found
      contradiction
    simp [dropLayout, notBlank, notHash]

theorem scanFrom_cuts {afterOp : Bool} {l : Lexeme} (cuts : Lexeme.Cuts afterOp cs l rest)
    (offset : Nat) : scanFrom afterOp offset cs =
      (scanFrom (l = Lexeme.op) (offset + l.text.length) rest).prepend [⟨offset, l⟩] := by
  have layout := dropLayout_of_cuts cuts offset
  rw [scanFrom_some (by rw [layout]; exact Lexeme.cut?_some_iff.2 cuts), layout]
  rfl

theorem Spells.of_cuts {l : Lexeme} (cuts : Lexeme.Cuts false cs l rest) (plain : l ≠ .op) :
    Spells cs [l] rest := by
  intro offset
  refine ⟨[⟨offset, l⟩], offset + l.text.length, rfl, ?_⟩
  rw [scanFrom_cuts cuts, decide_eq_false plain]

/-- After `op` a lexeme is cut off that stands for a variable. -/
theorem Spells.of_cuts_op {l : Lexeme} (cuts : Lexeme.Cuts true cs l rest) (plain : l ≠ .op) :
    Spells ('o' :: 'p' :: ' ' :: cs) [.op, l] rest := by
  intro offset
  have word : Lexeme.Cuts false ('o' :: 'p' :: ' ' :: cs) .op (' ' :: cs) :=
    Lexeme.cut?_some_iff.1 rfl
  refine ⟨[⟨offset, .op⟩, ⟨offset + 2 + 1, l⟩], offset + 2 + 1 + l.text.length, rfl, ?_⟩
  rw [scanFrom_cuts word, scanFrom_space]
  change (scanFrom true (offset + 2 + 1) cs).prepend [⟨offset, .op⟩] = _
  rw [scanFrom_cuts cuts, decide_eq_false plain]
  rfl

theorem Spells.ofText (spells : Spells cs ls []) :
    (Scan.ofText cs).rest = [] ∧ (Scan.ofText cs).tokens.map Token.lexeme = ls := by
  obtain ⟨ts, stop, lexemes, scan⟩ := spells 0
  have empty : scanFrom false stop [] = ⟨[], stop, []⟩ := scanFrom_none rfl
  rw [Scan.ofText, scan, empty]
  exact ⟨rfl, by simpa [prepend] using lexemes⟩

theorem Spells.mark (mark : Lexeme.isMark c = true) : Spells (c :: rest) [.mark c] rest :=
  .of_cuts (.mark mark) (by simp [Lexeme.op])

theorem word_cuts {afterOp : Bool} {w : List Char} (first : Lexeme.startsWord c = true)
    (others : ∀ d ∈ w, Lexeme.continuesWord d = true)
    (ends : ∀ d ∈ rest.head?, Lexeme.continuesWord d = false) :
    Lexeme.Cuts afterOp (c :: (w ++ rest)) (.word (c :: w)) rest := by
  obtain ⟨run, behind⟩ := Decimal.span_append others ends
  have cuts : Lexeme.Cuts afterOp (c :: (w ++ rest)) _ _ := .word first
  rwa [run, behind] at cuts

theorem Spells.word {w : List Char} (first : Lexeme.startsWord c = true)
    (others : ∀ d ∈ w, Lexeme.continuesWord d = true) (stops : Stops rest)
    (plain : c :: w ≠ ['o', 'p']) : Spells (c :: (w ++ rest)) [.word (c :: w)] rest :=
  .of_cuts (word_cuts first others stops.continuesWord) fun same => plain (Lexeme.word.inj same)

theorem run_cuts {afterOp : Bool} {w : List Char} (each : ∀ d ∈ c :: w, isOperatorChar d = true)
    (ends : ∀ d ∈ rest.head?, isOperatorChar d = false)
    (unnamed : ¬ (afterOp = true ∧ (c = '+' ∨ c = '-') ∧ (w ++ rest).head? = some '_')) :
    Lexeme.Cuts afterOp (c :: (w ++ rest)) (.operators (c :: w)) rest := by
  obtain ⟨operator, others⟩ := List.forall_mem_cons.1 each
  obtain ⟨run, behind⟩ := Decimal.span_append others ends
  have cuts : Lexeme.Cuts afterOp (c :: (w ++ rest)) _ _ := .operators operator unnamed
  rwa [run, behind] at cuts

theorem operators_cuts {afterOp : Bool} {w : List Char} (each : ∀ d ∈ c :: w, isOperatorChar d = true)
    (ends : ∀ d ∈ rest.head?, isOperatorChar d = false)
    (unnamed : afterOp = true → ∀ d ∈ rest.head?, d ≠ '_') :
    Lexeme.Cuts afterOp (c :: (w ++ rest)) (.operators (c :: w)) rest := by
  refine run_cuts each ends ?_
  rintro ⟨named, _, underscore⟩
  cases w with
  | nil => exact unnamed named '_' underscore rfl
  | cons d w =>
    cases underscore
    exact absurd (each '_' (by simp)) (by decide)

theorem Spells.operator (operator : isOperatorChar c = true)
    (ends : ∀ d ∈ rest.head?, isOperatorChar d = false) :
    Spells (c :: rest) [.operators [c]] rest :=
  .of_cuts (operators_cuts (w := []) (List.forall_mem_singleton.2 operator) ends (by simp))
    (by simp [Lexeme.op])

theorem Spells.head {l : Lexeme} (spells : Spells cs (l :: ls) rest) (plain : ∀ w, l ≠ .operators w) :
    ∀ d ∈ cs.head?, isOperatorChar d = false := by
  intro d first
  obtain ⟨tail, rfl⟩ := List.head?_eq_some_iff.1 first
  refine Bool.eq_false_iff.2 fun operator => ?_
  have cuts : Lexeme.Cuts false (d :: tail) _ _ := .operators operator (by simp)
  obtain ⟨ts, stop, lexemes, scan⟩ := spells 0
  obtain ⟨t, us, rfl⟩ := List.exists_cons_of_ne_nil (l := ts) (by rintro rfl; contradiction)
  rw [scanFrom_cuts cuts] at scan
  have same := (List.cons.inj (congrArg Scan.tokens scan)).1
  rw [List.map_cons, List.cons.injEq, ← same] at lexemes
  exact plain _ lexemes.1.symm

theorem Spells.wrapped (inner : ∀ {rest}, Stops rest → Spells (cs ++ rest) ls rest) (brackets : Bool)
    (stops : Stops rest) :
    Spells (Expr.wrapped brackets cs ++ rest) (Expr.wrappedLexemes brackets ls) rest := by
  unfold Expr.wrapped Expr.wrappedLexemes
  split
  · have closes : Stops (')' :: rest) := .cons (by simp)
    rw [List.cons_append, List.append_assoc]
    exact (mark rfl).trans ((inner closes).trans (mark rfl))
  · exact inner stops

end Scan

open Scan

theorem spells_number {x : Float} {cs rest : List Char} {l : Lexeme} (form : Expr.NumberForm x cs l)
    (stops : Stops rest) : Spells (cs ++ rest) [l] rest := by
  cases form with
  | nan | infinity => exact .word rfl (Numeral.forall_mem_of_all rfl) stops (by decide)
  | decimal form alike =>
    have cut := form.cut_append fun c head => (mem_stops (stops c head)).2.2.imp_right And.left
    obtain ⟨c, tail, rfl, digit, _⟩ := form.head
    have cuts : Lexeme.Cuts false (c :: (tail ++ rest)) _ _ := .numeral digit
    rw [← List.cons_append, cut] at cuts
    exact .of_cuts cuts (by simp [Lexeme.op])

theorem spells_identifier {name : String} {rest : List Char} (named : isIdentifier name = true)
    (stops : Stops rest) : Spells (name.toList ++ rest) [.word name.toList] rest := by
  obtain ⟨c, cs, whole, first, others, free⟩ := isIdentifier_iff.1 named
  rw [whole]
  exact .word first others stops fun same => free (by rw [same]; decide)

namespace Expr

variable {α : Type} {rest : List Char}

theorem spells_var {t : α} {name : String} (named : isVariable name = true) (stops : Stops rest) :
    Spells ((var t name).chars ++ rest) (var t name).lexemes rest := by
  unfold chars text lexemes
  by_cases operator : isOperatorName name = true
  · simp only [operator, Bool.true_or, if_true]
    rw [String.toList_append]
    simp only [isOperatorName, Bool.and_eq_true, List.all_eq_true] at operator
    obtain ⟨some, each⟩ := operator
    cases whole : name.toList with
    | nil => simp [whole] at some
    | cons c w =>
      rw [whole] at each
      exact .of_cuts_op
        (operators_cuts each stops.isOperatorChar fun _ d head => (mem_stops (stops d head)).2.2.2.2)
        (by simp [Lexeme.op])
  by_cases sign : (Sign.ofName? name).isSome = true
  · simp only [operator, sign, Bool.or_true, if_true, Bool.false_eq_true, if_false]
    obtain ⟨s, found⟩ := Option.isSome_iff_exists.1 sign
    rw [String.toList_append, ofName?_some found]
    exact .of_cuts_op (.signName rfl) (by simp [Lexeme.op])
  · simp only [operator, sign, Bool.false_eq_true, Bool.or_self, if_false]
    exact spells_identifier (isIdentifier_of_isVariable named operator sign) stops

theorem argument_lexemes {x : Expr α} (printable : x.Printable) :
    ∃ l ls, wrappedLexemes (!x.isSimple) x.lexemes = l :: ls ∧ ∀ w, l ≠ .operators w := by
  cases simple : x.isSimple with
  | false => exact ⟨_, _, rfl, by simp⟩
  | true =>
    cases printable with
    | @number t x unsigned =>
      refine ⟨_, [], rfl, fun w => ?_⟩
      unfold numberLexeme
      split_ifs <;> simp
    | vector elems => exact ⟨_, _, rfl, by simp⟩
    | var named =>
      simp only [Bool.not_true, wrappedLexemes, Bool.false_eq_true, if_false, lexemes]
      split_ifs <;> exact ⟨_, _, rfl, by simp [Lexeme.op]⟩
    | apply | letIn => simp [isSimple] at simple

theorem spells_elements {es : List (Expr α)} (each : ∀ e ∈ es, ∀ {rest}, Stops rest →
    Spells (e.chars ++ rest) e.lexemes rest) :
    Spells (elements es ++ ']' :: rest) (lexemesAll es) (']' :: rest) := by
  induction es with
  | nil => exact .refl _
  | cons e es ih =>
    have first {r : List Char} (stops : Stops r) : Spells (e.chars ++ r) e.lexemes r :=
      each e List.mem_cons_self stops
    cases es with
    | nil => exact first (.cons (by simp))
    | cons f es =>
      have others := ih fun e member => each e (List.mem_cons_of_mem _ member)
      rw [elements_cons_cons, lexemesAll_cons_cons, List.append_assoc]
      exact (first (.cons (by simp))).trans ((Spells.mark rfl).trans others.space)

/-- The written form of a printable tree spells its lexemes. -/
theorem Printable.spells {e : Expr α} (printable : e.Printable) (stops : Stops rest) :
    Spells (e.chars ++ rest) e.lexemes rest := by
  induction printable generalizing rest with
  | number unsigned => exact spells_number (numberForm unsigned) stops
  | vector elems ih =>
    rw [chars_vector, lexemes, List.cons_append, List.append_assoc]
    refine (Spells.mark rfl).trans ((spells_elements ih).trans (.mark rfl))
  | var named => exact spells_var named stops
  | @apply t f x func arg ihf ihx =>
    unfold lexemes
    cases sign : f.sign? with
    | none =>
      rw [chars_apply sign, List.append_assoc, List.cons_append]
      exact (Spells.wrapped ihf _ .space).trans (Spells.wrapped ihx _ stops).space
    | some s =>
      rw [chars_sign sign, List.append_assoc]
      have argument := Spells.wrapped ihx (!x.isSimple) stops
      obtain ⟨l, ls, starts, plain⟩ := argument_lexemes arg
      have head := Spells.head (starts ▸ argument) plain
      have symbol : Spells (s.symbol.toList ++ (wrapped (!x.isSimple) x.chars ++ rest))
          [.operators s.symbol.toList] (wrapped (!x.isSimple) x.chars ++ rest) := by
        cases s <;> exact .operator (by decide) head
      exact symbol.trans argument
  | @letIn t x b e named bound body ihb ihe =>
    rw [chars_letIn, lexemes]
    simp only [List.append_assoc, List.cons_append]
    have equals : Spells ('=' :: ' ' :: (b.chars ++ ' ' :: ("in".toList ++ ' ' :: (e.chars ++ rest))))
        [.operators ['=']] (' ' :: (b.chars ++ ' ' :: ("in".toList ++ ' ' :: (e.chars ++ rest)))) :=
      .operator (by decide) Stops.space.isOperatorChar
    refine (Spells.word (c := 'l') (w := ['e', 't']) rfl (Numeral.forall_mem_of_all rfl) .space
      (by decide)).trans ?_
    refine (spells_identifier named .space).space.trans (equals.space.trans ?_)
    refine (ihb .space).space.trans ?_
    refine (Spells.word (c := 'i') (w := ['n']) rfl (Numeral.forall_mem_of_all rfl) .space
      (by decide)).space.trans ?_
    exact (ihe stops).space

theorem argument_head {x : Expr α} (printable : x.Printable) (stops : Stops rest) :
    ∀ c ∈ (wrapped (!x.isSimple) x.chars ++ rest).head?, isOperatorChar c = false := by
  obtain ⟨l, ls, starts, plain⟩ := argument_lexemes printable
  have argument : Spells _ _ rest := .wrapped printable.spells (!x.isSimple) stops
  exact Spells.head (starts ▸ argument) plain

theorem Printable.ofText {e : Expr α} (printable : e.Printable) :
    (Scan.ofText e.chars).rest = [] ∧
      (Scan.ofText e.chars).tokens.map Token.lexeme = e.lexemes := by
  have spells : Spells (e.chars ++ []) e.lexemes [] := printable.spells .nil
  rw [List.append_nil] at spells
  exact spells.ofText

end Expr

end Formula
