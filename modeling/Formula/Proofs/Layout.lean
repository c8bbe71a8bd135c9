import Formula.Proofs.Phrases
import Formula.Proofs.Viable

/-! Layout between lexemes. Lexemes that layout separates are cut as they are, provided that the names of
signs stand after `op`; and what tokens form depends on their lexemes alone. Main statement: two texts
that lay out the same lexemes are parsed as trees that are the same, or are both refused. -/
namespace Formula

/-- Blanks, and comments that each end with their line. -/
inductive Gap : List Char → Prop where
  | nil : Gap []
  | blank {c cs} (blank : isBlank c = true) (later : Gap cs) : Gap (c :: cs)
  | comment {body ending cs} (within : ∀ c ∈ body, c ≠ '\n' ∧ c ≠ '\r')
    (ends : ending = ['\n'] ∨ ending = ['\r', '\n'] ∨ ending = ['\r']) (later : Gap cs) :
    Gap ('#' :: (body ++ (ending ++ cs)))

/-- A text that lays out lexemes, with gaps around them, the first of them behind another lexeme or at
the start. Between two lexemes the gap is not empty. -/
inductive LaysOut : Bool → List Lexeme → List Char → Prop where
  | nil {behind gap} (layout : Gap gap) : LaysOut behind [] gap
  | cons {behind l ls gap cs} (layout : Gap gap) (apart : behind = true → gap ≠ [])
    (later : LaysOut true ls cs) : LaysOut behind (l :: ls) (gap ++ (l.text ++ cs))

/-- Whether every lexeme is one where it stands: the names of signs stand after `op`. -/
def Placed : Bool → List Lexeme → Prop
  | _, [] => True
  | afterOp, l :: ls => l.Valid afterOp ∧ Placed (l = Lexeme.op) ls

/-- The characters that layout does not start with. -/
def isVisible (c : Char) : Bool := !isBlank c && c ≠ '#'

namespace Lexeme

variable {afterOp : Bool} {cs rest : List Char} {l : Lexeme} {ls ms : List Lexeme} {c : Char}

theorem visible_of_lexical (lexical : isLexical c = true) : isVisible c = true := by
  by_contra hidden
  have layout : c ∈ [' ', '\t', '\r', '\n', '#'] := by
    simp only [isVisible, isBlank] at hidden
    simp only [List.mem_cons, List.not_mem_nil, or_false]
    grind
  have none := Numeral.forall_mem_of_all (P := fun c => isLexical c = false) rfl c layout
  simp [none] at lexical

theorem Valid.cuts_layout (valid : l.Valid afterOp) (ends : ∀ c ∈ rest.head?, isVisible c = false) :
    Cuts afterOp (l.text ++ rest) l rest := by
  obtain ⟨m, others, cuts, same | longer⟩ := valid.cuts (r := rest) rfl
  · subst same
    obtain rfl := List.append_cancel_left cuts.append
    exact cuts
  · obtain ⟨more, longer, rfl⟩ | ⟨more, shorter, _⟩ := List.append_eq_append_iff.1 cuts.append
    · cases more with
      | nil => simp [longer] at *
      | cons c more =>
        have visible := visible_of_lexical (cuts.lexical c (by simp [longer]))
        rw [ends c rfl] at visible
        contradiction
    · rw [shorter, List.length_append] at longer
      omega

theorem Valid.elsewhere (valid : l.Valid true) (invalid : ¬ l.Valid afterOp) :
    afterOp = false ∧ ∃ s : Sign, l = .signName s.name.toList := by
  cases valid with
  | numeral valid => exact absurd (.numeral valid) invalid
  | word first others => exact absurd (.word first others) invalid
  | operators each => exact absurd (.operators each) invalid
  | @signName s => exact ⟨Bool.eq_false_iff.2 fun named => invalid (.signName named), s, rfl⟩
  | mark mark => exact absurd (.mark mark) invalid

end Lexeme

section Lexes

variable {afterOp behind : Bool} {gap cs rest : List Char} {l : Lexeme} {ls ms : List Lexeme}

theorem Gap.dropLayout (layout : Gap gap) (offset : Nat) (rest : List Char) :
    ∃ stop, dropLayout false offset (gap ++ rest) = Formula.dropLayout false stop rest := by
  induction layout generalizing offset with
  | nil => exact ⟨offset, rfl⟩
  | @blank c cs blank later ih =>
    obtain ⟨stop, same⟩ := ih (offset + c.utf8Size)
    refine ⟨stop, ?_⟩
    rw [← same]
    simp [Formula.dropLayout, blank]
  | @comment body ending cs within ends later ih =>
    have line : ∀ c ∈ (ending ++ (cs ++ rest)).head?, c = '\n' ∨ c = '\r' := by
      rcases ends with rfl | rfl | rfl <;> simp
    obtain ⟨middle, inside⟩ := Scan.dropLayout_comment within line (offset + '#'.utf8Size)
    have ended : Formula.dropLayout false middle (ending ++ (cs ++ rest)) =
        Formula.dropLayout false (middle + ending.length) (cs ++ rest) := by
      rcases ends with rfl | rfl | rfl <;> rfl
    obtain ⟨stop, same⟩ := ih (middle + ending.length)
    refine ⟨stop, ?_⟩
    rw [← same, ← ended, ← inside]
    simp [Formula.dropLayout, isBlank]

theorem Gap.lexes_iff (layout : Gap gap) : Lexes afterOp (gap ++ rest) ms ↔ Lexes afterOp rest ms := by
  obtain ⟨stop, same⟩ := layout.dropLayout 0 rest
  rw [Scan.lexes_iff 0, Scan.lexes_iff stop, Scan.scanFrom_congr same]

theorem Lexeme.Cuts.lexes_iff (cuts : Lexeme.Cuts afterOp cs l rest) :
    Lexes afterOp cs ms ↔ ∃ ls, Lexes (l = Lexeme.op) rest ls ∧ ms = l :: ls := by
  rw [Scan.lexes_iff 0, Scan.scanFrom_cuts cuts]
  simp only [Scan.prepend, List.cons_append, List.nil_append, List.map_cons]
  constructor
  · rintro ⟨whole, rfl⟩
    exact ⟨_, (Scan.lexes_iff _).2 ⟨whole, rfl⟩, rfl⟩
  · rintro ⟨ls, later, rfl⟩
    obtain ⟨whole, same⟩ := (Scan.lexes_iff _).1 later
    exact ⟨whole, congrArg _ same⟩

theorem Gap.head (layout : Gap gap) : ∀ c ∈ gap.head?, isVisible c = false := by
  cases layout with
  | nil => simp
  | blank blank later => simp [isVisible, blank]
  | comment => simp [isVisible]

theorem LaysOut.head (laysOut : LaysOut true ls cs) : ∀ c ∈ cs.head?, isVisible c = false := by
  cases laysOut with
  | nil layout => exact layout.head
  | cons layout apart later =>
    rw [List.head?_append_of_ne_nil _ (apart rfl)]
    exact layout.head

/-- Whatever the layout, a text is cut into the lexemes it lays out, if they are placed, and is not cut
to its end otherwise. -/
theorem LaysOut.lexes_iff (laysOut : LaysOut behind ls cs) (valid : ∀ l ∈ ls, l.Valid true)
    (afterOp : Bool) : Lexes afterOp cs ms ↔ Placed afterOp ls ∧ ms = ls := by
  induction laysOut generalizing afterOp ms with
  | nil layout =>
    have dropped : Lexes afterOp (_ ++ []) ms ↔ Lexes afterOp [] ms := layout.lexes_iff
    rw [List.append_nil] at dropped
    rw [dropped, Scan.lexes_iff 0, Scan.scanFrom_none rfl]
    simp [Placed, dropLayout, eq_comm]
  | @cons behind l ls gap cs layout apart later ih =>
    obtain ⟨first, others⟩ := List.forall_mem_cons.1 valid
    rw [layout.lexes_iff, Placed]
    by_cases here : l.Valid afterOp
    · rw [(here.cuts_layout later.head).lexes_iff]
      simp only [ih others, here, true_and]
      constructor
      · rintro ⟨_, ⟨placed, rfl⟩, rfl⟩
        exact ⟨placed, rfl⟩
      · rintro ⟨placed, rfl⟩
        exact ⟨ls, ⟨placed, rfl⟩, rfl⟩
    · obtain ⟨rfl, s, rfl⟩ := first.elsewhere here
      -- The sign alone is cut off, and no lexeme starts with the underscore behind it.
      have cuts : Lexeme.Cuts false (s.name.toList ++ cs) (.operators s.symbol.toList) ('_' :: cs) := by
        cases s <;> exact Lexeme.cut?_some_iff.1 rfl
      refine iff_of_false (fun lexes => ?_) fun placed => here placed.1.1
      obtain ⟨_, underscore, _⟩ := cuts.lexes_iff.1 lexes
      have whole := ((Scan.lexes_iff 0).1 underscore).1
      rw [Scan.scanFrom_none rfl] at whole
      contradiction

end Lexes

theorem Forms.same {ts us : List Token} {d e : Draft}
    (lexemes : ts.map Token.lexeme = us.map Token.lexeme) (first : Forms ts (.expression d))
    (second : Forms us (.expression e)) : d.same e = true := by
  -- With all tokens at one place, both are read by one run.
  have placeless (ts : List Token) :
      ts.map (Token.move fun _ => 0) = (ts.map Token.lexeme).map (Token.mk 0) := by
    rw [List.map_map]
    rfl
  have together : ts.map (Token.move fun _ => 0) = us.map (Token.move fun _ => 0) := by
    rw [placeless, placeless, lexemes]
  obtain ⟨s, run, result⟩ := (first.move fun _ => 0).result
  obtain ⟨s', run', result'⟩ := (second.move fun _ => 0).result
  rw [together] at run
  cases run.symm.trans run'
  have equal : d.map (fun _ => 0) = e.map (fun _ => 0) :=
    Option.some.inj (result.symm.trans result')
  exact Expr.same_trans (Expr.same_symm (Expr.map_same _ d)) (equal ▸ Expr.map_same _ e)

theorem LaysOut.lexemes {ls : List Lexeme} {cs : List Char} (laysOut : LaysOut false ls cs)
    (valid : ∀ l ∈ ls, l.Valid true) (whole : (Scan.ofText cs).rest = []) :
    (Scan.ofText cs).tokens.map Token.lexeme = ls :=
  ((laysOut.lexes_iff valid false).1 ((Scan.lexes_iff 0).2 ⟨whole, rfl⟩)).2

/-- A text that lays out lexemes is parsed exactly if they are placed and a sentence. -/
theorem LaysOut.parsed_iff {ls : List Lexeme} {text : String} (laysOut : LaysOut false ls text.toList)
    (valid : ∀ l ∈ ls, l.Valid true) {limit : Nat} (shallow : nestingExcess? limit text.toList = none)
    (source : String) : (∃ tree, parseWithin limit source text = .ok tree) ↔
      Placed false ls ∧ ls.map Lexeme.terminal ∈ grammar.language := by
  rw [parseWithin_ok_iff_sentence shallow]
  constructor
  · rintro ⟨ms, lexes, sentence⟩
    obtain ⟨placed, rfl⟩ := (laysOut.lexes_iff valid false).1 lexes
    exact ⟨placed, sentence⟩
  · rintro ⟨placed, sentence⟩
    exact ⟨ls, (laysOut.lexes_iff valid false).2 ⟨placed, rfl⟩, sentence⟩

/-- Layout does not matter. Texts that lay out the same lexemes, each with gaps of its own, are both
parsed, as trees that are the same, or are both refused, wherever their nesting stays within the
limits. -/
theorem LaysOut.parseWithin_same {ls : List Lexeme} (valid : ∀ l ∈ ls, l.Valid true)
    {text text' : String} (first : LaysOut false ls text.toList)
    (second : LaysOut false ls text'.toList) {limit limit' : Nat}
    (shallow : nestingExcess? limit text.toList = none)
    (shallow' : nestingExcess? limit' text'.toList = none) (source source' : String) :
    (∃ tree tree', parseWithin limit source text = .ok tree ∧
        parseWithin limit' source' text' = .ok tree' ∧ tree.same tree' = true) ∨
      ((∃ error, parseWithin limit source text = .error error) ∧
        ∃ error, parseWithin limit' source' text' = .error error) := by
  have together := (first.parsed_iff valid shallow source).trans
    (second.parsed_iff valid shallow' source').symm
  cases parsed : parseWithin limit source text with
  | error error =>
    cases parsed' : parseWithin limit' source' text' with
    | error error' => exact .inr ⟨⟨error, rfl⟩, error', rfl⟩
    | ok tree' =>
      obtain ⟨tree, found⟩ := together.2 ⟨tree', parsed'⟩
      cases parsed.symm.trans found
  | ok tree =>
    obtain ⟨tree', parsed'⟩ := together.1 ⟨tree, parsed⟩
    obtain ⟨_, whole, c, chain, rfl⟩ := parseWithin_ok_iff_grouped.1 parsed
    obtain ⟨_, whole', c', chain', rfl⟩ := parseWithin_ok_iff_grouped.1 parsed'
    have lexemes := (first.lexemes valid whole).trans (second.lexemes valid whole').symm
    have alike := Forms.same lexemes (.grouped chain) (.grouped chain')
    exact .inl ⟨_, _, rfl, parsed', Expr.same_trans (Expr.map_same _ _)
      (Expr.same_trans alike (Expr.same_symm (Expr.map_same _ _)))⟩

namespace LaidOut

/-- `op`, the name of a sign, and a numeral. -/
def lexemes : List Lexeme := [.op, .signName "-_".toList, .numeral "2".toList]

theorem valid : ∀ l ∈ lexemes, l.Valid true := by
  have digit : Numeral.ValidDecimal (['2'] ++ ([] ++ [])) :=
    .mk ⟨by simp, Numeral.forall_mem_of_all rfl⟩ .nothing .nothing
  simp only [lexemes, List.forall_mem_cons]
  exact ⟨.word rfl (Numeral.forall_mem_of_all rfl), .signName (s := .minus) rfl,
    .numeral (.inr (.inr digit)), nofun⟩

theorem inLine : LaysOut false lexemes "op -_ 2".toList := by
  have blank : Gap [' '] := .blank rfl .nil
  exact .cons .nil nofun (.cons blank (by simp) (.cons blank (by simp) (.nil .nil)))

theorem inLines : LaysOut false lexemes "# f\rop# g\n-_\t2 ".toList := by
  have front : Gap ('#' :: ([' ', 'f'] ++ (['\r'] ++ []))) :=
    .comment (Numeral.forall_mem_of_all rfl) (by simp) .nil
  have middle : Gap ('#' :: ([' ', 'g'] ++ (['\n'] ++ []))) :=
    .comment (Numeral.forall_mem_of_all rfl) (by simp) .nil
  exact .cons front nofun (.cons middle (by simp) (.cons (.blank (c := '\t') rfl .nil) (by simp)
    (.nil (.blank (c := ' ') rfl .nil))))

end LaidOut

/-- The application of the variable `-_` in one line and in three. -/
theorem LaysOut.parseWithin_same_lines :
    ∃ tree tree', parseWithin 1 "s" "op -_ 2" = .ok tree ∧
      parseWithin 1 "s" "# f\rop# g\n-_\t2 " = .ok tree' ∧ tree.same tree' = true := by
  have shallow : nestingExcess? 1 "op -_ 2".toList = none := by decide +kernel
  have shallow' : nestingExcess? 1 "# f\rop# g\n-_\t2 ".toList = none := by decide +kernel
  have parsed : ∃ tree, parseWithin 1 "s" "op -_ 2" = .ok tree := ⟨_, by with_unfolding_all rfl⟩
  rcases LaysOut.parseWithin_same LaidOut.valid LaidOut.inLine LaidOut.inLines shallow shallow'
    "s" "s" with both | ⟨⟨error, refused⟩, _⟩
  · exact both
  · obtain ⟨tree, parsed⟩ := parsed
    cases parsed.symm.trans refused

end Formula
