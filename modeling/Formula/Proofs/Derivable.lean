import Formula.Proofs.LongestMatch
import Formula.Proofs.Readable

/-! What is read is derived by the grammar. The levels of a reader say which forms have been begun
and how much of each has been read. Main statement: a text is parsed exactly when its lexemes are a
sentence. -/
namespace Formula

open State Grammar

/-- What has been read in front of an operand: with any rest of an expression it is one. -/
def Leads (ls : List Lexeme) : Prop :=
  ∀ ss ∈ sentence .signs, ∀ xs ∈ sentence .operand, ∀ os ∈ sentence .operations,
    ls ++ (ss ++ (xs ++ os)) ∈ sentence .expression

/-- What has been read of an operand: with any further atoms it is an application. -/
def Applies (ls : List Lexeme) : Prop :=
  ∀ as ∈ sentence .atoms, ls ++ as ∈ sentence .application

/-- What has been read of an expression. -/
inductive Level.Read (level : Level) : List Lexeme → Prop where
  | lead {ls} (empty : level.operand = none) (leads : Leads ls)
    (fresh : level.isFresh = true → ls = []) : Read level ls
  | operand {ls as e} (operand : level.operand = some e) (leads : Leads ls) (applies : Applies as) :
    Read level (ls ++ as)

/-- What opens an expression that is part of a frame, inside a level. -/
inductive Frame.Opens (level : Level) : Frame → List Lexeme → Prop where
  | group {o} : Opens level (.group o) [.mark '(']
  | vector {o es ls} (elements : ∀ xs ∈ sentence .expression, ∀ ms ∈ sentence .more,
    ls ++ (xs ++ ms) ∈ sentence .elements) (empty : es = [] → ls = []) :
    Opens level (.vector o es) (.mark '[' :: ls)
  | bound {o x w} (empty : level.operand = none) (free : w ∉ reserved) :
    Opens level (.bound o x) [.word "let".toList, .word w, .operators ['=']]
  | body {o x b w bs} (empty : level.operand = none) (free : w ∉ reserved)
    (bound : bs ∈ sentence .expression) : Opens level (.body o x b)
      (.word "let".toList :: .word w :: .operators ['='] :: (bs ++ [.word "in".toList]))

/-- What has been read up to an expression that is part of a frame, with levels around it. -/
inductive Around : Frame → List Level → List Lexeme → Prop where
  | whole : Around .whole [] []
  | inner {frame level outer before ls opening} (around : Around level.frame outer before)
    (reads : level.Read ls) (opens : frame.Opens level opening) :
    Around frame (level :: outer) (before ++ (ls ++ opening))

/-- What has been read when an expression is under construction, with levels around it. -/
inductive Reaches (level : Level) (outer : List Level) : List Lexeme → Prop where
  | mk {before ls} (around : Around level.frame outer before) (reads : level.Read ls) :
    Reaches level outer (before ++ ls)

/-- What has been read in a state. -/
inductive State.Traced : State → List Lexeme → Prop where
  | within {level outer ls} (reaches : Reaches level outer ls) : Traced (.within level outer) ls
  | afterOp {o level outer ls} (reaches : Reaches level outer ls) :
    Traced (.afterOp o level outer) (ls ++ [.op])
  | afterLet {o level outer ls} (reaches : Reaches level outer ls) (empty : level.operand = none) :
    Traced (.afterLet o level outer) (ls ++ [.word "let".toList])
  | afterName {o x level outer ls w} (reaches : Reaches level outer ls)
    (empty : level.operand = none) (free : w ∉ reserved) :
    Traced (.afterName o x level outer) (ls ++ [.word "let".toList, .word w])

section Levels

variable {level : Level} {frame : Frame} {outer : List Level} {ls as xs es before : List Lexeme}

theorem Leads.nil : Leads [] := by
  intro ss signs xs operand os operations
  rw [List.nil_append]
  exact sentence_expression signs operand operations

theorem Leads.sign {cs : List Char} {s : Sign} (leads : Leads ls)
    (symbol : Sign.ofSymbol? cs = some s) : Leads (ls ++ [.operators cs]) := by
  intro ss signs xs operand os operations
  simpa using leads _ (sentence_sign symbol signs) xs operand os operations

theorem Leads.operator {cs : List Char} {op : Operator} (leads : Leads ls)
    (symbol : Operator.ofSymbol? cs = some op) (operand : xs ∈ sentence .operand) :
    Leads (ls ++ (xs ++ [.operators cs])) := by
  intro ss signs ys next os operations
  have others := sentence_operation symbol signs next operations
  simpa using leads [] (sentence_nil (by simp [alternatives])) xs operand _ others

theorem Leads.expression (leads : Leads ls) (operand : xs ∈ sentence .operand) :
    ls ++ xs ∈ sentence .expression := by
  simpa using leads [] (sentence_nil (by simp [alternatives])) xs operand []
    (sentence_nil (by simp [alternatives]))

theorem Applies.operand (applies : Applies as) : as ∈ sentence .operand := by
  have whole := applies [] (sentence_nil (by simp [alternatives]))
  rw [List.append_nil] at whole
  exact sentence_operand whole

theorem Level.Read.fresh (frame : Frame) : (Level.fresh frame).Read [] :=
  .lead rfl .nil fun _ => rfl

theorem Level.Read.eq_nil (reads : level.Read ls) (fresh : level.isFresh = true) : ls = [] := by
  cases reads with
  | lead empty leads nothing => exact nothing fresh
  | operand operand leads applies => simp [Level.isFresh, operand] at fresh

theorem Level.Read.leads (reads : level.Read ls) (empty : level.operand = none) : Leads ls := by
  cases reads with
  | lead _ leads nothing => exact leads
  | operand operand leads applies => simp [empty] at operand

theorem Level.Read.expression {e : Draft} (reads : level.Read ls)
    (operand : level.operand = some e) : ls ∈ sentence .expression := by
  cases reads with
  | lead empty leads nothing => simp [empty] at operand
  | operand _ leads applies => exact leads.expression applies.operand

theorem Level.Read.addAtom (reads : level.Read ls) (o : Nat) (e : Draft)
    (atom : as ∈ sentence .atom) : (level.addAtom o e).Read (ls ++ as) := by
  cases reads with
  | lead empty leads nothing =>
    exact .operand rfl leads fun _ others => sentence_application atom others
  | @operand ls bs _ operand leads applies =>
    rw [List.append_assoc]
    refine .operand rfl leads fun cs others => ?_
    simpa using applies _ (sentence_atoms atom others)

theorem Level.Read.addSign {cs : List Char} {s : Sign} (reads : level.Read ls) (o : Nat)
    (empty : level.operand = none) (symbol : Sign.ofSymbol? cs = some s) :
    (level.addSign o s).Read (ls ++ [.operators cs]) :=
  .lead empty ((reads.leads empty).sign symbol) fun fresh => by
    simp [Level.isFresh, Level.addSign] at fresh

theorem Level.Read.addOperator {cs : List Char} {op : Operator} {e : Draft} (reads : level.Read ls)
    (o : Nat) (operand : level.operand = some e) (symbol : Operator.ofSymbol? cs = some op) :
    (level.addOperator o op e).Read (ls ++ [.operators cs]) := by
  cases reads with
  | lead empty leads nothing => simp [empty] at operand
  | operand _ leads applies =>
    rw [List.append_assoc]
    exact .lead rfl (leads.operator symbol applies.operand) fun fresh => by
      simp [Level.isFresh, Level.addOperator] at fresh

theorem Reaches.addAtom {o : Nat} {e : Draft} (reaches : Reaches level outer ls)
    (atom : as ∈ sentence .atom) (same : ls ++ as = es) : Reaches (level.addAtom o e) outer es := by
  subst same
  cases reaches with
  | mk around reads =>
    rw [List.append_assoc]
    exact .mk around (reads.addAtom o e atom)

theorem Reaches.enter (reaches : Reaches level outer ls) (opens : frame.Opens level as)
    (same : ls ++ as = es) : Reaches (.fresh frame) (level :: outer) es := by
  subst same
  cases reaches with
  | mk around reads =>
    have inner : Around (Level.fresh frame).frame (level :: outer) _ := .inner around reads opens
    simpa using Reaches.mk inner (.fresh frame)

theorem Around.ends {value : Draft} {result : Ended} (around : Around frame outer before)
    (expression : es ∈ sentence .expression) (ends : endBodies frame value outer = result) :
    ∃ before' es', before ++ es = before' ++ es' ∧ Around result.frame result.outer before' ∧
      es' ∈ sentence .expression := by
  -- A body ends together with its `let`, which is an operand of the level around it.
  induction around generalizing value es with
  | whole =>
    subst ends
    exact ⟨[], es, rfl, .whole, expression⟩
  | inner around reads opens ih =>
    cases opens with
    | body empty free bound =>
      have operand := sentence_binding free bound expression
      obtain ⟨before', es', same, around', whole⟩ :=
        ih ((reads.leads empty).expression operand) ends
      exact ⟨before', es', by simpa using same, around', whole⟩
    | group | vector | bound =>
      subst ends
      exact ⟨_, es, rfl, .inner around reads (by constructor <;> assumption), expression⟩

end Levels

namespace State

variable {s s' : State} {ls : List Lexeme} {level : Level} {outer : List Level}

theorem Traced.ends {e : Draft} {result : Ended} (traced : Traced (.within level outer) ls)
    (operand : level.operand = some e) (ends : ended level outer e = result) :
    ∃ before es, ls = before ++ es ∧ Around result.frame result.outer before ∧
      es ∈ sentence .expression := by
  cases traced with
  | within reaches =>
    cases reaches with
    | mk around reads => exact around.ends (reads.expression operand) ends

theorem Traced.sign {o : Nat} {cs : List Char} {sign : Sign} (traced : Traced (.within level outer) ls)
    (empty : level.operand = none) (symbol : Sign.ofSymbol? cs = some sign) :
    Traced (.within (level.addSign o sign) outer) (ls ++ [.operators cs]) := by
  cases traced with
  | within reaches =>
    cases reaches with
    | mk around reads =>
      rw [List.append_assoc]
      exact .within (.mk around (reads.addSign o empty symbol))

theorem Traced.operator {o : Nat} {cs : List Char} {op : Operator} {e : Draft}
    (traced : Traced (.within level outer) ls) (operand : level.operand = some e)
    (symbol : Operator.ofSymbol? cs = some op) :
    Traced (.within (level.addOperator o op e) outer) (ls ++ [.operators cs]) := by
  cases traced with
  | within reaches =>
    cases reaches with
    | mk around reads =>
      rw [List.append_assoc]
      exact .within (.mk around (reads.addOperator o operand symbol))

section Frames

variable {around : Level} {rest : List Level} {start : Nat} {name : String} {e value bound : Draft}
  {elems : List Draft}

theorem Traced.inWord (traced : Traced (.within level outer) ls) (operand : level.operand = some e)
    (ends : ended level outer e = ⟨.bound start name, bound, rest⟩) :
    Traced (.within (.fresh (.body start name bound)) rest) (ls ++ [.word "in".toList]) := by
  obtain ⟨_, es, rfl, outside, expression⟩ := traced.ends operand ends
  cases outside with
  | inner outside reads opens =>
    cases opens with
    | bound empty free =>
      exact .within ((Reaches.mk outside reads).enter (.body empty free expression) (by simp))

theorem Traced.openVector {o : Nat} (traced : Traced (.within level outer) ls) :
    Traced (.within (.fresh (.vector o [])) (level :: outer)) (ls ++ [.mark '[']) := by
  cases traced with
  | within reaches =>
    refine .within (reaches.enter (.vector (fun xs expression ms more => ?_) fun _ => rfl) rfl)
    rw [List.nil_append]
    exact sentence_elements expression more

theorem Traced.closeEmpty (traced : Traced (.within level (around :: outer)) ls)
    (fresh : level.isFresh = true) (frame : level.frame = .vector start []) :
    Traced (.within (around.addAtom start (.vector start [])) outer) (ls ++ [.mark ']']) := by
  cases traced with
  | within reaches =>
    cases reaches with
    | mk outside reads =>
      obtain rfl := reads.eq_nil fresh
      rw [frame] at outside
      cases outside with
      | inner outside reads opens =>
        cases opens with
        | vector elements empty =>
          obtain rfl := empty rfl
          have nothing : [] ∈ sentence .elements := sentence_nil (by simp [alternatives])
          exact .within ((Reaches.mk outside reads).addAtom (sentence_vector nothing) (by simp))

theorem Traced.closeGroup (traced : Traced (.within level outer) ls) (operand : level.operand = some e)
    (ends : ended level outer e = ⟨.group start, value, around :: rest⟩) :
    Traced (.within (around.addAtom start value) rest) (ls ++ [.mark ')']) := by
  obtain ⟨_, es, rfl, outside, expression⟩ := traced.ends operand ends
  cases outside with
  | inner outside reads opens =>
    cases opens with
    | group =>
      exact .within ((Reaches.mk outside reads).addAtom (sentence_grouped expression) (by simp))

theorem Traced.closeVector (traced : Traced (.within level outer) ls) (operand : level.operand = some e)
    (ends : ended level outer e = ⟨.vector start elems, value, around :: rest⟩) :
    Traced (.within (around.addAtom start (.vector start (value :: elems).reverse)) rest)
      (ls ++ [.mark ']']) := by
  obtain ⟨_, es, rfl, outside, expression⟩ := traced.ends operand ends
  cases outside with
  | inner outside reads opens =>
    cases opens with
    | vector elements empty =>
      have whole := elements es expression [] (sentence_nil (by simp [alternatives]))
      exact .within ((Reaches.mk outside reads).addAtom (sentence_vector whole) (by simp))

theorem Traced.comma (traced : Traced (.within level outer) ls) (operand : level.operand = some e)
    (ends : ended level outer e = ⟨.vector start elems, value, around :: rest⟩) :
    Traced (.within (.fresh (.vector start (value :: elems))) (around :: rest))
      (ls ++ [.mark ',']) := by
  obtain ⟨_, es, rfl, outside, expression⟩ := traced.ends operand ends
  cases outside with
  | inner outside reads opens =>
    cases opens with
    | @vector _ _ ks elements empty =>
      have more : ∀ xs ∈ sentence .expression, ∀ ms ∈ sentence .more,
          ks ++ (es ++ [.mark ',']) ++ (xs ++ ms) ∈ sentence .elements := by
        intro xs next ms others
        simpa using elements es expression _ (sentence_more next others)
      exact .within ((Reaches.mk outside reads).enter
        (.vector more fun nothing => by contradiction) (by simp))

end Frames

/-- What has been read, one lexeme later. -/
theorem Traced.step {t : Token} (traced : s.Traced ls) (step : Step s t s') :
    s'.Traced (ls ++ [t.lexeme]) := by
  cases step with
  | atom atom =>
    cases traced with
    | within reaches => exact .within (reaches.addAtom (sentence_of_atom atom) rfl)
  | op =>
    cases traced with
    | within reaches => exact .afterOp reaches
  | named named =>
    cases traced with
    | afterOp reaches => exact .within (reaches.addAtom (sentence_named named) (by simp))
  | letWord empty =>
    cases traced with
    | within reaches => exact .afterLet reaches empty
  | name free =>
    cases traced with
    | afterLet reaches empty =>
      rw [List.append_assoc]
      exact .afterName reaches empty free
  | equals =>
    cases traced with
    | afterName reaches empty free => exact .within (reaches.enter (.bound empty free) (by simp))
  | openGroup =>
    cases traced with
    | within reaches => exact .within (reaches.enter .group rfl)
  | openVector => exact traced.openVector
  | inWord operand ends => exact traced.inWord operand ends
  | sign empty symbol => exact traced.sign empty symbol
  | operator operand symbol => exact traced.operator operand symbol
  | closeEmpty fresh frame => exact traced.closeEmpty fresh frame
  | closeGroup operand ends => exact traced.closeGroup operand ends
  | closeVector operand ends => exact traced.closeVector operand ends
  | comma operand ends => exact traced.comma operand ends

theorem Traced.run {ts : List Token} (traced : s.Traced ls) (run : s.run ts = .ok s') :
    s'.Traced (ls ++ ts.map Token.lexeme) := by
  induction ts generalizing s ls with
  | nil =>
    cases run
    simpa using traced
  | cons t ts ih =>
    obtain ⟨middle, step, later⟩ := run_cons_ok.1 run
    simpa using ih (traced.step step) later

/-- What is read as a tree is a sentence. -/
theorem sentence_of_run {ts : List Token} {tree : Draft} (run : initial.run ts = .ok s)
    (result : s.result? = some tree) :
    (ts.map Token.lexeme).map Lexeme.terminal ∈ grammar.language := by
  obtain ⟨level, outer, e, rfl, operand, ends⟩ := result?_some.1 result
  have start : initial.Traced [] := .within (.mk .whole (.fresh .whole))
  obtain ⟨before, es, whole, around, expression⟩ := (start.run run).ends operand ends
  cases around
  rw [List.nil_append] at whole
  exact whole ▸ expression

end State

theorem Lexes.stands {afterOp : Bool} {cs : List Char} {ls : List Lexeme}
    (lexes : Lexes afterOp cs ls) : ∀ l ∈ ls, l.Stands l.terminal := by
  induction lexes with
  | nil => simp
  | blank _ _ ih | comment _ _ _ ih => exact ih
  | lexeme valid _ _ ih =>
    refine List.forall_mem_cons.2 ⟨Lexeme.stands_terminal fun cs numeral => ?_, ih⟩
    subst numeral
    cases valid with
    | numeral valid => exact valid.value?

/-- A text is read exactly when the lexemes that it is cut into by longest match are a sentence. -/
theorem readText_ok_iff_sentence {text : List Char} : (∃ tree, readText text = .ok tree) ↔
    ∃ ls, Lexes false text ls ∧ ls.map Lexeme.terminal ∈ grammar.language := by
  constructor
  · rintro ⟨tree, read⟩
    obtain ⟨rest, s, run, result⟩ := readText_ok.1 read
    exact ⟨_, (Scan.lexes_iff 0).2 ⟨rest, rfl⟩, sentence_of_run run result⟩
  · rintro ⟨ls, lexes, sentence⟩
    obtain ⟨rest, lexemes⟩ := (Scan.lexes_iff 0).1 lexes
    obtain ⟨s, run, level, outer, e, rfl, operand, inside⟩ :=
      runs_of_sentence lexes.stands sentence _ lexemes
    obtain ⟨tree, ends⟩ := inside.endBodies (level.finish e)
    exact ⟨tree, readText_ok.2 ⟨rest, _, run,
      result?_some.2 ⟨level, outer, e, rfl, operand, ends⟩⟩⟩

/-- A text whose nesting stays within the limit is parsed exactly when the lexemes that it is cut
into by longest match are a sentence. -/
theorem parseWithin_ok_iff_sentence {limit : Nat} {source text : String}
    (shallow : nestingExcess? limit text.toList = none) :
    (∃ tree, parseWithin limit source text = .ok tree) ↔
      ∃ ls, Lexes false text.toList ls ∧ ls.map Lexeme.terminal ∈ grammar.language := by
  rw [← readText_ok_iff_sentence]
  constructor
  · rintro ⟨tree, parsed⟩
    obtain ⟨_, draft, read, _⟩ := parseWithin_ok.1 parsed
    exact ⟨draft, read⟩
  · rintro ⟨draft, read⟩
    exact ⟨_, parseWithin_ok.2 ⟨shallow, draft, read, rfl⟩⟩

theorem parseWithin_ok_iff_sentence_glued :
    nestingExcess? 2 "let f=op+_# x\r in f[0xg]".toList = none ∧
      (∃ tree, parseWithin 2 "s" "let f=op+_# x\r in f[0xg]" = .ok tree) ∧
      ([.reserved "let".toList, .identifier, .equals, .reserved "op".toList, .signName,
        .reserved "in".toList, .identifier, .mark '[', .number, .identifier, .mark ']'] :
        List Terminal) ∈ grammar.language := by
  have shallow : nestingExcess? 2 "let f=op+_# x\r in f[0xg]".toList = none := by decide +kernel
  have parsed : ∃ tree, parseWithin 2 "s" "let f=op+_# x\r in f[0xg]" = .ok tree :=
    ⟨_, by with_unfolding_all rfl⟩
  obtain ⟨ls, lexes, sentence⟩ := (parseWithin_ok_iff_sentence shallow).1 parsed
  have cut : ((Scan.ofText "let f=op+_# x\r in f[0xg]".toList).tokens.map Token.lexeme).map
      Lexeme.terminal = [.reserved "let".toList, .identifier, .equals, .reserved "op".toList,
        .signName, .reserved "in".toList, .identifier, .mark '[', .number, .identifier, .mark ']'] := by
    decide +kernel
  rw [← ((Scan.lexes_iff 0).1 lexes).2] at sentence
  exact ⟨shallow, parsed, cut ▸ sentence⟩

end Formula
