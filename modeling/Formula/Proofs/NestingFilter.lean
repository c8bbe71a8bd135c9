import Formula.Parse
import Formula.Proofs.LineStarts

/-! Limits of nesting compared. The scan of a text comes by the same levels whatever the limit, each at
most one deeper than the one before it, and fails at the first that is too deep. Main statement: a
limit only filters, so that what is parsed or refused by the grammar within one limit is so within
every larger one, and a text that nests too deep for two limits fails later for the larger. -/
namespace Formula

namespace Nesting

variable {opened : List Opener} {operators offset : Nat} {c : Char} {cs : List Char}

/-- What the scan does with some first characters, whatever the limit: it passes them and is no deeper,
or they take it to a level that is at most one deeper. -/
inductive Proceeds (opened : List Opener) (operators offset : Nat) (c : Char) (cs : List Char) :
    Prop where
  | pass {front rest} (whole : cs = front ++ rest) (opened' operators')
    (level : opened'.length + operators' ≤ opened.length + operators)
    (next : ∀ limit, excess? limit opened operators offset (c :: cs) =
      excess? limit opened' operators' (offset + byteLength (c :: front)) rest)
  | deepen {front rest} (whole : cs = front ++ rest) (opened' operators')
    (level : opened'.length + operators' ≤ opened.length + operators + 1)
    (next : ∀ limit, excess? limit opened operators offset (c :: cs) =
      if limit < opened'.length + operators' then some ⟨offset, opened'.length + operators'⟩
      else excess? limit opened' operators' (offset + byteLength (c :: front)) rest)

theorem byteLength_lexical (each : ∀ d ∈ cs, Lexeme.isLexical d = true) :
    byteLength cs = cs.length :=
  byteLength_ascii fun d member => (Lexeme.ascii_of_lexical (each d member)).1

theorem proceeds_of_operator (operator : isOperatorChar c = true) :
    Proceeds opened operators offset c cs := by
  have lexical {d : Char} (operator : isOperatorChar d = true) : Lexeme.isLexical d = true := by
    simp [Lexeme.isLexical, operator]
  have size := byteLength_lexical (List.forall_mem_cons.2 ⟨lexical operator,
    fun d (member : d ∈ cs.takeWhile isOperatorChar) => lexical (List.mem_takeWhile_imp member)⟩)
  refine .deepen (List.takeWhile_append_dropWhile (p := isOperatorChar)).symm opened (operators + 1)
    (Nat.le_refl _) fun limit => ?_
  rw [excess?_operator operator, size, Nat.add_right_comm offset]
  rfl

theorem proceeds_of_word (starts : c.isAlphanum = true ∨ c = '$') :
    Proceeds opened operators offset c cs := by
  have whole := (List.takeWhile_append_dropWhile (p := Lexeme.continuesWord) (l := cs)).symm
  have size := byteLength_lexical (List.forall_mem_cons.2
    ⟨Lexeme.lexical_of_continuesWord (Lexeme.continuesWord_of_isAlphanum_or starts),
      fun d (member : d ∈ cs.takeWhile Lexeme.continuesWord) =>
        Lexeme.lexical_of_continuesWord (List.mem_takeWhile_imp member)⟩)
  by_cases isLet : c :: cs.takeWhile Lexeme.continuesWord = ['l', 'e', 't']
  · refine .deepen whole (.binding :: opened) 0 (by simp) fun limit => ?_
    rw [excess?_word starts, if_pos isLet, size]
    rfl
  · refine .pass whole opened 0 (by simp) fun limit => ?_
    rw [excess?_word starts, if_neg isLet, size]

theorem proceeds (opened : List Opener) (operators offset : Nat) (c : Char) (cs : List Char) :
    Proceeds opened operators offset c cs := by
  have ends : (endBindings opened).length ≤ opened.length := (List.dropWhile_sublist _).length_le
  have alone : cs = [] ++ cs := rfl
  by_cases operator : isOperatorChar c = true
  · exact proceeds_of_operator operator
  by_cases comment : c = '#'
  · subst comment
    refine .pass (List.takeWhile_append_dropWhile (p := (· ≠ '\n'))).symm _ _ (Nat.le_refl _)
      fun limit => ?_
    rw [excess?_comment, byteLength, ← Nat.add_assoc]
    rfl
  by_cases openBracket : c = '(' ∨ c = '['
  · have size : byteLength [c] = 1 := by rcases openBracket with rfl | rfl <;> rfl
    refine .deepen alone (.bracket :: opened) 0 (by simp) fun limit => ?_
    rw [excess?_openBracket openBracket, size]
    rfl
  by_cases closeBracket : c = ')' ∨ c = ']'
  · have size : byteLength [c] = 1 := by rcases closeBracket with rfl | rfl <;> rfl
    refine .pass alone ((endBindings opened).drop 1) 0 ?_ fun limit => ?_
    · rw [List.length_drop]
      omega
    · rw [excess?_closeBracket closeBracket, size]
  by_cases comma : c = ','
  · subst comma
    exact .pass alone (endBindings opened) 0 (by omega)
      fun limit => excess?_comma
  by_cases word : c.isAlphanum = true ∨ c = '$'
  · exact proceeds_of_word word
  · have mark : Lexeme.isMark c = false := by
      rw [Bool.eq_false_iff, ne_eq, Lexeme.isMark_iff]
      simp only [List.mem_cons, List.not_mem_nil]
      tauto
    rw [not_or, Bool.not_eq_true] at word
    exact .pass alone _ _ (Nat.le_refl _) fun limit =>
      excess?_other (Bool.eq_false_iff.2 operator) comment mark word.1 word.2

/-- The levels that a scan from `level` comes by in a text at byte `offset`: under every limit it fails
at the first of them that is too deep. None is more than one deeper than the one before it, and they
stand at characters of the text, one after the other. -/
structure ComesBy (scan : Nat → Option Excess) (level offset : Nat) (cs : List Char)
    (levels : List Excess) : Prop where
  first : ∀ limit, scan limit = levels.find? (limit < ·.depth)
  gradual : List.IsChain (fun depth next => next ≤ depth + 1) (level :: levels.map Excess.depth)
  placed : ∀ e ∈ levels, ∃ before d after, cs = before ++ d :: after ∧
    e.offset = offset + byteLength before
  ordered : levels.Pairwise (·.offset < ·.offset)

namespace ComesBy

variable {scan scan' : Nat → Option Excess} {level level' : Nat} {front rest : List Char}
  {levels : List Excess}

theorem placed_append (later : ComesBy scan level (offset + byteLength front) rest levels) :
    ∀ e ∈ levels, ∃ before d after, front ++ rest = before ++ d :: after ∧
      e.offset = offset + byteLength before := by
  intro e member
  obtain ⟨before, d, after, rfl, place⟩ := later.placed e member
  exact ⟨front ++ before, d, after, by simp, by rw [place, byteLength_append, Nat.add_assoc]⟩

theorem pass (later : ComesBy scan' level' (offset + byteLength front) rest levels)
    (lower : level' ≤ level) (next : ∀ limit, scan limit = scan' limit) :
    ComesBy scan level offset (front ++ rest) levels where
  first limit := (next limit).trans (later.first limit)
  gradual := by
    have gradual := later.gradual
    cases levels with
    | nil => exact .singleton _
    | cons e levels =>
      rw [List.map_cons, List.isChain_cons_cons] at gradual ⊢
      exact ⟨Nat.le_trans gradual.1 (Nat.succ_le_succ lower), gradual.2⟩
  placed := later.placed_append
  ordered := later.ordered

theorem deepen (later : ComesBy scan' level' (offset + byteLength (c :: front)) rest levels)
    (gradual : level' ≤ level + 1) (next : ∀ limit, scan limit =
      if limit < level' then some ⟨offset, level'⟩ else scan' limit) :
    ComesBy scan level offset (c :: front ++ rest) (⟨offset, level'⟩ :: levels) where
  first limit := by
    rw [next, later.first, List.find?_cons]
    by_cases deep : limit < level' <;> simp [deep]
  gradual := List.isChain_cons_cons.2 ⟨gradual, later.gradual⟩
  placed := List.forall_mem_cons.2 ⟨⟨[], c, front ++ rest, rfl, rfl⟩, later.placed_append⟩
  ordered := by
    refine List.pairwise_cons.2 ⟨fun e member => ?_, later.ordered⟩
    obtain ⟨before, _, _, _, place⟩ := later.placed e member
    have positive := c.utf8Size_pos
    rw [place, byteLength]
    dsimp only
    omega

end ComesBy

/-- Every scan comes by levels that do not depend on the limit. -/
theorem exists_comesBy (opened : List Opener) (operators offset : Nat) (cs : List Char) :
    ∃ levels, ComesBy (excess? · opened operators offset cs) (opened.length + operators) offset cs
      levels := by
  induction size : cs.length using Nat.strong_induction_on generalizing cs opened operators offset with
  | _ n ih =>
    cases cs with
    | nil => exact ⟨[], fun limit => by rw [excess?]; rfl, .singleton _, by simp, .nil⟩
    | cons c cs =>
      rw [List.length_cons] at size
      cases proceeds opened operators offset c cs with
      | @pass front rest whole opened' operators' level next =>
        subst whole
        rw [List.length_append] at size
        obtain ⟨levels, later⟩ := ih rest.length (by omega) opened' operators' _ rest rfl
        exact ⟨levels, later.pass level next⟩
      | @deepen front rest whole opened' operators' level next =>
        subst whole
        rw [List.length_append] at size
        obtain ⟨levels, later⟩ := ih rest.length (by omega) opened' operators' _ rest rfl
        exact ⟨_, later.deepen level next⟩

namespace ComesBy

variable {scan : Nat → Option Excess} {level limit larger : Nat} {levels : List Excess} {e e' : Excess}

/-- A level that is too deep is too deep by one, since the one before it was not. -/
theorem depth_eq (comes : ComesBy scan level offset cs levels) (room : level ≤ limit)
    (found : scan limit = some e) : e.depth = limit + 1 := by
  have gradual := comes.gradual
  rw [comes.first] at found
  clear comes
  induction levels generalizing level with
  | nil => cases found
  | cons next levels ih =>
    rw [List.map_cons, List.isChain_cons_cons] at gradual
    rw [List.find?_cons] at found
    split at found
    · next deep =>
      cases found
      have := of_decide_eq_true deep
      omega
    · next shallow => exact ih (Nat.not_lt.1 (of_decide_eq_false shallow)) found gradual.2

theorem eq_none (comes : ComesBy scan level offset cs levels) (le : limit ≤ larger)
    (passes : scan limit = none) : scan larger = none := by
  rw [comes.first, List.find?_eq_none] at passes ⊢
  intro e member deep
  exact passes e member (decide_eq_true (Nat.lt_of_le_of_lt le (of_decide_eq_true deep)))

theorem offset_lt (comes : ComesBy scan level offset cs levels) (room : level ≤ limit)
    (lt : limit < larger) (found : scan limit = some e) (found' : scan larger = some e') :
    e.offset < e'.offset := by
  have depth := comes.depth_eq room found
  rw [comes.first] at found found'
  have deep' : larger < e'.depth := by simpa using List.find?_some found'
  obtain ⟨_, before, after, rfl, shallow⟩ := List.find?_eq_some_iff_append.1 found
  have ordered := (List.pairwise_append.1 comes.ordered).2.1
  rcases List.mem_append.1 (List.mem_of_find?_eq_some found') with early | late
  · have := shallow e' early
    rw [Bool.not_eq_true', decide_eq_false_iff_not] at this
    omega
  · rcases List.mem_cons.1 late with rfl | behind
    · omega
    · exact (List.pairwise_cons.1 ordered).1 e' behind

end ComesBy

end Nesting

open Nesting (lastLine byteLength_append)

/-- Whether a place of a text stands before another, by bytes and by lines and columns. -/
structure Position.Before (p q : Position) : Prop where
  offset : p.offset < q.offset
  place : p.line < q.line ∨ p.line = q.line ∧ p.column < q.column

theorem Position.ofOffset_append (source : String) (before after : List Char) :
    ofOffset source (before ++ after) (byteLength before) =
      ⟨source, before.count '\n' + 1, (lastLine before).length + 1, byteLength before⟩ := by
  rw [ofOffset, advance_append, foldl_countPlace]

theorem lineColumn_append (before : List Char) {more : List Char} (some : more ≠ []) :
    before.count '\n' < (before ++ more).count '\n' ∨
      before.count '\n' = (before ++ more).count '\n' ∧
        (lastLine before).length < (lastLine (before ++ more)).length := by
  rw [List.count_append]
  by_cases feed : '\n' ∈ more
  · have := List.count_pos_iff.2 feed
    omega
  · have oneLine : lastLine (before ++ more) = more.reverse ++ lastLine before := by
      rw [lastLine, List.reverse_append]
      refine List.takeWhile_append_of_pos fun c member => ?_
      have : c ≠ '\n' := fun same => feed (same ▸ List.mem_reverse.1 member)
      simpa using this
    refine .inr ⟨by rw [List.count_eq_zero.2 feed, Nat.add_zero], ?_⟩
    rw [oneLine, List.length_append, List.length_reverse]
    exact Nat.lt_add_of_pos_left (List.length_pos_iff.2 some)

theorem Position.before_of_fronts (source : String) {before after before' after' : List Char}
    (same : before ++ after = before' ++ after') (shorter : byteLength before < byteLength before') :
    (ofOffset source (before ++ after) (byteLength before)).Before
      (ofOffset source (before ++ after) (byteLength before')) := by
  obtain ⟨more, rfl, rfl⟩ : ∃ more, before' = before ++ more ∧ after = more ++ after' := by
    rcases List.append_eq_append_iff.1 same with found | ⟨more, rfl, _⟩
    · exact found
    · rw [byteLength_append] at shorter
      omega
  have some : more ≠ [] := by
    rintro rfl
    simp at shorter
  rw [ofOffset_append, ← List.append_assoc, ofOffset_append]
  refine ⟨shorter, ?_⟩
  have := lineColumn_append before some
  dsimp only
  omega

/-- The places at which two limits are exceeded stand in the text, that of the larger limit later. -/
theorem nestingExcess?_before {text : List Char} {limit larger : Nat} (lt : limit < larger)
    {e e' : Excess} (found : nestingExcess? limit text = some e)
    (found' : nestingExcess? larger text = some e') (source : String) :
    (Position.ofOffset source text e.offset).Before (.ofOffset source text e'.offset) := by
  obtain ⟨levels, comes⟩ := Nesting.exists_comesBy [] 0 0 text
  have later := comes.offset_lt (Nat.zero_le _) lt found found'
  have member {limit : Nat} {e : Excess} (found : nestingExcess? limit text = some e) : e ∈ levels :=
    List.mem_of_find?_eq_some ((comes.first limit).symm.trans found)
  obtain ⟨before, c, after, whole, place⟩ := comes.placed e (member found)
  obtain ⟨before', c', after', whole', place'⟩ := comes.placed e' (member found')
  rw [Nat.zero_add] at place place'
  rw [place, place', whole]
  exact Position.before_of_fronts source (whole.symm.trans whole') (place ▸ place' ▸ later)

theorem readText_ne_tooDeep {text : List Char} {place depth limit : Nat} :
    readText text ≠ .error (place, .tooDeep depth limit) := by
  unfold readText
  dsimp only
  split
  · next stuck _ => cases stuck.refusal <;> simp
  · split <;> simp

/-- A text nests too deep exactly where the scan of its levels fails. -/
theorem parseWithin_tooDeep_iff {limit depth bound : Nat} {source text : String} {p : Position} :
    parseWithin limit source text = .error ⟨p, .tooDeep depth bound⟩ ↔ bound = limit ∧
      ∃ e, nestingExcess? limit text.toList = some e ∧ e.depth = depth ∧
        p = .ofOffset source text.toList e.offset := by
  unfold parseWithin
  dsimp only
  cases found : nestingExcess? limit text.toList with
  | some e =>
    constructor
    · intro refused
      cases refused
      exact ⟨rfl, e, rfl, rfl, rfl⟩
    · rintro ⟨rfl, e', same, rfl, rfl⟩
      cases same
      rfl
  | none =>
    refine iff_of_false (fun refused => ?_) nofun
    dsimp only at refused
    split at refused
    · cases refused
    · next failed =>
      cases refused
      exact readText_ne_tooDeep failed

/-- The limit of nesting only filters. What a text comes to within a limit, the same tree with the same
places or the same refusal by the grammar, it comes to within every larger limit; and a text that nests
too deep for a limit does so by one level, and if it nests too deep for a larger one, too, it is refused
at a later place for that. -/
theorem parseWithin_larger (source text : String) {limit larger : Nat} (le : limit ≤ larger) :
    ((∀ p depth bound, parseWithin limit source text ≠ .error ⟨p, .tooDeep depth bound⟩) →
        parseWithin larger source text = parseWithin limit source text) ∧
      ∀ p depth bound, parseWithin limit source text = .error ⟨p, .tooDeep depth bound⟩ →
        depth = limit + 1 ∧ bound = limit ∧ (limit < larger → ∀ q depth' bound',
          parseWithin larger source text = .error ⟨q, .tooDeep depth' bound'⟩ → p.Before q) := by
  obtain ⟨levels, comes⟩ := Nesting.exists_comesBy [] 0 0 text.toList
  constructor
  · intro fits
    have shallow : nestingExcess? limit text.toList = none := by
      refine Option.eq_none_iff_forall_ne_some.2 fun e found => ?_
      exact fits _ _ _ (parseWithin_tooDeep_iff.2 ⟨rfl, e, found, rfl, rfl⟩)
    have shallower : nestingExcess? larger text.toList = none := comes.eq_none le shallow
    rw [parseWithin, parseWithin, shallow, shallower]
  · intro p depth bound refused
    obtain ⟨rfl, e, found, rfl, rfl⟩ := parseWithin_tooDeep_iff.1 refused
    refine ⟨comes.depth_eq (Nat.zero_le _) found, rfl, fun lt q depth' bound' refused' => ?_⟩
    obtain ⟨-, e', found', -, rfl⟩ := parseWithin_tooDeep_iff.1 refused'
    exact nestingExcess?_before lt found found' source

/-- Under 2 the third sign is too deep, under 3 the one in the second line, and under 4 nothing is. -/
theorem parseWithin_larger_lines :
    parseWithin 2 "s" "[- -\n- 1]" = .error ⟨⟨"s", 1, 4, 3⟩, .tooDeep 3 2⟩ ∧
      parseWithin 3 "s" "[- -\n- 1]" = .error ⟨⟨"s", 2, 1, 5⟩, .tooDeep 4 3⟩ ∧
      (⟨"s", 1, 4, 3⟩ : Position).Before ⟨"s", 2, 1, 5⟩ ∧
      parseWithin 500 "s" "[- -\n- 1]" = parseWithin 4 "s" "[- -\n- 1]" := by
  have deep : parseWithin 2 "s" "[- -\n- 1]" = .error ⟨⟨"s", 1, 4, 3⟩, .tooDeep 3 2⟩ :=
    parseWithin_tooDeep_iff.2 ⟨rfl, ⟨3, 3⟩, by decide +kernel, rfl, by decide +kernel⟩
  have deeper : parseWithin 3 "s" "[- -\n- 1]" = .error ⟨⟨"s", 2, 1, 5⟩, .tooDeep 4 3⟩ :=
    parseWithin_tooDeep_iff.2 ⟨rfl, ⟨5, 4⟩, by decide +kernel, rfl, by decide +kernel⟩
  have parsed : (parseWithin 4 "s" "[- -\n- 1]").toOption.isSome = true := by decide +kernel
  refine ⟨deep, deeper, ?_, (parseWithin_larger "s" _ (by decide)).1 fun p depth bound refused => ?_⟩
  · exact ((parseWithin_larger "s" _ (show 2 ≤ 3 by decide)).2 _ _ _ deep).2.2 (by decide) _ _ _ deeper
  · rw [refused] at parsed
    contradiction

end Formula
