import Formula.Position.Index
import Formula.Proofs.NestingScan

/-! Lines and columns found in three ways: by the starts of the lines, and by counting characters with
and without carriage returns joined to the line feeds behind them. Main statement: at every boundary
of a text the three agree, and name the line feeds before it and the characters since the last; so
does whatever else counts in either way. -/
namespace Formula

open Nesting (lastLine byteLength_append)

section Halving

variable {α : Type} {p : α → Bool} {xs : Array α} {place : Nat}

/-- Halving finds the place between two others at which `p` ceases to hold. -/
theorem partitionBetween_eq (ceases : ∀ i (inside : i < xs.size), p xs[i] = true ↔ i < place)
    {low high : Nat} {within : high ≤ xs.size} (above : low ≤ place) (below : place ≤ high) :
    partitionBetween p xs low high within = place := by
  fun_induction partitionBetween p xs low high within with
  | case1 low high within apart inside holds ih =>
    exact ih ((ceases _ inside).1 holds) below
  | case2 low high within apart inside fails ih =>
    exact ih above (Nat.le_of_not_lt (mt (ceases _ inside).2 fails))
  | case3 low high within together => omega

theorem partitionPoint_append {front back : List α} (holds : ∀ x ∈ front, p x = true)
    (fails : ∀ x ∈ back, p x = false) :
    partitionPoint p (front ++ back).toArray = front.length := by
  refine partitionBetween_eq (fun i inside => ?_) (Nat.zero_le _) (by simp)
  rw [List.getElem_toArray, List.getElem_append]
  split
  · next early => exact iff_of_true (holds _ (List.getElem_mem _)) early
  · next late => exact iff_of_false (by simp [fails _ (List.getElem_mem _)]) late

end Halving

section Bytes

variable {before after : List Char} {text : List Char} {offset : Nat}

theorem utf8_append (before after : List Char) : utf8 (before ++ after) = utf8 before ++ utf8 after :=
  List.flatMap_append

theorem length_utf8 (text : List Char) : (utf8 text).length = byteLength text := by
  induction text with
  | nil => rfl
  | cons c cs ih =>
    rw [byteLength, ← ih, ← String.length_utf8EncodeChar, ← List.length_append]
    rfl

/-- A character whose bytes are all ASCII is a single byte. -/
theorem utf8Size_of_ascii {c : Char} (ascii : (String.utf8EncodeChar c).all (· < 128) = true) :
    c.utf8Size = 1 := by
  rw [← String.length_utf8EncodeChar]
  unfold String.utf8EncodeChar at ascii ⊢
  dsimp only at ascii ⊢
  -- The first of several bytes is at least 192.
  have bound : (128 : UInt8).toNat = 128 := rfl
  split_ifs at ascii ⊢
  · rfl
  all_goals
    simp only [List.all_cons, Bool.and_eq_true, decide_eq_true_eq, UInt8.lt_iff_toNat_lt,
      UInt8.toNat_ofNat'] at ascii
    omega

theorem length_utf8_of_ascii (ascii : (utf8 text).all (· < 128) = true) :
    (utf8 text).length = text.length := by
  induction text with
  | nil => rfl
  | cons c cs ih =>
    rw [utf8, List.flatMap_cons, List.all_append, Bool.and_eq_true] at ascii
    rw [utf8, List.flatMap_cons, List.length_append, String.length_utf8EncodeChar,
      utf8Size_of_ascii ascii.1, Nat.add_comm]
    exact congrArg Nat.succ (ih ascii.2)

theorem exists_append_of_isBoundary (boundary : isBoundary text offset = true) :
    ∃ before after, text = before ++ after ∧ offset = byteLength before := by
  induction text generalizing offset with
  | nil =>
    cases offset with
    | zero => exact ⟨[], [], rfl, rfl⟩
    | succ => contradiction
  | cons c cs ih =>
    cases offset with
    | zero => exact ⟨[], c :: cs, rfl, rfl⟩
    | succ n =>
      simp only [isBoundary, Bool.and_eq_true, decide_eq_true_eq] at boundary
      obtain ⟨before, after, rfl, rest⟩ := ih boundary.2
      exact ⟨c :: before, after, rfl, by rw [byteLength]; omega⟩

theorem byteLength_eq_zero_iff {cs : List Char} : byteLength cs = 0 ↔ cs = [] := by
  cases cs with
  | nil => simp [byteLength]
  | cons c cs => simp [byteLength, c.utf8Size_pos.ne']

theorem isBoundary_append (before after : List Char) :
    isBoundary (before ++ after) (byteLength before) = true := by
  induction before with
  | nil => simp [byteLength, isBoundary]
  | cons c before ih =>
    have positive := c.utf8Size_pos
    rw [List.cons_append, byteLength, isBoundary]
    · simpa using ih
    · omega

theorem takeBytes_append (before after : List Char) :
    takeBytes (before ++ after) (byteLength before) = before := by
  induction before with
  | nil =>
    cases after with
    | nil => rfl
    | cons c cs =>
      have positive := c.utf8Size_pos
      rw [List.nil_append, takeBytes, byteLength, if_neg (by omega)]
  | cons c before ih =>
    rw [List.cons_append, takeBytes, byteLength, if_pos (Nat.le_add_right _ _),
      Nat.add_sub_cancel_left, ih]

theorem dropBytes_append (before after : List Char) :
    dropBytes (before ++ after) (byteLength before) = after := by
  induction before with
  | nil => cases after <;> rfl
  | cons c before ih =>
    have positive := c.utf8Size_pos
    rw [List.cons_append, byteLength, dropBytes, Nat.add_sub_cancel_left, ih]
    omega

theorem charsBetween?_append (before middle after : List Char) :
    charsBetween? (before ++ (middle ++ after)) (byteLength before) (byteLength (before ++ middle)) =
      some middle := by
  have first := isBoundary_append before (middle ++ after)
  have second := isBoundary_append (before ++ middle) after
  rw [List.append_assoc] at second
  rw [charsBetween?, dropBytes_append, byteLength_append, Nat.add_sub_cancel_left, takeBytes_append,
    if_pos ⟨Nat.le_add_right _ _, first, byteLength_append before middle ▸ second⟩]

end Bytes

section Lines

variable {before after : List Char} {offset : Nat}

theorem lastLine_append_singleton (before : List Char) (c : Char) :
    lastLine (before ++ [c]) = if c = '\n' then [] else c :: lastLine before := by
  rw [lastLine, List.reverse_append, List.reverse_singleton, List.singleton_append]
  split
  · next line => subst line; rfl
  · next plain => rw [List.takeWhile_cons_of_pos (by simpa using plain), lastLine]

theorem lineStarts_append (offset : Nat) (before after : List Char) :
    lineStarts offset (before ++ after) =
      lineStarts offset before ++ lineStarts (offset + byteLength before) after := by
  induction before generalizing offset with
  | nil => rfl
  | cons c before ih =>
    rw [List.cons_append, lineStarts, lineStarts, byteLength, ih, ih, ← Nat.add_assoc]
    split
    · next line => subst line; rfl
    · rfl

theorem lineStarts_within {start : Nat} {cs : List Char} (member : start ∈ lineStarts offset cs) :
    offset < start ∧ start ≤ offset + byteLength cs := by
  induction cs generalizing offset with
  | nil => contradiction
  | cons c cs ih =>
    have positive := c.utf8Size_pos
    rw [lineStarts] at member
    rw [byteLength]
    split at member
    · rcases List.mem_cons.1 member with rfl | member
      · omega
      · have later := ih member
        have single : '\n'.utf8Size = 1 := rfl
        omega
    · have later := ih member
      omega

theorem length_lineStarts (offset : Nat) (cs : List Char) :
    (lineStarts offset cs).length = cs.count '\n' := by
  induction cs generalizing offset with
  | nil => rfl
  | cons c cs ih =>
    rw [lineStarts, List.count_cons]
    split
    · next line => simp [line, ih]
    · next plain => simp [plain, ih]

theorem getLastD_lineStarts (offset : Nat) (before : List Char) :
    (lineStarts offset before).getLastD offset + byteLength (lastLine before) =
      offset + byteLength before := by
  induction before using List.reverseRecOn with
  | nil => rfl
  | append_singleton before c ih =>
    rw [lineStarts_append, lastLine_append_singleton, byteLength_append, lineStarts]
    split
    · next line =>
      subst line
      rw [lineStarts, List.getLastD_concat]
      rfl
    · rw [lineStarts, List.append_nil, byteLength, byteLength, byteLength]
      omega

theorem byteLength_reverse (cs : List Char) : byteLength cs.reverse = byteLength cs := by
  induction cs with
  | nil => rfl
  | cons c cs ih =>
    rw [List.reverse_cons, byteLength_append, ih, byteLength, byteLength, byteLength]
    omega

theorem exists_append_lastLine (before : List Char) :
    ∃ lines, before = lines ++ (lastLine before).reverse := by
  refine ⟨(before.reverse.dropWhile (· ≠ '\n')).reverse, ?_⟩
  rw [lastLine, ← List.reverse_append, List.takeWhile_append_dropWhile, List.reverse_reverse]

/-- Among the starts of the lines of a text those up to the end of some first characters are as many
as the lines there, and the last of them is the start of the last line. -/
theorem LineIndex.starts_append (source : String) {lines : List Char} (before after : List Char)
    (whole : before = lines ++ (lastLine before).reverse) :
    partitionPoint (fun start => start ≤ byteLength before)
        (LineIndex.ofText source (before ++ after)).starts = before.count '\n' + 1 ∧
      (LineIndex.ofText source (before ++ after)).starts.getD (before.count '\n') 0 =
        byteLength lines := by
  have starts : (LineIndex.ofText source (before ++ after)).starts =
      ((0 :: lineStarts 0 before) ++ lineStarts (byteLength before) after).toArray := by
    rw [LineIndex.ofText, lineStarts_append, Nat.zero_add, List.cons_append]
  rw [starts, ← length_lineStarts 0 before]
  constructor
  · rw [partitionPoint_append, List.length_cons]
    · refine List.forall_mem_cons.2 ⟨by simp, fun start member => ?_⟩
      simpa using (lineStarts_within member).2
    · intro start member
      simpa using (lineStarts_within member).1
  · have last := getLastD_lineStarts 0 before
    have size := congrArg byteLength whole
    rw [byteLength_append, byteLength_reverse] at size
    have found : ((0 :: lineStarts 0 before) ++ lineStarts (byteLength before) after)[
        (lineStarts 0 before).length]? = some ((lineStarts 0 before).getLastD 0) := by
      rw [List.getElem?_append_left (by simp), List.getLastD_eq_getLast?, ← List.getLast?_cons,
        List.getLast?_eq_getElem?]
      rfl
    rw [Array.getD_eq_getD_getElem?, List.getElem?_toArray, found, Option.getD_some]
    omega

/-- The place that an index gives for the end of some first characters. Its column is counted in
bytes if they are single, and in characters if not. -/
theorem LineIndex.position_append (source : String) (before after : List Char) :
    (LineIndex.ofText source (before ++ after)).position (byteLength before) =
      ⟨source, before.count '\n' + 1, (lastLine before).length + 1, byteLength before⟩ := by
  obtain ⟨lines, whole⟩ := exists_append_lastLine before
  obtain ⟨line, start⟩ := LineIndex.starts_append source before after whole
  have within : min (byteLength before) (utf8 (before ++ after)).length = byteLength before := by
    rw [length_utf8, byteLength_append]
    omega
  have front : ((utf8 (before ++ after)).take (byteLength before)).drop (byteLength lines) =
      utf8 (lastLine before).reverse := by
    rw [utf8_append, List.take_left' (length_utf8 before)]
    conv_lhs => rw [whole]
    rw [utf8_append, List.drop_left' (length_utf8 lines)]
  have between : charsBetween? (before ++ after) (byteLength lines) (byteLength before) =
      some (lastLine before).reverse := by
    have found := charsBetween?_append lines (lastLine before).reverse after
    rwa [← List.append_assoc, ← whole] at found
  have column : (if (utf8 (lastLine before).reverse).all (· < 128) then
        (utf8 (lastLine before).reverse).length
      else (lastLine before).reverse.length) = (lastLine before).length := by
    split
    · next ascii => rw [length_utf8_of_ascii ascii, List.length_reverse]
    · rw [List.length_reverse]
  have text : (LineIndex.ofText source (before ++ after)).text = before ++ after := rfl
  simp only [LineIndex.position, text, within, line, Nat.add_sub_cancel, start, front, between,
    Option.map_some, Option.getD_some, column]
  rfl

end Lines

section Counting

variable {before after : List Char} {line column : Nat}

/-- Counting one character more. -/
def countPlace (place : Nat × Nat) (c : Char) : Nat × Nat :=
  if c = '\n' then (place.1 + 1, 1) else (place.1, place.2 + 1)

theorem foldl_countPlace (before : List Char) :
    before.foldl countPlace (1, 1) = (before.count '\n' + 1, (lastLine before).length + 1) := by
  induction before using List.reverseRecOn with
  | nil => rfl
  | append_singleton before c ih =>
    rw [List.foldl_append, ih, List.count_append, lastLine_append_singleton]
    by_cases feed : c = '\n' <;> simp [countPlace, feed]

theorem advance_zero (cs : List Char) : advance line column cs 0 = (line, column) := by
  cases cs with
  | nil => rfl
  | cons c cs =>
    have positive := c.utf8Size_pos
    rw [advance, if_neg (by omega)]

theorem advance_append (line column : Nat) (before after : List Char) :
    advance line column (before ++ after) (byteLength before) =
      before.foldl countPlace (line, column) := by
  induction before generalizing line column with
  | nil => exact advance_zero after
  | cons c before ih =>
    rw [List.cons_append, advance, byteLength, if_pos (Nat.le_add_right _ _),
      Nat.add_sub_cancel_left, List.foldl_cons, countPlace]
    split
    · exact ih _ _
    · exact ih _ _

/-- Going through the characters before a place from one line and column to another. A line feed ends a
line, alone or behind a carriage return, and every other character is a column. -/
inductive LineScan : Nat × Nat → List Char → Nat × Nat → Prop where
  | nil {place} : LineScan place [] place
  | feed {line column cs place} (later : LineScan (line + 1, 1) cs place) :
    LineScan (line, column) ('\n' :: cs) place
  | joined {line column cs place} (later : LineScan (line + 1, 1) cs place) :
    LineScan (line, column) ('\r' :: '\n' :: cs) place
  | column {line column c cs place} (plain : c ≠ '\n') (alone : c = '\r' → cs.head? ≠ some '\n')
    (later : LineScan (line, column + 1) cs place) : LineScan (line, column) (c :: cs) place

/-- What is documented of a library that gives the line and column of a byte: it goes through the
characters before it. -/
def ScansLines (lineColumn : List Char → Nat → Nat × Nat) : Prop :=
  ∀ before after, LineScan (1, 1) before (lineColumn (before ++ after) (byteLength before))

theorem LineScan.eq_foldl {start stop : Nat × Nat} (scan : LineScan start before stop) :
    stop = before.foldl countPlace start := by
  induction scan with
  | nil => rfl
  | feed _ ih | joined _ ih => exact ih
  | column plain _ _ ih => rw [List.foldl_cons, countPlace, if_neg plain, ih]

theorem lineScan_advancePaired (line column : Nat) (before after : List Char) :
    LineScan (line, column) before
      (advancePaired line column (before ++ after) (byteLength before)) := by
  generalize whole : before ++ after = text
  generalize bytes : byteLength before = size
  fun_induction advancePaired line column text size generalizing before with
  | case1 line column size =>
    rw [(List.append_eq_nil_iff.1 whole).1]
    exact .nil
  | case2 line column cs size both ih =>
    subst bytes
    obtain _ | ⟨d, _ | ⟨e, rest⟩⟩ := before
    · contradiction
    · obtain ⟨rfl, _⟩ := List.cons.inj whole
      contradiction
    · obtain ⟨rfl, behind⟩ := List.cons.inj whole
      obtain ⟨rfl, later⟩ := List.cons.inj behind
      have size : byteLength ('\r' :: '\n' :: rest) = 1 + (1 + byteLength rest) := rfl
      exact .joined (ih rest later (by omega))
  | case3 line column cs size single some =>
    subst bytes
    obtain _ | ⟨d, _ | ⟨e, rest⟩⟩ := before
    · contradiction
    · obtain ⟨rfl, _⟩ := List.cons.inj whole
      exact .column (by decide) nofun .nil
    · have first := d.utf8Size_pos
      have second := e.utf8Size_pos
      rw [byteLength, byteLength] at single
      omega
  | case4 line column cs size _ none =>
    rw [byteLength_eq_zero_iff.1 (bytes.trans (by omega))]
    exact .nil
  | case5 line column cs size plain room ih =>
    subst bytes
    obtain _ | ⟨d, rest⟩ := before
    · contradiction
    · obtain ⟨rfl, later⟩ := List.cons.inj whole
      exact .feed (ih rest later (Nat.add_sub_cancel_left ..).symm)
  | case6 line column c cs size plain room other ih =>
    subst bytes
    obtain _ | ⟨d, rest⟩ := before
    · have positive := c.utf8Size_pos
      rw [byteLength] at room
      omega
    · obtain ⟨rfl, later⟩ := List.cons.inj whole
      refine .column other (fun carriage feed => ?_) (ih rest later (Nat.add_sub_cancel_left ..).symm)
      obtain ⟨rest, rfl⟩ := List.head?_eq_some_iff.1 feed
      exact plain _ carriage later.symm
  | case7 line column c cs size plain short =>
    subst bytes
    obtain _ | ⟨d, rest⟩ := before
    · exact .nil
    · obtain ⟨rfl, _⟩ := List.cons.inj whole
      exact absurd (Nat.le_add_right ..) short

theorem scansLines_advancePaired : ScansLines (advancePaired 1 1) := lineScan_advancePaired 1 1

end Counting

/-- At every boundary of a text, the line that an index gives is one more than the line feeds before
it, and the column one more than the characters since the last of them. A library that goes through
the characters gives the same place, and so do errors of the grammar and the nodes of a tree. -/
theorem LineIndex.position_of_boundary {text : List Char} {offset : Nat}
    (boundary : isBoundary text offset = true) (source : String) :
    (LineIndex.ofText source text).position offset =
        ⟨source, (takeBytes text offset).count '\n' + 1,
          (lastLine (takeBytes text offset)).length + 1, offset⟩ ∧
      (∀ lineColumn, ScansLines lineColumn →
        ⟨source, (lineColumn text offset).1, (lineColumn text offset).2, offset⟩ =
          (LineIndex.ofText source text).position offset) ∧
      Position.ofGrammarOffset source text offset = (LineIndex.ofText source text).position offset ∧
      Position.ofOffset source text offset = (LineIndex.ofText source text).position offset := by
  obtain ⟨before, after, rfl, rfl⟩ := exists_append_of_isBoundary boundary
  rw [LineIndex.position_append, takeBytes_append, Position.ofGrammarOffset, if_pos boundary,
    Position.ofOffset, (lineScan_advancePaired ..).eq_foldl, advance_append, foldl_countPlace]
  refine ⟨rfl, fun lineColumn scans => ?_, rfl, rfl⟩
  rw [(scans before after).eq_foldl, foldl_countPlace]

/-- Two lines end in `é\r\n\nüx`, an offset between `\r` and `\n` is in the first of them, and
characters of two bytes stand before both offsets. -/
theorem LineIndex.position_of_boundary_joined :
    let text := "é\r\n\nüx".toList
    ScansLines (advancePaired 1 1) ∧
      isBoundary text 3 = true ∧ (LineIndex.ofText "s" text).position 3 = ⟨"s", 1, 3, 3⟩ ∧
      advancePaired 1 1 text 3 = (1, 3) ∧ Position.ofGrammarOffset "s" text 3 = ⟨"s", 1, 3, 3⟩ ∧
      isBoundary text 7 = true ∧ (LineIndex.ofText "s" text).position 7 = ⟨"s", 3, 2, 7⟩ ∧
      advancePaired 1 1 text 7 = (3, 2) ∧ Position.ofGrammarOffset "s" text 7 = ⟨"s", 3, 2, 7⟩ := by
  intro text
  have first : isBoundary text 3 = true := by decide +kernel
  have second : isBoundary text 7 = true := by decide +kernel
  obtain ⟨place, counts, grammar, _⟩ := LineIndex.position_of_boundary first "s"
  obtain ⟨place', counts', grammar', _⟩ := LineIndex.position_of_boundary second "s"
  have counted : (takeBytes text 3).count '\n' + 1 = 1 ∧
      (lastLine (takeBytes text 3)).length + 1 = 3 := by decide +kernel
  have counted' : (takeBytes text 7).count '\n' + 1 = 3 ∧
      (lastLine (takeBytes text 7)).length + 1 = 2 := by decide +kernel
  rw [counted.1, counted.2] at place
  rw [counted'.1, counted'.2] at place'
  obtain ⟨_, line, column, _⟩ :=
    Position.mk.inj ((counts _ scansLines_advancePaired).trans place)
  obtain ⟨_, line', column', _⟩ :=
    Position.mk.inj ((counts' _ scansLines_advancePaired).trans place')
  exact ⟨scansLines_advancePaired, first, place, Prod.ext line column, grammar.trans place, second, place',
    Prod.ext line' column', grammar'.trans place'⟩

end Formula
