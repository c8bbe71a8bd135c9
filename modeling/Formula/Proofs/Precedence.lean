import Formula.Chain

/-! The grouping of a chain by precedence. A chain is split at the rightmost of its operators that bind
least, and both sides are split in turn; the signs before an operand apply to that operand alone.
How operators bind is listed here by their symbols, and the trees are written out. Main statement:
joining the operators level by level, the tightest first and each level from the left, gives the tree
of these splits. -/
namespace Formula

variable {α β : Type}

/-- The symbols of the operators, from those that bind least to the one that binds most. -/
def precedence : List (List String) := [["+", "-"], ["*", "/", "%"], ["**"], ["!"]]

namespace Operator

/-- The place of an operator among those that bind less or more. -/
def rank (op : Operator) : Nat := precedence.findIdx (op.symbol ∈ ·)

theorem level_eq_rank (op : Operator) : op.level = op.rank := by
  cases op <;> decide

end Operator

/-- Puts signs, in the order in which they are written, before an operand. A sign is the application of
the variable that is spelled with an underscore behind it. -/
def Sign.applyAll (signs : List (Sign × α)) (operand : Expr α) : Expr α :=
  signs.foldr (fun (s, tag) e => .apply tag (.var tag (s.symbol ++ "_")) e) operand

theorem Sign.applyAll_cons (s : Sign × α) (signs : List (Sign × α)) (e : Expr α) :
    applyAll (s :: signs) e = .apply s.2 (.var s.2 (s.1.symbol ++ "_")) (applyAll signs e) :=
  rfl

theorem Sign.name_eq (s : Sign) : s.name = s.symbol ++ "_" := by
  cases s <;> decide

namespace Link

/-- Splits links at the rightmost of those whose operators bind least: the links before it, the link,
and the links after it. -/
def split? : List (Link β α) → Option (List (Link β α) × Link β α × List (Link β α))
  | [] => none
  | link :: links =>
    match split? links with
    | none => some ([], link, [])
    | some (before, loosest, after) =>
      if link.op.rank < loosest.op.rank then some ([], link, links)
      else some (link :: before, loosest, after)

variable {links before after : List (Link β α)} {loosest : Link β α}

theorem split?_eq_none : split? links = none ↔ links = [] := by
  cases links with
  | nil => simp [split?]
  | cons link links =>
    simp only [split?, reduceCtorEq, iff_false]
    split
    · nofun
    · split <;> nofun

/-- A split is at a link with the lowest rank, and only higher ranks stand to its right. -/
theorem split?_some (found : split? links = some (before, loosest, after)) :
    links = before ++ loosest :: after ∧ (∀ link ∈ before, loosest.op.rank ≤ link.op.rank) ∧
      ∀ link ∈ after, loosest.op.rank < link.op.rank := by
  induction links generalizing before loosest after with
  | nil => contradiction
  | cons link links ih =>
    rw [split?] at found
    split at found
    · next none =>
      cases found
      rw [split?_eq_none.1 none]
      simp
    · next later =>
      obtain ⟨rfl, lower, higher⟩ := ih later
      split at found
      · next low =>
        cases found
        refine ⟨rfl, by simp, fun other member => ?_⟩
        rcases List.mem_append.1 member with left | right
        · exact Nat.lt_of_lt_of_le low (lower other left)
        rcases List.mem_cons.1 right with rfl | right
        · exact low
        · exact Nat.lt_trans low (higher other right)
      · next high =>
        cases found
        exact ⟨rfl, List.forall_mem_cons.2 ⟨Nat.le_of_not_lt high, lower⟩, higher⟩

end Link

/-- The tree of the terms of a chain, split at its operators. An operator applies its variable to the
left side and then to the right one, all three nodes placed at the operator. -/
def groupTerms (first : Term α) (links : List (Link (Term α) α)) : Expr α :=
  match _split : Link.split? links with
  | none => Sign.applyAll first.signs.reverse first.operand
  | some (before, loosest, after) =>
    .apply loosest.tag
      (.apply loosest.tag (.var loosest.tag loosest.op.symbol) (groupTerms first before))
      (groupTerms loosest.operand after)
termination_by links.length
decreasing_by
  all_goals
    rw [(Link.split?_some _split).1, List.length_append, List.length_cons]
    omega

theorem groupTerms_nil (first : Term α) :
    groupTerms first [] = Sign.applyAll first.signs.reverse first.operand := by
  rw [groupTerms]
  rfl

theorem groupTerms_of_split? {first : Term α} {links before after : List (Link (Term α) α)}
    {loosest : Link (Term α) α} (found : Link.split? links = some (before, loosest, after)) :
    groupTerms first links = .apply loosest.tag
      (.apply loosest.tag (.var loosest.tag loosest.op.symbol) (groupTerms first before))
      (groupTerms loosest.operand after) := by
  rw [groupTerms]
  split
  · next none =>
    rw [found] at none
    contradiction
  · next other =>
    rw [found] at other
    cases other
    rfl

/-- The tree of a chain by precedence. -/
def Chain.grouped (c : Chain α) : Expr α := groupTerms c.first c.links

section Tags

variable (f : α → β)

/-- The term with every tag replaced. -/
def Term.map (t : Term α) : Term β := ⟨t.signs.map (Prod.map id f), t.operand.map f⟩

/-- The link with every tag replaced. -/
def Link.map (link : Link (Term α) α) : Link (Term β) β := ⟨link.op, f link.tag, link.operand.map f⟩

/-- The chain with every tag replaced. -/
def Chain.map (c : Chain α) : Chain β := ⟨c.first.map f, c.links.map (Link.map f)⟩

theorem Sign.applyAll_map (signs : List (Sign × α)) (e : Expr α) :
    applyAll (signs.map (Prod.map id f)) (e.map f) = (applyAll signs e).map f := by
  induction signs with
  | nil => rfl
  | cons sign signs ih =>
    rw [List.map_cons, applyAll_cons, ih]
    rfl

theorem Link.split?_map (links : List (Link (Term α) α)) : split? (links.map (map f)) =
    (split? links).map fun (before, loosest, after) =>
      (before.map (map f), loosest.map f, after.map (map f)) := by
  induction links with
  | nil => rfl
  | cons link links ih =>
    rw [List.map_cons, split?, split?, ih]
    cases split? links with
    | none => rfl
    | some found =>
      obtain ⟨before, loosest, after⟩ := found
      by_cases lower : link.op.rank < loosest.op.rank <;> simp [map, lower]

theorem groupTerms_map (first : Term α) (links : List (Link (Term α) α)) :
    groupTerms (first.map f) (links.map (Link.map f)) = (groupTerms first links).map f := by
  induction first, links using groupTerms.induct with
  | case1 first links none =>
    rw [Link.split?_eq_none.1 none, List.map_nil, groupTerms_nil, groupTerms_nil, Term.map,
      ← List.map_reverse, Sign.applyAll_map]
  | case2 first links before loosest after found left right =>
    have found' := Link.split?_map f links
    rw [found, Option.map_some] at found'
    rw [groupTerms_of_split? found', groupTerms_of_split? found, left]
    exact congrArg (Expr.apply (f loosest.tag) _) right

theorem Chain.grouped_map (c : Chain α) : (c.map f).grouped = c.grouped.map f :=
  groupTerms_map f c.first c.links

end Tags

theorem Term.toExpr_eq_applyAll (t : Term α) :
    t.toExpr = Sign.applyAll t.signs.reverse t.operand := by
  simp only [Term.toExpr, Sign.applyAll, Sign.apply, Sign.name_eq, List.foldr_reverse]

section Levels

variable {level : Nat} {levels : List Nat} {first : Expr α} {links : List (Link (Expr α) α)}
  {loosest : Link (Expr α) α}

theorem mem_joinLevel {link : Link (Expr α) α} (left : link ∈ (joinLevel level first links).2) :
    link.op.level ≠ level ∧ ∃ l ∈ links, l.op = link.op := by
  induction links generalizing first with
  | nil => contradiction
  | cons l links ih =>
    rw [joinLevel] at left
    split at left
    · obtain ⟨other, l', member, same⟩ := ih left
      exact ⟨other, l', List.mem_cons_of_mem _ member, same⟩
    · next other =>
      rcases List.mem_cons.1 left with rfl | left
      · exact ⟨other, l, List.mem_cons_self, rfl⟩
      · obtain ⟨other, l', member, same⟩ := ih left
        exact ⟨other, l', List.mem_cons_of_mem _ member, same⟩

theorem joinLevels_cons (level : Nat) (levels : List Nat) (first : Expr α)
    (links : List (Link (Expr α) α)) : joinLevels (level :: levels) first links =
      joinLevels levels (joinLevel level first links).1 (joinLevel level first links).2 :=
  rfl

theorem mem_joinLevels {link : Link (Expr α) α} (left : link ∈ (joinLevels levels first links).2) :
    link.op.level ∉ levels ∧ ∃ l ∈ links, l.op = link.op := by
  induction levels generalizing first links with
  | nil => exact ⟨List.not_mem_nil, link, left, rfl⟩
  | cons level levels ih =>
    obtain ⟨others, l, member, same⟩ := ih left
    obtain ⟨other, l', member', same'⟩ := mem_joinLevel member
    exact ⟨mt List.mem_cons.1 (not_or.2 ⟨same ▸ other, others⟩), l', member', same'.trans same⟩

theorem joinLevel_append (other : loosest.op.level ≠ level) (first : Expr α)
    (before after : List (Link (Expr α) α)) : joinLevel level first (before ++ loosest :: after) =
      ((joinLevel level first before).1, (joinLevel level first before).2 ++
        ⟨loosest.op, loosest.tag, (joinLevel level loosest.operand after).1⟩ ::
          (joinLevel level loosest.operand after).2) := by
  induction before generalizing first with
  | nil => simp [joinLevel, other]
  | cons link before ih =>
    rw [List.cons_append, joinLevel, joinLevel]
    split
    · exact ih _
    · rw [ih]
      rfl

theorem joinLevels_append (absent : loosest.op.level ∉ levels) (first : Expr α)
    (before after : List (Link (Expr α) α)) : joinLevels levels first (before ++ loosest :: after) =
      ((joinLevels levels first before).1, (joinLevels levels first before).2 ++
        ⟨loosest.op, loosest.tag, (joinLevels levels loosest.operand after).1⟩ ::
          (joinLevels levels loosest.operand after).2) := by
  induction levels generalizing first before after loosest with
  | nil => rfl
  | cons level levels ih =>
    obtain ⟨other, others⟩ := not_or.1 (mt List.mem_cons.2 absent)
    rw [joinLevels_cons, joinLevel_append other]
    exact @ih ⟨loosest.op, loosest.tag, (joinLevel level loosest.operand after).1⟩ others _ _ _

theorem joinLevel_last (loosest : Link (Expr α) α)
    (each : ∀ link ∈ links, link.op.level = loosest.op.level) (first : Expr α) :
    (joinLevel loosest.op.level first links).2 = [] ∧
      joinLevel loosest.op.level first (links ++ [loosest]) =
        (loosest.op.join loosest.tag (joinLevel loosest.op.level first links).1 loosest.operand, []) := by
  induction links generalizing first with
  | nil => simp [joinLevel]
  | cons link links ih =>
    obtain ⟨same, others⟩ := List.forall_mem_cons.1 each
    rw [List.cons_append, joinLevel, joinLevel, if_pos same, if_pos same]
    exact ih others _

theorem joinLevels_nil (levels : List Nat) (first : Expr α) :
    joinLevels levels first [] = (first, []) := by
  induction levels generalizing first with
  | nil => rfl
  | cons level levels ih => exact ih first

end Levels

/-- The levels in front of that of an operator are the higher ones. -/
theorem Operator.levels_eq (op : Operator) : ∃ tighter looser,
    Operator.levels = tighter ++ op.level :: looser ∧
      ∀ op' : Operator, op'.level ∈ tighter ↔ op.level < op'.level := by
  cases op <;> first
    | exact ⟨[], [2, 1, 0], rfl, fun op' => by cases op' <;> decide⟩
    | exact ⟨[3], [1, 0], rfl, fun op' => by cases op' <;> decide⟩
    | exact ⟨[3, 2], [0], rfl, fun op' => by cases op' <;> decide⟩
    | exact ⟨[3, 2, 1], [], rfl, fun op' => by cases op' <;> decide⟩

theorem joinLevels_append_cons (tighter looser : List Nat) (level : Nat) (first : Expr α)
    (links : List (Link (Expr α) α)) : joinLevels (tighter ++ level :: looser) first links =
      joinLevels looser
        (joinLevel level (joinLevels tighter first links).1 (joinLevels tighter first links).2).1
        (joinLevel level (joinLevels tighter first links).1 (joinLevels tighter first links).2).2 :=
  List.foldl_append

/-- Joining a chain is splitting it at the rightmost link of the lowest level and joining both
sides. -/
theorem joinLevels_split {before after : List (Link (Expr α) α)} (loosest : Link (Expr α) α)
    (lower : ∀ link ∈ before, loosest.op.level ≤ link.op.level)
    (higher : ∀ link ∈ after, loosest.op.level < link.op.level) (first : Expr α) :
    (joinLevels Operator.levels first (before ++ loosest :: after)).1 =
      loosest.op.join loosest.tag (joinLevels Operator.levels first before).1
        (joinLevels Operator.levels loosest.operand after).1 := by
  obtain ⟨tighter, looser, levels, mem⟩ := loosest.op.levels_eq
  have absent : loosest.op.level ∉ tighter := fun member => Nat.lt_irrefl _ ((mem _).1 member)
  -- The higher levels join everything on the right, and leave only the lowest level on the left.
  have right : (joinLevels tighter loosest.operand after).2 = [] := by
    refine List.eq_nil_iff_forall_not_mem.2 fun link left => ?_
    obtain ⟨none, l, member, same⟩ := mem_joinLevels left
    exact none ((mem _).2 (same ▸ higher l member))
  have only : ∀ link ∈ (joinLevels tighter first before).2, link.op.level = loosest.op.level := by
    intro link left
    obtain ⟨none, l, member, same⟩ := mem_joinLevels left
    exact Nat.le_antisymm (Nat.le_of_not_lt (mt (mem _).2 none)) (same ▸ lower l member)
  obtain ⟨none, last⟩ := joinLevel_last
    ⟨loosest.op, loosest.tag, (joinLevels tighter loosest.operand after).1⟩ only
    (joinLevels tighter first before).1
  simp only [levels, joinLevels_append_cons, joinLevels_append absent, right, last, none,
    joinLevels_nil, joinLevel]

theorem joinLevels_eq_groupTerms (first : Term α) (links : List (Link (Term α) α)) :
    (joinLevels Operator.levels first.toExpr
      (links.map fun link => ⟨link.op, link.tag, link.operand.toExpr⟩)).1 =
        groupTerms first links := by
  induction first, links using groupTerms.induct with
  | case1 first links none =>
    rw [Link.split?_eq_none.1 none, List.map_nil, joinLevels_nil, groupTerms_nil,
      Term.toExpr_eq_applyAll]
  | case2 first links before loosest after found left right =>
    obtain ⟨parts, lower, higher⟩ := Link.split?_some found
    rw [groupTerms_of_split? found, ← left, ← right, parts, List.map_append, List.map_cons]
    simp only [← Operator.level_eq_rank] at lower higher
    refine joinLevels_split ⟨loosest.op, loosest.tag, loosest.operand.toExpr⟩ ?_ ?_ _
    · exact List.forall_mem_map.2 lower
    · exact List.forall_mem_map.2 higher

/-- Joining the operators of a chain level by level groups it by precedence. -/
theorem Chain.toExpr_eq_grouped (c : Chain α) : c.toExpr = c.grouped :=
  joinLevels_eq_groupTerms c.first c.links

end Formula
