import Formula.Proofs.Trees
import Formula.Evaluator

/-! Places of nodes in a tree: a node and the number of nodes above it. Where nodes are shared, one node
has many places, and only the first one counts if what a node gives is kept. -/
namespace Formula

namespace Expr

variable {α : Type}

mutual

/-- The nodes of a tree from the root down, each with the number of nodes above it. -/
def placed (depth : Nat) : Expr α → List (Nat × Expr α)
  | e@(.literal _ _) | e@(.var _ _) => [(depth, e)]
  | e@(.vector _ es) => (depth, e) :: placedAll (depth + 1) es
  | e@(.apply _ f x) => (depth, e) :: (placed (depth + 1) f ++ placed (depth + 1) x)
  | e@(.letIn _ _ b c) => (depth, e) :: (placed (depth + 1) b ++ placed (depth + 1) c)

def placedAll (depth : Nat) : List (Expr α) → List (Nat × Expr α)
  | [] => []
  | e :: es => placed depth e ++ placedAll depth es

end

theorem placedAll_eq_flatMap (depth : Nat) (es : List (Expr α)) :
    placedAll depth es = es.flatMap (placed depth) := by
  induction es with
  | nil => rfl
  | cons e es ih => rw [placedAll, ih, List.flatMap_cons]

theorem placed_eq (depth : Nat) (e : Expr α) :
    e.placed depth = (depth, e) :: e.children.flatMap (placed (depth + 1)) := by
  cases e <;> simp [placed, children, placedAll_eq_flatMap]

theorem map_placed (depth : Nat) (e : Expr α) : (e.placed depth).map Prod.snd = e.preorder := by
  induction e using induct_children generalizing depth with
  | node e ih =>
    rw [placed_eq, preorder_eq, List.map_cons, List.map_flatMap]
    exact congrArg _ (List.flatMap_congr fun c child => ih c child (depth + 1))

theorem mem_preorder_of_placed {e : Expr α} {depth : Nat} {p : Nat × Expr α}
    (member : p ∈ e.placed depth) : p.2 ∈ e.preorder :=
  map_placed depth e ▸ List.mem_map_of_mem member

theorem heights_le_iff {es : List (Expr α)} {k : Nat} :
    heights es ≤ k ↔ ∀ e ∈ es, e.height ≤ k := by
  induction es with
  | nil => simp [heights]
  | cons e es ih => simp [heights, ih]

theorem height_le_iff {e : Expr α} {k : Nat} : e.height ≤ k + 1 ↔ ∀ c ∈ e.children, c.height ≤ k := by
  cases e <;> simp [height, children, heights_le_iff]

theorem height_pos (e : Expr α) : 0 < e.height := by
  cases e <;> simp [height]

/-- The height is one more than the number of nodes above the lowest node. -/
theorem placed_lt_iff {e : Expr α} {depth limit : Nat} :
    (∀ p ∈ e.placed depth, p.1 < limit) ↔ depth + e.height ≤ limit := by
  induction e using induct_children generalizing depth with
  | node e ih =>
    have below : (∀ p ∈ e.children.flatMap (placed (depth + 1)), p.1 < limit) ↔
        ∀ c ∈ e.children, depth + 1 + c.height ≤ limit := by
      rw [List.forall_mem_flatMap]
      exact forall₂_congr fun c child => ih c child
    rw [placed_eq, List.forall_mem_cons, below]
    constructor
    · rintro ⟨here, lower⟩
      have low : e.height ≤ limit - (depth + 1) + 1 := height_le_iff.2 fun c child => by
        have := lower c child
        omega
      omega
    · intro room
      have := e.height_pos
      refine ⟨by omega, fun c child => ?_⟩
      have low : e.height ≤ limit - (depth + 1) + 1 := by omega
      have := height_le_iff.1 low c child
      omega

end Expr

/-- A node at a place of a tree: the number of nodes above it, and the node. -/
abbrev Place := Nat × Node

namespace Place

variable {known : Nat → Bool} {ps qs : List Place}

/-- What is known after the nodes at some places were evaluated. -/
def after (known : Nat → Bool) (ps : List Place) : Nat → Bool :=
  fun i => known i || ps.any fun p => p.2.identity == i

/-- The first place of every node whose value is not known before. -/
def firstMet (known : Nat → Bool) : List Place → List Place
  | [] => []
  | p :: ps => if known p.2.identity then firstMet known ps else p :: firstMet (after known [p]) ps

theorem after_nil : after known [] = known := by
  funext i
  simp [after]

theorem after_append : after known (ps ++ qs) = after (after known ps) qs := by
  funext i
  simp [after, Bool.or_assoc]

theorem after_known (all : ∀ p ∈ ps, known p.2.identity = true) : after known ps = known := by
  funext i
  refine Bool.or_eq_left_iff_imp.2 fun met => ?_
  obtain ⟨p, member, same⟩ := List.any_eq_true.1 met
  exact beq_iff_eq.1 same ▸ all p member

theorem firstMet_known (all : ∀ p ∈ ps, known p.2.identity = true) : firstMet known ps = [] := by
  induction ps with
  | nil => rfl
  | cons p ps ih =>
    obtain ⟨here, later⟩ := List.forall_mem_cons.1 all
    rw [firstMet, if_pos here, ih later]

theorem firstMet_append :
    firstMet known (ps ++ qs) = firstMet known ps ++ firstMet (after known ps) qs := by
  induction ps generalizing known with
  | nil => rw [after_nil]; rfl
  | cons p ps ih =>
    have further : after known (p :: ps) = after (after known [p]) ps := @after_append known [p] ps
    rw [List.cons_append, firstMet, firstMet, further]
    split
    · next here => rw [ih, after_known (List.forall_mem_singleton.2 here)]
    · rw [ih, List.cons_append]

theorem firstMet_subset : firstMet known ps ⊆ ps := by
  induction ps generalizing known with
  | nil => exact List.Subset.refl _
  | cons p ps ih =>
    rw [firstMet]
    split
    · exact List.subset_cons_of_subset _ ih
    · exact List.cons_subset_cons _ ih

theorem firstMet_congr {known' : Nat → Bool}
    (alike : ∀ p ∈ ps, known p.2.identity = known' p.2.identity) :
    firstMet known ps = firstMet known' ps := by
  induction ps generalizing known known' with
  | nil => rfl
  | cons p ps ih =>
    obtain ⟨here, later⟩ := List.forall_mem_cons.1 alike
    have further : firstMet (after known [p]) ps = firstMet (after known' [p]) ps :=
      ih fun q member => by simp only [after, later q member]
    rw [firstMet, firstMet, here, ih later, further]

/-- Where no node stands twice and none has a value, all are met. -/
theorem firstMet_once (once : (ps.map fun p => p.2.identity).Nodup)
    (unknown : ∀ p ∈ ps, known p.2.identity = false) : firstMet known ps = ps := by
  induction ps generalizing known with
  | nil => rfl
  | cons p ps ih =>
    obtain ⟨here, later⟩ := List.forall_mem_cons.1 unknown
    obtain ⟨apart, once⟩ := List.nodup_cons.1 once
    rw [firstMet, here, if_neg Bool.false_ne_true, ih once]
    intro q member
    have different : p.2.identity ≠ q.2.identity := fun same =>
      apart (List.mem_map.2 ⟨q, member, same.symm⟩)
    simp [after, later q member, different]

/-- What a run that is to find `v` comes to if it meets nodes at these places: the first one with too
many nodes above it ends the run. -/
def orTooDeep {α : Type} (limit : Nat) (ps : List Place) (v : α) : Except RuntimeError α :=
  match ps.find? fun p => limit ≤ p.1 with
  | some p => .error ⟨[p.2.position], .tooDeep p.1 limit⟩
  | none => .ok v

section
variable {α β : Type} {limit : Nat} {v : α}

theorem orTooDeep_ok {w : α} : orTooDeep limit ps v = .ok w ↔ (∀ p ∈ ps, p.1 < limit) ∧ v = w := by
  unfold orTooDeep
  split
  · next p found =>
    have deep : limit ≤ p.1 := by simpa using List.find?_some found
    have member := List.mem_of_find?_eq_some found
    exact ⟨fun ok => (by cases ok), fun ⟨room, _⟩ => absurd (room p member) (by omega)⟩
  · next absent =>
    have room : ∀ p ∈ ps, p.1 < limit := fun p member => by
      simpa using List.find?_eq_none.1 absent p member
    exact ⟨fun ok => ⟨room, Except.ok.inj ok⟩, fun ⟨_, same⟩ => congrArg _ same⟩

theorem orTooDeep_error {e : RuntimeError} (failed : orTooDeep limit ps v = .error e) :
    ∃ p ∈ ps, limit ≤ p.1 ∧ e = ⟨[p.2.position], .tooDeep p.1 limit⟩ := by
  unfold orTooDeep at failed
  split at failed
  · next p found =>
    cases failed
    exact ⟨p, List.mem_of_find?_eq_some found, by simpa using List.find?_some found, rfl⟩
  · cases failed

theorem orTooDeep_cons_deep {p : Place} (deep : limit ≤ p.1) :
    orTooDeep limit (p :: ps) v = .error ⟨[p.2.position], .tooDeep p.1 limit⟩ := by
  simp [orTooDeep, deep]

theorem orTooDeep_cons {p : Place} (room : ¬ limit ≤ p.1) :
    orTooDeep limit (p :: ps) v = orTooDeep limit ps v := by
  simp [orTooDeep, room]

theorem orTooDeep_bind : orTooDeep limit ps v = orTooDeep limit ps () >>= fun _ => .ok v := by
  unfold orTooDeep
  cases ps.find? fun p => limit ≤ p.1 <;> rfl

theorem orTooDeep_append (w : β) :
    orTooDeep limit (ps ++ qs) w = orTooDeep limit ps v >>= fun _ => orTooDeep limit qs w := by
  unfold orTooDeep
  rw [List.find?_append]
  cases ps.find? fun p => limit ≤ p.1 <;> rfl

end

end Place

end Formula
