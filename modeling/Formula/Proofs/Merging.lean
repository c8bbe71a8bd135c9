import Formula.Proofs.Failures
import Formula.Proofs.Negation
import Formula.Proofs.Workspace
import Formula.Value.Text

/-! Merged nodes. A context answers with an earlier node where a host looks up one that is equal to it,
and the two may only be told apart by zeros: the two zeros are equal and are shown with their signs.
Main statement: the node that is found and the node that was looked up fail with the same cause or
give values that are shown alike, unless both are literals with zeros of opposite signs. -/
namespace Formula

theorem eq_of_sameNumber_of_isNegative_eq {x y : Float} (same : sameNumber x y = true)
    (sign : isNegative x = isNegative y) : x = y := by
  cases negative : isNegative x with
  | false => exact eq_of_sameNumber negative (sign.symm.trans negative) same
  | true =>
    -- Without their signs the numbers are the same, too.
    have negative' : isNegative y = true := sign.symm.trans negative
    have opposite : sameNumber (-x) (-y) = true := by
      rcases sameNumber_iff.1 same with rfl | ⟨zeroX, zeroY⟩
      · exact sameNumber_refl _
      · exact sameNumber_iff.2 (.inr ⟨isZero_neg.2 zeroX, isZero_neg.2 zeroY⟩)
    have equal := eq_of_sameNumber (unsigned_neg negative) (unsigned_neg negative') opposite
    rw [← neg_neg_number x, equal, neg_neg_number]

namespace Value

mutual

/-- Whether zeros at the same place of two values have the same sign. -/
def zerosAgree : Value → Value → Bool
  | .number x, .number y => !(x == 0 && y == 0) || isNegative x == isNegative y
  | .vector vs, .vector ws => zerosAgreeAll vs ws
  | _, _ => true

def zerosAgreeAll : List Value → List Value → Bool
  | v :: vs, w :: ws => zerosAgree v w && zerosAgreeAll vs ws
  | _, _ => true

end

/-- Values that are the same are shown alike, unless zeros differ in their signs. -/
theorem text_eq_of_same {v w : Value} (same : v.same w = true) (agree : v.zerosAgree w = true) :
    v.text = w.text := by
  induction v generalizing w with
  | number x =>
    cases w <;> simp only [Value.same, Bool.false_eq_true] at same
    next y =>
    rcases sameNumber_iff.1 same with rfl | ⟨zeroX, zeroY⟩
    · rfl
    · rw [zerosAgree, beq_zero_iff.2 zeroX, beq_zero_iff.2 zeroY, Bool.and_self, Bool.not_true,
        Bool.false_or, beq_iff_eq] at agree
      rw [eq_of_sameNumber_of_isNegative_eq same agree]
  | string | bool => cases w <;> simp_all [Value.same]
  | function => cases w <;> simp_all [Value.same, text]
  | vector vs ih =>
    cases w <;> simp only [Value.same, Bool.false_eq_true] at same
    next ws =>
    rw [zerosAgree] at agree
    have shown : texts vs = texts ws := by
      induction vs generalizing ws with
      | nil => cases ws <;> simp_all [sameAll]
      | cons v vs rest =>
        cases ws <;> simp only [sameAll, Bool.false_eq_true, Bool.and_eq_true] at same
        next w ws =>
        rw [zerosAgreeAll, Bool.and_eq_true] at agree
        rw [texts, texts, ih v List.mem_cons_self same.1 agree.1,
          rest (fun u member => ih u (List.mem_cons_of_mem _ member)) ws same.2 agree.2]
    rw [text, text, shown]

end Value

/-- Failures with the same cause, or values that are shown alike. -/
inductive Outcome.Alike : Outcome → Outcome → Prop
  | failed {e f : RuntimeError} (cause : e.cause = f.cause) : Alike (.error e) (.error f)
  | found {v w : Value} (text : v.text = w.text) : Alike (.ok v) (.ok w)

namespace Outcome.Alike

variable {σ α : Type}

theorem refl (outcome : Outcome) : Alike outcome outcome := by
  cases outcome with
  | error e => exact .failed rfl
  | ok v => exact .found rfl

theorem andThen (run : Except RuntimeError α × Machine σ) {k l : α → Machine σ → Outcome × Machine σ}
    (later : ∀ v s, Alike (k v s).1 (l v s).1) :
    Alike (Machine.andThen run k).1 (Machine.andThen run l).1 := by
  obtain ⟨_ | v, s⟩ := run
  · exact .failed rfl
  · exact later v s

theorem applyAt (call : Caller σ) (t t' : Tag) (callee : Callee) (captured : List Value) (arg : Value)
    (s : Machine σ) :
    Alike (applyAt call t callee captured arg s).1 (applyAt call t' callee captured arg s).1 := by
  unfold Formula.applyAt
  rcases call callee captured arg s.world with ⟨(error | text) | v, world⟩
  · exact .failed rfl
  · exact .failed rfl
  · exact .found rfl

end Outcome.Alike

namespace Node

section Merging

variable {nodes : List Node} {m n : Node}

theorem eq_of_isSame (coherent : Coherent nodes) (first : m ∈ nodes) (second : n ∈ nodes)
    (same : isSame m n = true) : m = n :=
  coherent m first n second (beq_iff_eq.1 same)

theorem eq_of_areSame (coherent : Coherent nodes) {ms ns : List Node} (first : ms ⊆ nodes)
    (second : ns ⊆ nodes) (same : areSame ms ns = true) : ms = ns := by
  induction ms generalizing ns with
  | nil => cases ns <;> simp_all [areSame]
  | cons m ms ih =>
    cases ns <;> simp only [areSame, Bool.false_eq_true, Bool.and_eq_true] at same
    next n ns =>
    obtain ⟨headM, tailM⟩ := List.cons_subset.1 first
    obtain ⟨headN, tailN⟩ := List.cons_subset.1 second
    rw [eq_of_isSame coherent headM headN same.1, ih tailM tailN same.2]

/-- Nodes that are equal when their children are the very same differ in their tags, and literals also
in their values. -/
inductive Merged : Node → Node → Prop
  | literal {t t' v w} (same : v.same w = true) : Merged (.literal t v) (.literal t' w)
  | vector {t t' es} : Merged (.vector t es) (.vector t' es)
  | var {t t' x} : Merged (.var t x) (.var t' x)
  | apply {t t' f x} : Merged (.apply t f x) (.apply t' f x)

theorem merged_of_sameShape (coherent : Coherent nodes) (first : Expr.children m ⊆ nodes)
    (second : Expr.children n ⊆ nodes) (same : sameShape m n = true) : Merged m n := by
  cases m <;> cases n <;>
    simp only [sameShape, Bool.false_eq_true, Bool.and_eq_true, beq_iff_eq] at same
  case literal.literal => exact .literal same
  case vector.vector =>
    obtain rfl := eq_of_areSame coherent first second same
    exact .vector
  case var.var =>
    obtain rfl := same
    exact .var
  case apply.apply =>
    simp only [Expr.children, List.cons_subset] at first second
    obtain rfl := eq_of_isSame coherent first.1 second.1 same.1
    obtain rfl := eq_of_isSame coherent first.2.1 second.2.1 same.2
    exact .apply

variable {σ : Type} (call : Caller σ) (limit : Nat)

theorem Merged.body_alike (merged : Merged m n) (env : Env) (s : Machine σ) :
    (m.body call limit env s).1.Alike (n.body call limit env s).1 ∨ ∃ t t' v w,
      m = .literal t v ∧ n = .literal t' w ∧ v.same w = true ∧ v.zerosAgree w = false := by
  cases merged with
  | @literal t t' v w same =>
    cases agree : v.zerosAgree w
    · exact .inr ⟨t, t', v, w, rfl, rfl, same, agree⟩
    · exact .inl (.found (Value.text_eq_of_same same agree))
  | vector => exact .inl (.refl _)
  | @var t t' x =>
    refine .inl ?_
    simp only [body]
    cases env.lookup? x
    · exact .failed rfl
    · exact .found rfl
  | apply =>
    refine .inl (.andThen _ fun v s => ?_)
    cases v with
    | function callee captured =>
      exact .andThen _ fun arg s => .applyAt call _ _ callee captured arg s
    | _ => exact .failed rfl

theorem eval_initial (room : 0 < limit) (n : Node) (env : Env) (world : σ) :
    (n.eval call limit env (.initial world)).1 =
      (n.body call limit env (Machine.initial world).deeper).1 :=
  Point.Entered.outcome (p := ⟨n, env, .initial world⟩)
    ⟨Std.HashMap.getElem?_empty, Nat.not_le_of_lt room⟩

/-- Merged nodes evaluate alike where no node keeps a value, literals with zeros of opposite signs
aside. -/
theorem Merged.eval_alike (merged : Merged m n) (env : Env) (world : σ) :
    (m.eval call limit env (.initial world)).1.Alike (n.eval call limit env (.initial world)).1 ∨
      ∃ t t' v w, m = .literal t v ∧ n = .literal t' w ∧ v.same w = true ∧ v.zerosAgree w = false := by
  rcases Nat.eq_zero_or_pos limit with rfl | room
  · rw [eval_eq_enter, eval_eq_enter, Machine.enter_deep Std.HashMap.getElem?_empty (Nat.zero_le _),
      Machine.enter_deep Std.HashMap.getElem?_empty (Nat.zero_le _)]
    exact .inl (.failed rfl)
  · rw [eval_initial call limit room, eval_initial call limit room]
    exact merged.body_alike call limit env _

end Merging

end Node

namespace Workspace

variable {σ : Type}

/-- Sharing is sound but for the signs of zeros. In whatever workspace a host has come to, with nodes
shared or not, let any of the nodes be registered in a context, and look a node at hand up in it. The
node that is answered and the node that was looked up, evaluated where no node keeps a value, fail
with the same cause or give values that are shown alike, unless both are literals whose values are
the same but for zeros of opposite signs. -/
theorem seek_evaluates_alike (call : Caller σ) (limit : Nat) (world : σ) {w : Workspace σ}
    (reached : (initial world).Reaches call w) {r : Register}
    (registered : r.nodes ⊆ w.nodes ++ w.register.nodes) {n : Node} (atHand : n ∈ w.nodes)
    (env : Env) (start : σ) :
    ((r.seek n).1.eval call limit env (.initial start)).1.Alike
        (n.eval call limit env (.initial start)).1 ∨
      ∃ t t' u v, (r.seek n).1 = .literal t u ∧ n = .literal t' v ∧ u.same v = true ∧
        u.zerosAgree v = false := by
  have wf := reached.wellFormed
  have closed : ∀ m ∈ w.nodes ++ w.register.nodes,
      Expr.children m ⊆ w.nodes ++ w.register.nodes := by
    intro m member c child
    rcases List.mem_append.1 member with old | seen
    · exact List.mem_append_left _ (wf.children m old c child)
    · exact List.mem_append_right _ (wf.shared.children m seen c child)
  unfold Register.seek
  rw [← Array.find?_toList]
  split
  · next found known =>
    have seen := registered (List.mem_of_find?_eq_some known)
    have shape : Node.sameShape found n = true := List.find?_some (p := (Node.sameShape · n)) known
    exact (Node.merged_of_sameShape wf.shared.coherent (closed found seen)
      (closed n (List.mem_append_left _ atHand)) shape).eval_alike call limit env start
  · exact .inl (.refl _)

namespace Merging

/-- `[0, -0, x, x]`, where `-0` is one literal. -/
def tree : Expr Position :=
  .vector .unknown [.literal .unknown (.number 0), .literal .unknown (.number (-0)),
    .var .unknown "x", .var .unknown "x"]

def zero : Node := .literal ⟨1, .unknown⟩ (.number 0)

def negativeZero : Node := .literal ⟨2, .unknown⟩ (.number (-0))

def first : Node := .var ⟨3, .unknown⟩ "x"

def second : Node := .var ⟨4, .unknown⟩ "x"

def workspace : Workspace Unit := (initial ()).build tree

/-- A context in which the zero and the first variable are registered. -/
def register : Register := (((Register.empty 5).seek zero).2.seek first).2

theorem reached (call : Caller Unit) : (initial ()).Reaches call workspace := .single (.build tree)

theorem nodes_workspace : workspace.nodes =
    [.vector ⟨0, .unknown⟩ [zero, negativeZero, first, second], zero, negativeZero, first, second] :=
  rfl

theorem nodes_register : register.nodes = [zero, first] := rfl

theorem registered : register.nodes ⊆ workspace.nodes ++ workspace.register.nodes := by
  simp [nodes_register, nodes_workspace]

theorem same_zeros : (Value.number 0).same (.number (-0)) = true :=
  sameNumber_iff.2 (.inr ⟨⟨.positive, rfl⟩, isZero_neg.2 ⟨.positive, rfl⟩⟩)

end Merging

/-- The second variable is answered with the first one, and both are unbound. -/
theorem seek_evaluates_alike_variable :
    (Merging.register.seek Merging.second).1 = Merging.first ∧
      (Merging.first.eval Node.giveBack 9 .empty (.initial ())).1.Alike
        (Merging.second.eval Node.giveBack 9 .empty (.initial ())).1 := by
  have found : (Merging.register.seek Merging.second).1 = Merging.first := rfl
  refine ⟨found, ?_⟩
  rcases seek_evaluates_alike Node.giveBack 9 () (Merging.reached _) Merging.registered
    (n := Merging.second) (by simp [Merging.nodes_workspace]) .empty () with alike | literals
  · rwa [found] at alike
  · obtain ⟨_, _, _, _, _, other, _⟩ := literals
    cases other

/-- The negative zero is answered with the zero, which is shown without a sign. -/
theorem seek_forgets_sign_of_zero :
    (initial ()).Reaches Node.giveBack Merging.workspace ∧
      Merging.zero ∈ Merging.workspace.nodes ∧ Merging.negativeZero ∈ Merging.workspace.nodes ∧
      (Merging.register.seek Merging.negativeZero).1 = Merging.zero ∧
      (Merging.zero.eval Node.giveBack defaultDepthLimit .empty (.initial ())).1 = .ok (.number 0) ∧
      (Merging.negativeZero.eval Node.giveBack defaultDepthLimit .empty (.initial ())).1 =
        .ok (.number (-0)) ∧
      (Value.number 0).text = "0" ∧ (Value.number (-0)).text = "-0" := by
  have shownZero : Number.text 0 = "0" := by
    unfold Number.text Number.spell
    decide +kernel
  have shownNegative : Number.text (-0) = "-0" := by
    unfold Number.text Number.spell
    decide +kernel
  refine ⟨Merging.reached _, ?_, ?_, ?_, Node.eval_initial _ _ (by decide) _ _ _,
    Node.eval_initial _ _ (by decide) _ _ _, shownZero, shownNegative⟩
  · simp [Merging.nodes_workspace]
  · simp [Merging.nodes_workspace]
  · have shape : Merging.zero.sameShape Merging.negativeZero = true := Merging.same_zeros
    unfold Register.seek
    rw [← Array.find?_toList]
    rw [show Merging.register.seen.toList = [Merging.zero, Merging.first] from rfl,
      List.find?_cons_of_pos (p := (Node.sameShape · Merging.negativeZero)) shape]

end Workspace

end Formula
