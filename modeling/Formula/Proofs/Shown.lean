import Formula.Proofs.Negation
import Formula.Proofs.Places
import Formula.Proofs.Predefined

/-! Numbers and vectors that are shown and read again. A negative number is shown with a sign, which is
read as an application of the negation. Main statement: the shown form of such a value is parsed,
with one level for the sign, and comes to the very value. -/
namespace Formula

open Nesting

namespace Value

mutual

/-- The tree as which the shown form of a numeric value is read. -/
def form : Value → Expr Unit
  | .number x =>
    if isNegative x then .apply () (.var () Sign.minus.name) (.literal () (.number (-x)))
    else .literal () (.number x)
  | .vector elems => .vector () (forms elems)
  | v => .literal () v

def forms : List Value → List (Expr Unit)
  | [] => []
  | v :: vs => form v :: forms vs

end

theorem forms_eq_map (vs : List Value) : forms vs = vs.map form := by
  induction vs with
  | nil => rfl
  | cons v vs ih => rw [forms, ih, List.map_cons]

variable {x : Float} {v : Value} {vs : List Value} {levels : Nat}

theorem form_negative (negative : isNegative x = true) : form (.number x) =
    .apply () (.var () Sign.minus.name) (.literal () (.number (-x))) := if_pos negative

theorem form_unsigned (unsigned : isNegative x = false) :
    form (.number x) = .literal () (.number x) := if_neg (by simp [unsigned])

theorem chars_form_negative (negative : isNegative x = true) :
    (form (.number x)).chars = '-' :: (Expr.literal () (.number (-x))).chars := by
  have simple : (Expr.literal () (.number (-x))).isSimple = true := by
    simp [Expr.isSimple, unsigned_neg negative]
  rw [form_negative negative, Expr.chars_sign (s := .minus) (by decide), simple]
  rfl

theorem Numeric.text_form (numeric : v.Numeric levels) : v.form.text = v.text := by
  induction numeric with
  | @number levels x =>
    cases negative : isNegative x with
    | false => rw [form_unsigned negative, Expr.text]
    | true =>
      refine String.toList_injective ((chars_form_negative negative).trans ?_)
      rw [text, Number.text_negative negative, String.toList_append]
      rfl
  | @vector levels elems each ih =>
    have same : Expr.texts (forms elems) = texts elems := by
      clear each
      induction elems with
      | nil => rfl
      | cons v vs later =>
        rw [forms, Expr.texts, texts, ih v List.mem_cons_self,
          later fun w member => ih w (List.mem_cons_of_mem _ member)]
    rw [form, Expr.text, text, same]

theorem Numeric.printable_form (numeric : v.Numeric levels) : v.form.Printable := by
  induction numeric with
  | @number levels x =>
    cases negative : isNegative x with
    | false =>
      rw [form_unsigned negative]
      exact .number (.inr negative)
    | true =>
      rw [form_negative negative]
      exact .apply (.var (by decide)) (.number (.inr (unsigned_neg negative)))
  | @vector levels elems each ih =>
    rw [form, forms_eq_map]
    exact .vector (List.forall_mem_map.2 ih)

theorem Numeric.height_form (numeric : v.Numeric levels) : v.form.height ≤ levels + 2 := by
  induction numeric with
  | @number levels x =>
    rw [form]
    split <;> simp [Expr.height]
  | @vector levels elems each ih =>
    rw [form, forms_eq_map, Expr.height_le_iff]
    exact List.forall_mem_map.2 ih

theorem Numeric.meaning_form {place : Unit → Position} {names : Names}
    (sign : names Sign.minus.name = some (.ofBuiltin (.unary .negate))) (numeric : v.Numeric levels) :
    v.form.meaning .alone place names = .ok v := by
  induction numeric with
  | @number levels x =>
    cases negative : isNegative x with
    | false =>
      rw [form_unsigned negative]
      rfl
    | true =>
      rw [form_negative negative]
      refine Expr.meaning_apply_ok.2 ⟨_, _, _, Expr.meaning_var_ok.2 sign, rfl, ?_⟩
      change Except.ok (Value.number (-(-x))) = _
      rw [neg_neg_number]
  | @vector levels elems each ih =>
    rw [form]
    refine Expr.meaning_vector_ok.2 ⟨elems, ?_, rfl⟩
    clear each
    induction elems with
    | nil => rfl
    | cons v vs later =>
      exact Expr.meanings_cons_ok.2 ⟨v, vs, ih v List.mem_cons_self,
        later fun w member => ih w (List.mem_cons_of_mem _ member), rfl⟩

/-- The scan for nesting finds nothing in the shown form where there is room for one more level than
the vectors take. -/
theorem Numeric.quiet_form {limit : Nat} {opened : List Opener} {rest : List Char}
    (numeric : v.Numeric levels) (stops : Stops rest) (room : opened.length + levels + 1 ≤ limit)
    (leaves : Leaves limit opened 1 rest) : Quiet limit opened 0 (v.form.chars ++ rest) := by
  induction numeric generalizing opened rest with
  | @number levels x =>
    have written {y : Float} {operators : Nat} (unsigned : isNegative y = false) :
        Quiet limit opened operators ((Expr.literal () (.number y)).chars ++ rest) :=
      quiet_number (Expr.numberForm (.inr unsigned)) stops leaves
    cases negative : isNegative x with
    | false =>
      rw [form_unsigned negative]
      exact written negative
    | true =>
      have positive := unsigned_neg negative
      have head := Expr.argument_head (x := .literal () (.number (-x))) (.number (.inr positive)) stops
      rw [chars_form_negative negative, List.cons_append]
      refine (written positive).operatorChar (by decide) ?_ (by omega)
      simpa [Expr.isSimple, positive, Expr.wrapped] using head
  | @vector levels elems each ih =>
    rw [form, forms_eq_map, Expr.chars_vector, List.cons_append, List.append_assoc]
    refine (Expr.quiet_elements (fun _ => 1) (List.forall_mem_map.2 ?_)
      (leaves.quiet (Nat.zero_le 1))).openBracket (.inr rfl) (by omega)
    intro v member r stops inner
    exact ih v member stops (by simp; omega) inner

end Value

namespace Expr

variable {α β : Type}

theorem height_same {e : Expr α} {f : Expr β} (alike : e.same f = true) : e.height = f.height := by
  induction e generalizing f with
  | literal | var => cases f <;> first | rfl | simp [same] at alike
  | vector t es ih =>
    cases f with
    | vector t' fs =>
      refine congrArg (· + 1) ?_
      have each := sameAll_iff.1 alike
      clear alike
      induction each with
      | nil => rfl
      | @cons e f es fs head tail later =>
        rw [heights, heights, ih e List.mem_cons_self head,
          later fun e member => ih e (List.mem_cons_of_mem _ member)]
    | _ => simp [same] at alike
  | apply t g x ihg ihx =>
    cases f with
    | apply t' g' x' =>
      rw [same, Bool.and_eq_true] at alike
      rw [height, height, ihg alike.1, ihx alike.2]
    | _ => simp [same] at alike
  | letIn t x b e ihb ihe =>
    cases f with
    | letIn t' x' b' e' =>
      rw [same, Bool.and_eq_true, Bool.and_eq_true] at alike
      rw [height, height, ihb alike.1.2, ihe alike.2]
    | _ => simp [same] at alike

end Expr

/-- The shown form is read as its tree, with one level more than the vectors take. -/
theorem Value.Numeric.parsed {levels depth : Nat} {v : Value} (numeric : v.Numeric levels)
    (deep : levels + 1 ≤ depth) (source : String) :
    ∃ tree, parseWithin depth source v.text = .ok tree ∧ tree.same v.form = true := by
  have shallow : nestingExcess? depth v.form.chars = none := by
    have quiet : Quiet depth [] 0 (v.form.chars ++ []) :=
      numeric.quiet_form .nil (by simpa using deep) fun n _ k _ offset => by rw [excess?]
    rw [List.append_nil] at quiet
    exact quiet 0
  obtain ⟨draft, read, alike⟩ := numeric.printable_form.readText
  rw [Expr.chars, numeric.text_form] at shallow read
  exact ⟨_, parseWithin_ok.2 ⟨shallow, draft, read, rfl⟩,
    Expr.same_trans (Expr.map_same _ draft) alike⟩

/-- A value that is shown comes back: the shown form of a value of numbers and vectors is parsed, with
one level more than its vectors nest, and what was read comes to the very value, the sign of zero
included, in every limit that leaves room for two nodes more. -/
theorem Session.eval_shown {σ : Type} (host : Nat → List Value → Value → σ → Except Fault Value × σ)
    (world : σ) {levels depth limit : Nat} {v : Value} (numeric : v.Numeric levels)
    (deep : levels + 1 ≤ depth) (room : levels + 2 ≤ limit) (source : String) :
    ∃ tree, parseWithin depth source v.text = .ok tree ∧
      let (n, s) := (initial world).build tree
      (s.eval (.ofHost host) limit n .prelude).1 = .ok v := by
  obtain ⟨tree, parsed, reread⟩ := numeric.parsed deep source
  refine ⟨tree, parsed, ?_⟩
  have printable := (initial world).printable_build (parseWithin_printable parsed)
  have mapped : Expr.map Tag.position ((initial world).build tree).1 = tree :=
    (Node.labelled tree _).mapped
  have labelled := Expr.map_same Tag.position ((initial world).build tree).1
  rw [mapped] at labelled
  have same := Expr.same_trans (Expr.same_symm labelled) reread
  have sign : Env.prelude.lookup? Sign.minus.name = some (.ofBuiltin (.unary .negate)) := by
    with_unfolding_all rfl
  have written : v.form.meaning .alone (fun _ => .unknown) Env.prelude.lookup? = .ok v :=
    numeric.meaning_form sign
  have meant : Node.meaning .alone ((initial world).build tree).1 Env.prelude.lookup? = .ok v :=
    Expr.meaning_same (fun _ _ _ _ => id) numeric.printable_form printable (Expr.same_symm same)
      written
  have low : Expr.height ((initial world).build tree).1 ≤ limit :=
    (Expr.height_same same).trans_le (numeric.height_form.trans room)
  have run := (build_faithful Caller.alone_answers world tree limit .prelude).exact
    ((Nat.zero_add _).trans_le low)
  have alone := (Engine.prepare_confined host world false limit parsed).same
  exact (congrArg Prod.fst alone).trans (run.trans meant)

/-- The negative zero, NaN and the negative infinity, and a vector of nothing. -/
def mixed : Value :=
  .vector [.number (-0), .vector [.number (0 / 0), .number (-(1 / 0))], .vector []]

theorem Session.eval_shown_mixed :
    mixed.Numeric 2 ∧ mixed.text = "[-0, [NaN, -Infinity], []]" ∧
      ∃ tree, parseWithin 3 "s" mixed.text = .ok tree ∧
        let (n, s) := (initial ()).build tree
        (s.eval .alone 4 n .prelude).1 = .ok mixed := by
  have numeric : mixed.Numeric 2 := by
    refine .vector fun v member => ?_
    simp only [List.mem_cons, List.not_mem_nil, or_false] at member
    rcases member with rfl | rfl | rfl
    · exact .number
    · exact .vector (by simp [Value.Numeric.number])
    · exact .vector (by simp)
  exact ⟨numeric, by decide +kernel,
    eval_shown (fun _ _ _ world => (.error (.host ""), world)) () numeric (by decide) (by decide) "s"⟩

end Formula
