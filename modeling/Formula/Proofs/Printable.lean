import Formula.Proofs.Equality
import Formula.Proofs.Meaning
import Formula.Proofs.ReadTrees
import Formula.Proofs.Unsigned

/-! Trees that have a written form of their own: their literals are numbers without a sign, and their
names can be written where they stand. Main statements: every tree that is read is of this kind,
and on trees of this kind structural equality preserves values. -/
namespace Formula

/-- A word that is not reserved. -/
def isIdentifier (name : String) : Bool :=
  match name.toList with
  | [] => false
  | c :: cs => Lexeme.startsWord c && cs.all Lexeme.continuesWord && !State.reserved.contains (c :: cs)

/-- A name that can be written as a variable, alone or after `op`. -/
def isVariable (name : String) : Bool :=
  isIdentifier name || (isOperatorName name && name ≠ "=") || (Sign.ofName? name).isSome

theorem isIdentifier_iff {name : String} : isIdentifier name = true ↔
    ∃ c cs, name.toList = c :: cs ∧ Lexeme.startsWord c = true ∧
      (∀ d ∈ cs, Lexeme.continuesWord d = true) ∧ c :: cs ∉ State.reserved := by
  unfold isIdentifier
  cases name.toList with
  | nil => simp
  | cons c cs => simp [and_assoc]

theorem isIdentifier_of_isVariable {name : String} (named : isVariable name = true)
    (operator : ¬ isOperatorName name = true) (sign : ¬ (Sign.ofName? name).isSome = true) :
    isIdentifier name = true := by
  simp only [isVariable, operator, sign, Bool.or_eq_true, Bool.and_eq_true] at named
  simpa using named

theorem ofName?_some {name : String} {s : Sign} (sign : Sign.ofName? name = some s) : name = s.name := by
  unfold Sign.ofName? at sign
  split at sign
  · cases sign
    assumption
  split at sign
  · cases sign
    assumption
  · contradiction

/-- A tree with a written form. -/
inductive Expr.Printable {α : Type} : Expr α → Prop where
  | number {t x} (unsigned : x.isNaN = true ∨ isNegative x = false) :
    Printable (.literal t (.number x))
  | vector {t es} (elems : ∀ e ∈ es, Printable e) : Printable (.vector t es)
  | var {t x} (named : isVariable x = true) : Printable (.var t x)
  | apply {t f x} (func : Printable f) (arg : Printable x) : Printable (.apply t f x)
  | letIn {t x b e} (named : isIdentifier x = true) (bound : Printable b) (body : Printable e) :
    Printable (.letIn t x b e)

theorem isNegative_of_isNaN {x : Float} (nan : x.isNaN = true) : isNegative x = false := by
  have bits := bits_of_notANumber (isNaN_iff.1 nan)
  rw [isNegative, bits]
  decide

theorem isIdentifier_of_cut {cs : List Char} (cut : (Lexeme.word cs).Cut)
    (free : cs ∉ State.reserved) : isIdentifier (String.ofList cs) = true := by
  cases cut with
  | word first others => simp_all [isIdentifier]

theorem isVariable_of_named {l : Lexeme} {name : String} (cut : l.Cut)
    (named : State.Named l name) : isVariable name = true := by
  cases named with
  | sign =>
    cases cut with
    | signName s => cases s <;> decide
  | operator free =>
    cases cut with
    | @operators c cs each =>
      have other : String.ofList (c :: cs) ≠ "=" := fun same =>
        free (by simpa using congrArg String.toList same)
      simp_all [isVariable, isOperatorName]

theorem printable_closed : Closed Expr.Printable (isIdentifier · = true) where
  atom := by
    intro o l e cut atom
    cases atom with
    | numeral value => exact .number (.inr (Numeral.isNegative_value? value))
    | nan => exact .number (.inr (by decide))
    | infinity => exact .number (.inr (by decide))
    | word free => exact .var (by simp [isVariable, isIdentifier_of_cut cut free])
  named := fun cut named => .var (isVariable_of_named cut named)
  sign := fun s operand => .apply (.var (by cases s <;> decide)) operand
  join := fun op left right => .apply (.apply (.var (by cases op <;> decide)) left) right
  apply := .apply
  vector := .vector
  name := isIdentifier_of_cut
  letIn := .letIn

namespace Expr

variable {α β : Type}

theorem printable_map {f : α → β} {e : Expr α} : (e.map f).Printable ↔ e.Printable := by
  constructor
  · intro printable
    induction e with
    | literal => cases printable with | number unsigned => exact .number unsigned
    | vector t es ih =>
      cases printable with
      | vector elems =>
        rw [mapAll_eq_map] at elems
        exact .vector fun e member => ih e member (elems _ (List.mem_map_of_mem member))
    | var => cases printable with | var named => exact .var named
    | apply t g x ihg ihx =>
      cases printable with | apply func arg => exact .apply (ihg func) (ihx arg)
    | letIn t x b e ihb ihe =>
      cases printable with | letIn named bound body => exact .letIn named (ihb bound) (ihe body)
  · intro printable
    induction printable with
    | number unsigned => exact .number unsigned
    | vector elems ih =>
      refine .vector fun e member => ?_
      rw [mapAll_eq_map] at member
      obtain ⟨c, found, rfl⟩ := List.mem_map.1 member
      exact ih c found
    | var named => exact .var named
    | apply func arg ihf ihx => exact .apply ihf ihx
    | letIn named bound body ihb ihe => exact .letIn named ihb ihe

variable {f f' : Functions} {place : α → Position} {place' : β → Position} {names : Names}

/-- Printable trees that are the same have the same value, for functions that give the same values. -/
theorem meaning_same
    (answers : ∀ callee captured arg v, f callee captured arg = .ok v → f' callee captured arg = .ok v)
    {e : Expr α} {e' : Expr β} (printable : e.Printable) (printable' : e'.Printable)
    (alike : e.same e' = true) {v : Value} (value : e.meaning f place names = .ok v) :
    e'.meaning f' place' names = .ok v := by
  induction printable generalizing e' names v with
  | number unsigned =>
    cases printable' with
    | number unsigned' =>
      have equal := eq_of_sameNumber (unsigned.elim isNegative_of_isNaN id)
        (unsigned'.elim isNegative_of_isNaN id) alike
      subst equal
      exact value
    | _ => simp [same] at alike
  | @vector t es elems ih =>
    cases printable' with
    | @vector t' fs elems' =>
      obtain ⟨vs, values, rfl⟩ := meaning_vector_ok.1 value
      refine meaning_vector_ok.2 ⟨vs, ?_, rfl⟩
      have each := sameAll_iff.1 alike
      clear value alike
      induction each generalizing vs with
      | nil => exact values
      | @cons e f es fs head tail rest =>
        obtain ⟨w, ws, first, others, rfl⟩ := meanings_cons_ok.1 values
        exact meanings_cons_ok.2 ⟨w, ws, ih e List.mem_cons_self (elems' f List.mem_cons_self) head first,
          rest (fun c member => elems c (List.mem_cons_of_mem _ member))
            (fun c member => ih c (List.mem_cons_of_mem _ member))
            (fun c member => elems' c (List.mem_cons_of_mem _ member)) ws others, rfl⟩
    | _ => simp [same] at alike
  | var named =>
    cases printable' with
    | var named' =>
      rw [same, beq_iff_eq] at alike
      subst alike
      exact meaning_var_ok.2 (meaning_var_ok.1 value)
    | _ => simp [same] at alike
  | apply func arg ihf ihx =>
    cases printable' with
    | apply func' arg' =>
      rw [same, Bool.and_eq_true] at alike
      obtain ⟨callee, captured, w, function, argument, answer⟩ := meaning_apply_ok.1 value
      exact meaning_apply_ok.2 ⟨callee, captured, w, ihf func' alike.1 function,
        ihx arg' alike.2 argument, answers _ _ _ _ answer⟩
    | _ => simp [same] at alike
  | letIn named bound body ihb ihe =>
    cases printable' with
    | letIn named' bound' body' =>
      rw [same, Bool.and_eq_true, Bool.and_eq_true, beq_iff_eq] at alike
      obtain ⟨⟨rfl, sameBound⟩, sameBody⟩ := alike
      obtain ⟨w, first, second⟩ := meaning_letIn_ok.1 value
      exact meaning_letIn_ok.2 ⟨w, ihb bound' sameBound first, ihe body' sameBody second⟩
    | _ => simp [same] at alike

end Expr

/-- Every tree that parsing returns is printable. -/
theorem parseWithin_printable {limit : Nat} {source text : String} {tree : Expr Position}
    (parsed : parseWithin limit source text = .ok tree) : tree.Printable := by
  obtain ⟨_, draft, read, rfl⟩ := parseWithin_ok.1 parsed
  exact Expr.printable_map.2 (printable_closed.readText read)

end Formula
