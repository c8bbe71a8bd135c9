import Formula.Evaluator
import Formula.Proofs.Trees

/-! What a tree means where names have values: a big-step semantics without kept values, depth or
state. A name means what the innermost `let` around it says; functions answer the same whenever
they are asked. -/
namespace Formula

/-- How functions answer, whatever was called before. -/
abbrev Functions := Callee → List Value → Value → Except Fault Value

/-- A caller of pure functions: in every world it answers as `f` does. -/
def Caller.Answers {σ : Type} (call : Caller σ) (f : Functions) : Prop :=
  ∀ callee captured arg world, (call callee captured arg world).1 = f callee captured arg

/-- The values of the names in scope. -/
abbrev Names := String → Option Value

/-- The scope inside, in which one name has a new value. -/
def Names.bind (names : Names) (x : String) (v : Value) : Names :=
  fun y => if y = x then some v else names y

theorem Names.lookup_bind (env : Env) (x : String) (v : Value) :
    (env.child.register x v).lookup? = Names.bind env.lookup? x v := by
  funext y
  simp [Names.bind]

namespace Expr

variable {α β : Type} (f : Functions) (place : α → Position)

mutual

/-- The value of a tree, or its first failure: the elements of a vector count from left to right, the
function of an application before the argument, the bound expression of a `let` before the body. -/
def meaning : Expr α → Names → Outcome
  | .literal _ v, _ => .ok v
  | .vector _ es, names => do return .vector (← meanings es names)
  | .var t x, names =>
    match names x with
    | some v => .ok v
    | none => .error ⟨[place t], .unbound x⟩
  | .apply t g x, names => do
    match ← meaning g names with
    | .function callee captured =>
      let arg ← meaning x names
      (f callee captured arg).mapError (Fault.locate (place t))
    | v => .error ⟨[place t], .mistyped (.just .function) v.kind⟩
  | .letIn _ x b e, names => do
    let v ← meaning b names
    meaning e (names.bind x v)

def meanings : List (Expr α) → Names → Except RuntimeError (List Value)
  | [], _ => .ok []
  | e :: es, names => do
    let v ← meaning e names
    return v :: (← meanings es names)

end

variable {f place}

theorem meaning_vector_ok {t : α} {es : List (Expr α)} {names : Names} {v : Value} :
    (vector t es).meaning f place names = .ok v ↔
      ∃ vs, meanings f place es names = .ok vs ∧ v = .vector vs := by
  cases found : meanings f place es names <;>
    simp [meaning, found, bind, Except.bind, pure, Except.pure, eq_comm]

theorem meanings_cons_ok {e : Expr α} {es : List (Expr α)} {names : Names} {vs : List Value} :
    meanings f place (e :: es) names = .ok vs ↔
      ∃ w ws, e.meaning f place names = .ok w ∧ meanings f place es names = .ok ws ∧ vs = w :: ws := by
  cases head : e.meaning f place names <;> cases tail : meanings f place es names <;>
    simp [meanings, head, tail, bind, Except.bind, pure, Except.pure, eq_comm]

theorem meaning_var_ok {t : α} {x : String} {names : Names} {v : Value} :
    (var t x).meaning f place names = .ok v ↔ names x = some v := by
  cases found : names x <;> simp [meaning, found]

theorem meaning_apply_ok {t : α} {g x : Expr α} {names : Names} {v : Value} :
    (apply t g x).meaning f place names = .ok v ↔
      ∃ callee captured arg, g.meaning f place names = .ok (.function callee captured) ∧
        x.meaning f place names = .ok arg ∧ f callee captured arg = .ok v := by
  cases function : g.meaning f place names with
  | error => simp [meaning, function, bind, Except.bind]
  | ok w =>
    cases w with
    | function callee captured =>
      cases argument : x.meaning f place names with
      | error => simp [meaning, function, argument, bind, Except.bind]
      | ok arg =>
        simp only [meaning, function, argument, bind, Except.bind]
        constructor
        · intro h
          refine ⟨callee, captured, arg, rfl, rfl, ?_⟩
          cases answer : f callee captured arg <;> simp_all [Except.mapError]
        · rintro ⟨_, _, _, sameFunction, sameArg, answer⟩
          cases sameFunction
          cases sameArg
          simp [answer, Except.mapError]
    | _ => simp [meaning, function, bind, Except.bind]

theorem meaning_letIn_ok {t : α} {x : String} {b e : Expr α} {names : Names} {v : Value} :
    (letIn t x b e).meaning f place names = .ok v ↔
      ∃ w, b.meaning f place names = .ok w ∧ e.meaning f place (names.bind x w) = .ok v := by
  cases bound : b.meaning f place names <;> simp [meaning, bound, bind, Except.bind]

end Expr

/-- What a node means where it stands. -/
def Node.meaning (f : Functions) (n : Node) (names : Names) : Outcome :=
  Expr.meaning f Tag.position n names

end Formula
