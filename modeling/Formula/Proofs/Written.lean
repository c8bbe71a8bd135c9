import Formula.Expr.Text
import Formula.Proofs.Printable
import Formula.Proofs.Rounding

/-! The written form of a tree as characters and as lexemes. Main statement: a number without a sign is
written as a word or as a decimal that is read as the number. -/
namespace Formula

/-- What may follow a written form: nothing, or a character that ends every lexeme. -/
def Stops (rest : List Char) : Prop := ∀ c ∈ rest.head?, c ∈ [' ', ',', ')', ']']

theorem mem_stops {c : Char} (stop : c ∈ [' ', ',', ')', ']']) :
    Lexeme.continuesWord c = false ∧ isOperatorChar c = false ∧ c.isAlphanum = false ∧ c ≠ '.' ∧
      c ≠ '_' :=
  Numeral.forall_mem_of_all (P := fun c => Lexeme.continuesWord c = false ∧
    isOperatorChar c = false ∧ c.isAlphanum = false ∧ c ≠ '.' ∧ c ≠ '_') rfl c stop

namespace Stops

variable {rest : List Char}

theorem nil : Stops [] := fun _ head => by contradiction

theorem cons {c : Char} (stop : c ∈ [' ', ',', ')', ']']) : Stops (c :: rest) := fun _ head => by
  cases head
  exact stop

theorem space : Stops (' ' :: rest) := cons (by simp)

theorem continuesWord (stops : Stops rest) : ∀ d ∈ rest.head?, Lexeme.continuesWord d = false :=
  fun d head => (mem_stops (stops d head)).1

theorem isOperatorChar (stops : Stops rest) : ∀ d ∈ rest.head?, isOperatorChar d = false :=
  fun d head => (mem_stops (stops d head)).2.1

end Stops

namespace Expr

variable {α : Type}

/-- The written form. -/
def chars (e : Expr α) : List Char := e.text.toList

/-- A written form with or without parentheses. -/
def wrapped (brackets : Bool) (cs : List Char) : List Char :=
  if brackets then '(' :: (cs ++ [')']) else cs

/-- The written forms of the elements of a vector. -/
def elements : List (Expr α) → List Char
  | [] => []
  | [e] => e.chars
  | e :: es => e.chars ++ ',' :: ' ' :: elements es

theorem elements_cons_cons (e f : Expr α) (es : List (Expr α)) :
    elements (e :: f :: es) = e.chars ++ ',' :: ' ' :: elements (f :: es) := rfl

theorem toList_bracketed (brackets : Bool) (s : String) :
    (bracketed brackets s).toList = wrapped brackets s.toList := by
  unfold bracketed wrapped
  split <;> simp

theorem toList_texts (es : List (Expr α)) : (", ".intercalate (texts es)).toList = elements es := by
  induction es with
  | nil => rfl
  | cons e es ih =>
    cases es with
    | nil => rfl
    | cons f es =>
      rw [texts, texts, String.intercalate_cons_cons, String.toList_append, String.toList_append,
        ← texts, ih]
      simp [elements, chars]

theorem chars_vector (t : α) (es : List (Expr α)) :
    (vector t es).chars = '[' :: (elements es ++ [']']) := by
  rw [chars, text, String.toList_append, String.toList_append, toList_texts]
  rfl

theorem chars_sign {t : α} {f x : Expr α} {s : Sign} (sign : f.sign? = some s) :
    (apply t f x).chars = s.symbol.toList ++ wrapped (!x.isSimple) x.chars := by
  rw [chars, text]
  simp only [sign]
  rw [String.toList_append, toList_bracketed, chars]

theorem chars_apply {t : α} {f x : Expr α} (sign : f.sign? = none) :
    (apply t f x).chars =
      wrapped f.bracketedAsFunction f.chars ++ ' ' :: wrapped (!x.isSimple) x.chars := by
  rw [chars, text]
  simp only [sign]
  rw [String.toList_append, String.toList_append, toList_bracketed, toList_bracketed,
    List.append_assoc, chars, chars]
  rfl

theorem chars_letIn (t : α) (x : String) (b e : Expr α) :
    (letIn t x b e).chars =
      "let".toList ++ ' ' :: (x.toList ++ ' ' :: '=' :: ' ' :: (b.chars ++
        ' ' :: ("in".toList ++ ' ' :: e.chars))) := by
  rw [chars, text]
  simp [chars]

/-- The lexeme of a number. -/
def numberLexeme (x : Float) : Lexeme :=
  if x.isNaN then .word "NaN".toList
  else if x.isInf then .word "Infinity".toList
  else .numeral (Number.text x).toList

/-- The written forms of numbers without a sign, and their lexemes. -/
inductive NumberForm (x : Float) : List Char → Lexeme → Prop where
  | nan (nan : x.isNaN = true) : NumberForm x "NaN".toList (.word "NaN".toList)
  | infinity (infinite : x = 1.0 / 0.0) :
    NumberForm x "Infinity".toList (.word "Infinity".toList)
  | decimal {d cs} (form : Decimal.Form d cs) (alike : sameNumber d.toFloat x = true) :
    NumberForm x cs (.numeral cs)

theorem numberForm {x : Float} (unsigned : x.isNaN = true ∨ isNegative x = false) :
    NumberForm x (Number.text x).toList (numberLexeme x) := by
  unfold numberLexeme
  by_cases nan : x.isNaN = true
  · have text : Number.text x = "NaN" := if_pos nan
    rw [if_pos nan, text]
    exact .nan nan
  have positive : isNegative x = false := unsigned.resolve_left nan
  rw [if_neg nan]
  by_cases infinite : x.isInf = true
  · have text : Number.text x = "Infinity" := by
      unfold Number.text Number.spell
      rw [if_neg nan, if_pos infinite, if_neg (by rw [positive]; decide)]
    rw [if_pos infinite, text]
    exact .infinity (eq_infinity infinite positive)
  · obtain ⟨d, text, alike⟩ := Number.text_decimal (Bool.eq_false_iff.2 nan)
      (Bool.eq_false_iff.2 infinite) positive
    rw [if_neg infinite, text, String.toList_ofList]
    exact .decimal d.form_text alike

/-- Lexemes with or without parentheses. -/
def wrappedLexemes (brackets : Bool) (ls : List Lexeme) : List Lexeme :=
  if brackets then .mark '(' :: (ls ++ [.mark ')']) else ls

mutual

/-- The lexemes of the written form of a printable tree. -/
def lexemes : Expr α → List Lexeme
  | .literal _ (.number x) => [numberLexeme x]
  | .literal _ _ => []
  | .vector _ es => .mark '[' :: (lexemesAll es ++ [.mark ']'])
  | .var _ name =>
    if isOperatorName name then [.op, .operators name.toList]
    else if (Sign.ofName? name).isSome then [.op, .signName name.toList]
    else [.word name.toList]
  | .apply _ f x =>
    match f.sign? with
    | some s => .operators s.symbol.toList :: wrappedLexemes (!x.isSimple) (lexemes x)
    | none =>
      wrappedLexemes f.bracketedAsFunction (lexemes f) ++ wrappedLexemes (!x.isSimple) (lexemes x)
  | .letIn _ x b e =>
    .word "let".toList :: .word x.toList :: .operators ['='] ::
      (lexemes b ++ .word "in".toList :: lexemes e)

def lexemesAll : List (Expr α) → List Lexeme
  | [] => []
  | [e] => lexemes e
  | e :: es => lexemes e ++ .mark ',' :: lexemesAll es

end

theorem lexemesAll_cons_cons (e f : Expr α) (es : List (Expr α)) :
    lexemesAll (e :: f :: es) = e.lexemes ++ .mark ',' :: lexemesAll (f :: es) := rfl

end Expr

end Formula
