import Formula.Proofs.Escapes
import Formula.Proofs.Negation
import Formula.Proofs.Written
import Formula.Value.Text

/-! Values that are shown alike. The first character tells the kind of a value, and where a shown form ends is
told by what is shown, whatever is behind it: a number stops at a comma or a bracket, a string at its
quote, a vector at its bracket. Main statement: values without functions that are shown alike are
the same. -/
namespace Formula

/-- A run without an end in it is told apart from what is behind it. -/
theorem append_inj_of_stops {w w' rest rest' : List Char} (plain : ∀ c ∈ w, c ∉ [' ', ',', ')', ']'])
    (plain' : ∀ c ∈ w', c ∉ [' ', ',', ')', ']']) (stops : Stops rest) (stops' : Stops rest')
    (shown : w ++ rest = w' ++ rest') : w = w' ∧ rest = rest' := by
  have cut {u r : List Char} (each : ∀ c ∈ u, c ∉ [' ', ',', ')', ']']) (ends : Stops r) :=
    Decimal.span_append (p := fun c => decide (c ∉ [' ', ',', ')', ']']))
      (fun c member => decide_eq_true (each c member)) fun c head => decide_eq_false (not_not_intro (ends c head))
  obtain ⟨front, back⟩ := cut plain stops
  obtain ⟨front', back'⟩ := cut plain' stops'
  rw [shown] at front back
  exact ⟨front.symm.trans front', back.symm.trans back'⟩

section Numbers

variable {x y z : Float} {cs : List Char} {l : Lexeme}

namespace Number

/-- The double that a form without a sign is read as. -/
def readUnsigned? (cs : List Char) : Option Float :=
  if cs = "NaN".toList then some (0 / 0)
  else if cs = "Infinity".toList then some (1.0 / 0.0)
  else Numeral.value? cs

/-- The double that a shown form is read as. -/
def read? : List Char → Option Float
  | '-' :: cs => (readUnsigned? cs).map (-·)
  | cs => readUnsigned? cs

theorem read?_cons {c : Char} (plain : c ≠ '-') (cs : List Char) :
    read? (c :: cs) = readUnsigned? (c :: cs) := by
  unfold read?
  split <;> simp_all

end Number

theorem sameNumber_neg (same : sameNumber z (-x) = true) : sameNumber (-z) x = true := by
  rcases sameNumber_iff.1 same with rfl | ⟨zero, zero'⟩
  · rw [neg_neg_number]
    exact sameNumber_refl x
  · exact sameNumber_iff.2 (.inr ⟨isZero_neg.2 zero, isZero_neg.1 zero'⟩)

namespace Expr.NumberForm

theorem chars (form : NumberForm x cs l) : ∃ c tail, cs = c :: tail ∧
    (c.isDigit = true ∨ c ∈ ['N', 'I']) ∧ ∀ d ∈ cs, d.isAlphanum = true ∨ d = '.' := by
  cases form with
  | nan nan => exact ⟨'N', _, rfl, by simp, Numeral.forall_mem_of_all rfl⟩
  | infinity infinite => exact ⟨'I', _, rfl, by simp, Numeral.forall_mem_of_all rfl⟩
  | decimal form alike =>
    obtain ⟨c, tail, rfl, digit, others⟩ := form.head
    refine ⟨c, tail, rfl, .inl digit, List.forall_mem_cons.2 ⟨.inl ?_, fun d member => ?_⟩⟩
    · exact Numeral.isAlphanum_of_isDigit digit
    · exact (others d member).imp_left Numeral.isAlphanum_of_isDigit

theorem readUnsigned? (form : NumberForm x cs l) :
    ∃ z, Number.readUnsigned? cs = some z ∧ sameNumber z x = true := by
  cases form with
  | nan nan =>
    have read : ((0 : Float) / 0).isNaN = true := by decide +kernel
    exact ⟨0 / 0, rfl, by rw [sameNumber, read, nan]; exact Bool.or_true _⟩
  | infinity infinite => exact ⟨_, rfl, infinite ▸ sameNumber_refl _⟩
  | decimal form alike =>
    obtain ⟨c, tail, rfl, digit, others⟩ := form.head
    refine ⟨_, ?_, alike⟩
    rw [Number.readUnsigned?, if_neg, if_neg, form.value?]
    · rintro same
      cases same
      contradiction
    · rintro same
      cases same
      contradiction

end Expr.NumberForm

theorem Number.read?_text (x : Float) : ∃ z, read? (text x).toList = some z ∧ sameNumber z x = true := by
  cases negative : isNegative x with
  | false =>
    have form := Expr.numberForm (.inr negative)
    obtain ⟨c, tail, shown, first, others⟩ := form.chars
    have plain : c ≠ '-' := by rintro rfl; simp at first
    rw [shown] at form ⊢
    rw [read?_cons plain]
    exact form.readUnsigned?
  | true =>
    obtain ⟨z, read, same⟩ := (Expr.numberForm (.inr (unsigned_neg negative))).readUnsigned?
    rw [text_negative negative, String.toList_append]
    exact ⟨-z, congrArg (Option.map (-·)) read, sameNumber_neg same⟩

theorem Number.sameNumber_of_text_eq (shown : text x = text y) : sameNumber x y = true := by
  obtain ⟨z, read, same⟩ := read?_text x
  obtain ⟨z', read', same'⟩ := read?_text y
  rw [shown, read'] at read
  cases read
  exact sameNumber_trans (sameNumber_symm same) same'

theorem Number.not_mem_stops (x : Float) : ∀ c ∈ (text x).toList, c ∉ [' ', ',', ')', ']'] := by
  have plain {y : Float} (unsigned : isNegative y = false) :
      ∀ c ∈ (text y).toList, c ∉ [' ', ',', ')', ']'] := by
    obtain ⟨_, _, _, _, each⟩ := (Expr.numberForm (.inr unsigned)).chars
    intro c member stop
    obtain ⟨_, _, other, point, _⟩ := mem_stops stop
    simpa [other, point] using each c member
  cases negative : isNegative x with
  | false => exact plain negative
  | true =>
    rw [text_negative negative, String.toList_append]
    exact List.forall_mem_append.2 ⟨Numeral.forall_mem_of_all rfl, plain (unsigned_neg negative)⟩

end Numbers

namespace Value

/-- A value in which there is no function. -/
inductive Data : Value → Prop where
  | number (x) : Data (.number x)
  | string (s) : Data (.string s)
  | bool (b) : Data (.bool b)
  | vector {elems} (each : ∀ v ∈ elems, Data v) : Data (.vector elems)

/-- The shown form. -/
def chars (v : Value) : List Char := v.text.toList

/-- What is shown behind an element of a vector, given the elements that follow. -/
def behind : List Value → List Char
  | [] => [']']
  | v :: vs => ',' :: ' ' :: (v.chars ++ behind vs)

/-- What is shown behind the bracket that opens a vector. -/
def inside : List Value → List Char
  | [] => [']']
  | v :: vs => v.chars ++ behind vs

theorem toList_texts (vs : List Value) :
    (", ".intercalate (texts vs)).toList ++ [']'] = inside vs := by
  induction vs with
  | nil => rfl
  | cons v vs ih =>
    cases vs with
    | nil => rfl
    | cons w vs =>
      rw [texts, texts, String.intercalate_cons_cons, String.toList_append, String.toList_append,
        ← texts, List.append_assoc, List.append_assoc, ih]
      rfl

theorem chars_vector (vs : List Value) : (vector vs).chars = '[' :: inside vs := by
  rw [chars, text, String.toList_append, String.toList_append, List.append_assoc]
  exact congrArg ('[' :: ·) (toList_texts vs)

/-- The kind of the values whose shown form a character opens. -/
def opens? (c : Char) : Option Kind :=
  if c = '"' then some .string
  else if c = '[' then some .vector
  else if c ∈ ['t', 'f'] then some .bool
  else if c.isDigit ∨ c ∈ ['-', 'N', 'I'] then some .number
  else none

theorem opens?_number {c : Char} (first : c.isDigit = true ∨ c ∈ ['-', 'N', 'I']) :
    opens? c = some .number := by
  have quote : c ≠ '"' := by rintro rfl; revert first; decide
  have bracket : c ≠ '[' := by rintro rfl; revert first; decide
  have letter : c ∉ ['t', 'f'] := by
    intro letter
    rcases List.mem_pair.1 letter with rfl | rfl <;> revert first <;> decide
  rw [opens?, if_neg quote, if_neg bracket, if_neg letter, if_pos first]

theorem Data.opened {v : Value} (data : v.Data) :
    ∃ c tail, v.chars = c :: tail ∧ opens? c = some v.kind := by
  cases data with
  | number x =>
    cases negative : isNegative x with
    | false =>
      obtain ⟨c, tail, shown, first, _⟩ := (Expr.numberForm (.inr negative)).chars
      exact ⟨c, tail, shown, opens?_number (first.imp_right (List.mem_cons_of_mem _))⟩
    | true =>
      refine ⟨'-', (Number.text (-x)).toList, ?_, opens?_number (.inr List.mem_cons_self)⟩
      rw [chars, text, Number.text_negative negative, String.toList_append]
      rfl
  | string s => exact ⟨'"', _, String.toList_ofList, rfl⟩
  | bool b => cases b <;> exact ⟨_, _, rfl, rfl⟩
  | vector each => exact ⟨'[', _, chars_vector _, rfl⟩

/-- Shown forms are alike only for values of one kind, whatever is behind them. -/
theorem Data.kind_eq {v w : Value} (data : v.Data) (data' : w.Data) {rest rest' : List Char}
    (shown : v.chars ++ rest = w.chars ++ rest') : v.kind = w.kind := by
  obtain ⟨c, tail, front, kind⟩ := data.opened
  obtain ⟨d, tail', front', kind'⟩ := data'.opened
  rw [front, front'] at shown
  cases (List.cons.inj shown).1
  exact Option.some.inj (kind.symm.trans kind')

/-- How a value is shown tells it from every other value, and where its shown form ends. -/
def Distinct (v : Value) : Prop :=
  ∀ (w : Value) (rest rest' : List Char), w.Data → Stops rest → Stops rest' →
    v.chars ++ rest = w.chars ++ rest' → v.same w = true ∧ rest = rest'

theorem stops_behind (vs : List Value) (rest : List Char) : Stops (behind vs ++ rest) := by
  cases vs <;> exact .cons (by simp)

theorem Data.ne_bracket {v : Value} (data : v.Data) (rest rest' : List Char) :
    v.chars ++ rest ≠ ']' :: rest' := by
  intro shown
  obtain ⟨c, tail, front, kind⟩ := data.opened
  rw [front] at shown
  cases (List.cons.inj shown).1
  contradiction

/-- Elements are compared in turn; each stops at the comma or the bracket behind it. -/
theorem behind_append_inj {vs ws : List Value} (each : ∀ v ∈ vs, v.Distinct) (data : ∀ w ∈ ws, w.Data)
    {rest rest' : List Char} (shown : behind vs ++ rest = behind ws ++ rest') :
    List.Forall₂ (fun v w => v.same w = true) vs ws ∧ rest = rest' := by
  induction vs generalizing ws with
  | nil =>
    cases ws with
    | nil => exact ⟨.nil, (List.cons.inj shown).2⟩
    | cons w ws => exact absurd (List.cons.inj shown).1 (by decide)
  | cons v vs ih =>
    cases ws with
    | nil => exact absurd (List.cons.inj shown).1 (by decide)
    | cons w ws =>
      obtain ⟨first, others⟩ := List.forall_mem_cons.1 each
      obtain ⟨firstData, othersData⟩ := List.forall_mem_cons.1 data
      simp only [behind, List.cons_append, List.append_assoc, List.cons.injEq, true_and] at shown
      obtain ⟨same, later⟩ := first w _ _ firstData (stops_behind vs rest) (stops_behind ws rest') shown
      obtain ⟨alike, rest⟩ := ih others othersData later
      exact ⟨.cons same alike, rest⟩

/-- The bracket that closes an empty vector opens no element. -/
theorem inside_append_inj {vs ws : List Value} (each : ∀ v ∈ vs, v.Distinct) (data : ∀ v ∈ vs, v.Data)
    (data' : ∀ w ∈ ws, w.Data) {rest rest' : List Char}
    (shown : inside vs ++ rest = inside ws ++ rest') :
    List.Forall₂ (fun v w => v.same w = true) vs ws ∧ rest = rest' := by
  cases vs with
  | nil =>
    cases ws with
    | nil => exact ⟨.nil, (List.cons.inj shown).2⟩
    | cons w ws =>
      rw [inside, inside, List.append_assoc] at shown
      exact absurd shown.symm ((data' w List.mem_cons_self).ne_bracket _ _)
  | cons v vs =>
    rw [inside, List.append_assoc] at shown
    cases ws with
    | nil => exact absurd shown ((data v List.mem_cons_self).ne_bracket _ _)
    | cons w ws =>
      rw [inside, List.append_assoc] at shown
      refine behind_append_inj each data' ?_
      simp only [behind, List.cons_append, List.append_assoc, shown]

theorem Data.distinct {v : Value} (data : v.Data) : v.Distinct := by
  intro w rest rest' data' stops stops' shown
  -- Both open with the same character, so only values of one kind are left to compare.
  have kind := data.kind_eq data' shown
  induction data generalizing w rest rest' with
  | number x =>
    cases data' with
    | number y =>
      obtain ⟨same, behind⟩ := append_inj_of_stops (Number.not_mem_stops x) (Number.not_mem_stops y)
        stops stops' shown
      exact ⟨Number.sameNumber_of_text_eq (String.toList_injective same), behind⟩
    | _ => cases kind
  | string s =>
    cases data' with
    | string t =>
      obtain ⟨rfl, behind⟩ := Text.quoted_append_inj shown
      exact ⟨same_refl _, behind⟩
    | _ => cases kind
  | bool b =>
    cases data' with
    | bool c => cases b <;> cases c <;> simp_all [chars, text, same]
    | _ => cases kind
  | @vector elems each ih =>
    cases data' with
    | vector each' =>
      have distinct : ∀ v ∈ elems, v.Distinct := fun v member w _ _ data' stops stops' shown =>
        ih v member w _ _ data' stops stops' shown ((each v member).kind_eq data' shown)
      rw [chars_vector, chars_vector] at shown
      obtain ⟨alike, behind⟩ := inside_append_inj distinct each each' (List.cons.inj shown).2
      exact ⟨sameAll_iff.2 alike, behind⟩
    | _ => cases kind

/-- The shown form of a value tells everything about it but the functions in it: values without functions
that are shown alike are the same, at whatever nesting and with whatever strings in them. -/
theorem same_of_text_eq {v w : Value} (data : v.Data) (data' : w.Data) (shown : v.text = w.text) :
    v.same w = true :=
  (data.distinct w [] [] data' .nil .nil (by rw [chars, chars, shown])).1

/-- Strings of quotes, separators, brackets and hidden characters beside a negative zero and a NaN. -/
def knotted (nan : Float) : Value :=
  .vector [.string "\", \"\\", .vector [.number nan, .string "], é\u00ad[\n", .number (-0)], .vector [],
    .bool true]

theorem knotted_data (nan : Float) : (knotted nan).Data := by
  refine .vector fun v member => ?_
  simp only [List.mem_cons, List.not_mem_nil, or_false] at member
  rcases member with rfl | rfl | rfl | rfl
  · exact .string _
  · exact .vector (by simp [Data.number, Data.string])
  · exact .vector (by simp)
  · exact .bool _

theorem same_of_text_eq_knotted :
    (knotted (0 / 0)).text =
        "[\"\\\", \\\"\\\\\", [NaN, \"], é\\u\x7bad\x7d[\\n\", -0], [], true]" ∧
      (knotted (-(0 / 0))).text = (knotted (0 / 0)).text ∧
      (knotted (-(0 / 0))).same (knotted (0 / 0)) = true := by
  have shown : (knotted (-(0 / 0))).text = (knotted (0 / 0)).text := by decide +kernel
  exact ⟨by decide +kernel, shown, same_of_text_eq (knotted_data _) (knotted_data _) shown⟩

end Value

end Formula
