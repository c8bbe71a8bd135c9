import Formula.Position.Span
import Formula.Proofs.LineStarts

/-! The characters that labels are put below. Going back from an offset, a boundary is met at the start of
the text at the latest, and what is met first is the start of the character that holds the offset.
Main statement: whatever offset and text, the steps come to a slice of the text, of the character at
the last boundary up to the offset, or of nothing at the end of the text. -/
namespace Formula

open Nesting (byteLength_append)

variable {text before after : List Char} {offset : Nat}

theorem boundaryUpTo?_eq_some (text : List Char) (offset : Nat) :
    ∃ start, boundaryUpTo? text offset = some start ∧ isBoundary text start = true ∧ start ≤ offset ∧
      ∀ k ≤ offset, isBoundary text k = true → k ≤ start := by
  induction offset with
  | zero =>
    have first : isBoundary text 0 = true := by cases text <;> rfl
    exact ⟨0, by rw [boundaryUpTo?, if_pos first], first, Nat.le_refl 0, fun k bound _ => bound⟩
  | succ offset ih =>
    rw [boundaryUpTo?]
    split
    · next here => exact ⟨offset + 1, rfl, here, Nat.le_refl _, fun k bound _ => bound⟩
    · next inside =>
      obtain ⟨start, found, boundary, below, last⟩ := ih
      refine ⟨start, found, boundary, Nat.le_succ_of_le below, fun k bound isBound => ?_⟩
      rcases Nat.le_succ_iff.1 bound with lower | rfl
      · exact last k lower isBound
      · exact absurd isBound inside

/-- The longest front of a text that ends up to an offset. -/
structure LastFront (text : List Char) (offset : Nat) (before after : List Char) : Prop where
  whole : text = before ++ after
  low : byteLength before ≤ min offset (byteLength text)
  last : ∀ front back, text = front ++ back → byteLength front ≤ min offset (byteLength text) →
    byteLength front ≤ byteLength before

namespace LastFront

theorem exists_boundaryUpTo? (text : List Char) (offset : Nat) :
    ∃ before after, LastFront text offset before after ∧
      boundaryUpTo? text (min offset (byteLength text)) = some (byteLength before) := by
  obtain ⟨start, found, boundary, low, last⟩ :=
    boundaryUpTo?_eq_some text (min offset (byteLength text))
  obtain ⟨before, after, rfl, rfl⟩ := exists_append_of_isBoundary boundary
  exact ⟨before, after, ⟨rfl, low, fun front back split within =>
    last _ within (split ▸ isBoundary_append front back)⟩, found⟩

theorem lt_of_cons {c : Char} (longest : LastFront text offset before (c :: after)) :
    offset < byteLength before + c.utf8Size := by
  obtain ⟨rfl, low, last⟩ := longest
  have next := last (before ++ [c]) after (by simp)
  have positive := c.utf8Size_pos
  simp only [byteLength_append, byteLength] at low next
  omega

theorem le_of_nil (longest : LastFront text offset before []) : byteLength text ≤ offset := by
  obtain ⟨rfl, low, _⟩ := longest
  rw [List.append_nil] at low ⊢
  omega

end LastFront

theorem charSpan_append {c : Char} (low : byteLength before ≤ offset)
    (high : offset < byteLength before + c.utf8Size) :
    charSpan (before ++ c :: after) offset = (byteLength before, byteLength before + c.utf8Size) := by
  induction before generalizing offset with
  | nil =>
    rw [byteLength, Nat.zero_add] at high
    rw [List.nil_append, charSpan, if_pos high, byteLength, Nat.zero_add]
  | cons d before ih =>
    rw [byteLength] at low high
    rw [List.cons_append, charSpan, if_neg (by omega), ih (by omega) (by omega), byteLength]
    exact Prod.ext (Nat.add_comm _ _) (by simp only; omega)

theorem charSpan_of_le (past : byteLength text ≤ offset) :
    charSpan text offset = (byteLength text, byteLength text) := by
  induction text generalizing offset with
  | nil => rfl
  | cons c cs ih =>
    rw [byteLength] at past
    rw [charSpan, if_neg (by omega), ih (by omega), byteLength, Nat.add_comm]

theorem LastFront.charSpan (longest : LastFront text offset before after) :
    charSpan text offset =
      (byteLength before, after.head?.elim (byteLength before) (byteLength before + ·.utf8Size)) := by
  cases after with
  | nil =>
    rw [charSpan_of_le longest.le_of_nil, longest.whole, List.append_nil]
    rfl
  | cons c after =>
    rw [longest.whole]
    exact charSpan_append (Nat.le_trans longest.low (Nat.min_le_left _ _)) longest.lt_of_cons

theorem charsFrom?_append (before after : List Char) :
    charsFrom? (before ++ after) (byteLength before) = some after := by
  rw [charsFrom?, if_pos (isBoundary_append before after), dropBytes_append]

namespace Position

/-- The steps never fail, and come to the span from the longest front. -/
theorem exists_lastFront (p : Position) (text : String) :
    ∃ before after, LastFront text.toList p.offset before after ∧
      p.spanIn? text = some (p.spanIn text) ∧ p.spanIn text =
        (byteLength before, after.head?.elim (byteLength before) (byteLength before + ·.utf8Size)) := by
  obtain ⟨before, after, longest, found⟩ := LastFront.exists_boundaryUpTo? text.toList p.offset
  have span : p.spanIn text = _ := longest.charSpan
  refine ⟨before, after, longest, ?_, span⟩
  rw [spanIn?, length_utf8, found, span]
  simp [longest.whole, charsFrom?_append]

/-- The span of a position in a text, its own or another, is a slice of the text and never a failure. It
starts at the last boundary up to the offset and the end of the text, and holds one character, or
none exactly where it starts at the end. -/
theorem span_is_slice (p : Position) (text : String) :
    let bytes (cs : List Char) := (utf8 cs).length
    ∃ before here after, text.toList = before ++ (here ++ after) ∧
      p.spanIn? text = some (bytes before, bytes (before ++ here)) ∧
      p.spanIn text = (bytes before, bytes (before ++ here)) ∧
      bytes before ≤ min p.offset (bytes text.toList) ∧
      (∀ front back, text.toList = front ++ back → bytes front ≤ min p.offset (bytes text.toList) →
        bytes front ≤ bytes before) ∧
      here.length ≤ 1 ∧ (here = [] ↔ bytes before = bytes text.toList) := by
  intro bytes
  obtain ⟨before, after, longest, steps, span⟩ := p.exists_lastFront text
  have stop : bytes (before ++ after.take 1) =
      after.head?.elim (byteLength before) (byteLength before + ·.utf8Size) := by
    cases after <;> simp [bytes, length_utf8, byteLength_append, byteLength]
  rw [← stop, ← length_utf8] at span
  refine ⟨before, after.take 1, after.drop 1, ?_, span ▸ steps, span, ?_, ?_, ?_, ?_⟩
  · rw [List.take_append_drop, longest.whole]
  · simpa only [bytes, length_utf8] using longest.low
  · simpa only [bytes, length_utf8] using longest.last
  · exact List.length_take_le 1 after
  · simp only [bytes, length_utf8, longest.whole, byteLength_append, Nat.left_eq_add,
      byteLength_eq_zero_iff, List.take_eq_nil_iff, one_ne_zero, false_or]

/-- Byte 1 is inside the first character. -/
example : (⟨"other", 1, 2, 1⟩ : Position).spanIn? "é + 1" = some (0, 2) := by decide +kernel

end Position

end Formula
