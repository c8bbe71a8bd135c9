import Formula.Numeral
import Mathlib

/-! What a numeral looks like: words of letters and digits that start with a digit, with a point or a
sign between them. -/
namespace Formula.Numeral

theorem forall_mem_of_all {P : Char → Prop} [DecidablePred P] {cs : List Char}
    (tried : cs.all (fun c => decide (P c)) = true) : ∀ c ∈ cs, P c :=
  fun c member => of_decide_eq_true (List.all_eq_true.1 tried c member)

/-- The form of a numeral. -/
inductive Pieces : List Char → Prop where
  | last {d w} (digit : d.isDigit = true) (word : ∀ c ∈ w, c.isAlphanum = true) : Pieces (d :: w)
  | join {d w s t} (digit : d.isDigit = true) (word : ∀ c ∈ w, c.isAlphanum = true)
    (separator : s = '.' ∨ s = '+' ∨ s = '-') (rest : Pieces t) : Pieces (d :: w ++ s :: t)

theorem Pieces.head {t : List Char} (pieces : Pieces t) : ∃ d ds, t = d :: ds ∧ d.isDigit = true := by
  cases pieces with
  | last digit _ => exact ⟨_, _, rfl, digit⟩
  | join digit _ _ _ => exact ⟨_, _, rfl, digit⟩

theorem isAlphanum_of_isDigit {c : Char} (digit : c.isDigit = true) : c.isAlphanum = true := by
  simp [Char.isAlphanum, digit]

theorem isAlphanum_of_isHexDigit {c : Char} (digit : isHexDigit c = true) : c.isAlphanum = true := by
  simp only [isHexDigit, Bool.or_eq_true, Bool.and_eq_true, decide_eq_true_eq, Char.le_def,
    UInt32.le_iff_toNat_le] at digit
  simp [Char.isAlphanum, Char.isAlpha, Char.isUpper, Char.isLower, UInt32.le_iff_toNat_le] at *
  rcases digit with (digit | lower) | upper
  · simp [digit]
  · omega
  · omega

theorem isAlphanum_of_isOctalDigit {c : Char} (digit : isOctalDigit c = true) :
    c.isAlphanum = true := by
  refine isAlphanum_of_isDigit ?_
  simp [isOctalDigit, Char.isDigit, Char.le_def, UInt32.le_iff_toNat_le] at digit ⊢
  omega

theorem forall_isAlphanum_spanDigits (cs : List Char) :
    ∀ c ∈ (spanDigits cs).1, c.isAlphanum = true := fun _ member =>
  isAlphanum_of_isDigit (List.mem_takeWhile_imp member)

theorem pieces_exponent {d : Char} {w : List Char} (digit : d.isDigit = true)
    (word : ∀ c ∈ w, c.isAlphanum = true) (cs : List Char) :
    Pieces (d :: w ++ (cutExponent cs).1) := by
  cases cs with
  | nil => simpa [cutExponent] using Pieces.last digit word
  | cons e cs =>
    unfold cutExponent
    dsimp only
    split
    · next found =>
      obtain ⟨letter, some⟩ := found
      have wordE : ∀ c ∈ w ++ [e], c.isAlphanum = true :=
        List.forall_mem_append.2 ⟨word, by rcases letter with rfl | rfl <;> exact forall_mem_of_all rfl⟩
      have digits := forall_isAlphanum_spanDigits (cutSign cs).2
      rcases sign : (cutSign cs).1 with _ | ⟨s, none⟩
      · have joined := Pieces.last digit (List.forall_mem_append.2 ⟨wordE, digits⟩)
        simpa using joined
      · have plain : (s = '.' ∨ s = '+' ∨ s = '-') ∧ none = [] := by
          unfold cutSign at sign
          split at sign <;> cases sign <;> simp
        obtain ⟨separator, rfl⟩ := plain
        obtain ⟨f, fs, found⟩ := List.exists_cons_of_ne_nil some
        rw [found] at digits ⊢
        have first : f.isDigit = true := by
          have member : f ∈ (spanDigits (cutSign cs).2).1 := found ▸ List.mem_cons_self
          exact List.mem_takeWhile_imp member
        have joined := Pieces.join digit wordE separator
          (.last first (List.forall_mem_cons.1 digits).2)
        simpa using joined
    · simpa using Pieces.last digit word

theorem cutFraction_cases (cs : List Char) : (cutFraction cs).1 = [] ∨
    ∃ f fs, (cutFraction cs).1 = '.' :: f :: fs ∧ ∀ c ∈ f :: fs, c.isDigit = true := by
  unfold cutFraction
  split
  · next rest =>
    split
    · exact .inl rfl
    · next some =>
      obtain ⟨f, fs, found⟩ := List.exists_cons_of_ne_nil some
      refine .inr ⟨f, fs, by rw [found], fun c member => ?_⟩
      rw [← found] at member
      exact List.mem_takeWhile_imp member
  · exact .inl rfl

theorem pieces_cutDecimal {c : Char} {cs : List Char} (digit : c.isDigit = true) :
    Pieces (cutDecimal (c :: cs)).1 := by
  have whole : (spanDigits (c :: cs)).1 = c :: (spanDigits cs).1 := by simp [spanDigits, digit]
  have word := forall_isAlphanum_spanDigits cs
  simp only [cutDecimal, whole]
  rcases cutFraction_cases (spanDigits (c :: cs)).2 with none | ⟨f, fs, some, digits⟩
  · rw [none, List.append_nil]
    exact pieces_exponent digit word _
  · have others := fun d (member : d ∈ fs) =>
      isAlphanum_of_isDigit (digits d (List.mem_cons_of_mem _ member))
    have fraction := pieces_exponent (digits f List.mem_cons_self) others
      (cutFraction (spanDigits (c :: cs)).2).2
    rw [some]
    simpa using Pieces.join digit word (.inl rfl) fraction

theorem pieces_cutRadix {lower upper : Char} {isRadixDigit : Char → Bool} {cs : List Char}
    {parts : List Char × List Char} (found : cutRadix lower upper isRadixDigit cs = some parts)
    (letters : lower.isAlphanum = true ∧ upper.isAlphanum = true)
    (digits : ∀ {c}, isRadixDigit c = true → c.isAlphanum = true) : Pieces parts.1 := by
  unfold cutRadix at found
  split at found
  · split at found
    · next radix =>
      cases found
      refine .last (by decide) (List.forall_mem_cons.2 ⟨?_, ?_⟩)
      · rcases radix.1 with rfl | rfl
        · exact letters.1
        · exact letters.2
      · exact fun c member => digits (List.mem_takeWhile_imp member)
    · contradiction
  · contradiction

/-- Every numeral that is cut off a text has the form of a numeral. -/
theorem pieces_cut {c : Char} {cs : List Char} (digit : c.isDigit = true) :
    Pieces (cut (c :: cs)).1 := by
  unfold cut
  split
  · next found => exact pieces_cutRadix found (by decide) isAlphanum_of_isHexDigit
  · cases found : cutRadix 'o' 'O' isOctalDigit (c :: cs) with
    | some parts => exact pieces_cutRadix found (by decide) isAlphanum_of_isOctalDigit
    | none => exact pieces_cutDecimal digit

end Formula.Numeral
