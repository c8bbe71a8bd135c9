import Formula.Proofs.NestingLimit
import Formula.Proofs.NestingWritten

/-! How many levels enclose a place in a text. A bracket encloses what stands before the bracket that
closes it, and a `let` what stands before the end of the bracket, the element or the text that it
stands in. Main statements: the scan has as many levels open, and so has reading, unless a `let`
stands in what another binds. -/
namespace Formula

namespace Nesting

/-- What a lexeme opens. -/
def opener? : Lexeme → Option Opener
  | .mark c => if c = '(' ∨ c = '[' then some .bracket else none
  | .word cs => if cs = ['l', 'e', 't'] then some .binding else none
  | _ => none

/-- Whether what was opened `depth` brackets further out is still open behind some lexemes. A bracket
is open until it is closed; a `let` ends at a comma, too. -/
def lasts (o : Opener) (depth : Nat) : List Lexeme → Bool
  | [] => true
  | .mark c :: ls =>
    if c = '(' ∨ c = '[' then lasts o (depth + 1) ls
    else if c = ')' ∨ c = ']' then depth ≠ 0 && lasts o (depth - 1) ls
    else if c = ',' then (depth ≠ 0 || o = .bracket) && lasts o depth ls
    else lasts o depth ls
  | _ :: ls => lasts o depth ls

/-- How many brackets and `let`s enclose the place behind some lexemes. -/
def enclosing : List Lexeme → Nat
  | [] => 0
  | l :: ls => ((opener? l).any (lasts · 0 ls)).toNat + enclosing ls

section Levels

variable {limit depth depth' : Nat} {opened : List Opener} {c : Char} {l : Lexeme} {ls ms : List Lexeme}

/-- What the scan has open behind some lexemes. -/
def openedBy (ls : List Lexeme) : List Opener := ls.foldl (fun opened l => after l opened) []

/-- How many of the levels that are open are still open behind some lexemes. -/
def lasting (ls : List Lexeme) (depth : Nat) : List Opener → Nat
  | [] => 0
  | .bracket :: opened => (lasts .bracket depth ls).toNat + lasting ls (depth + 1) opened
  | .binding :: opened => (lasts .binding depth ls).toNat + lasting ls depth opened

theorem lasting_congr (same : ∀ o j, lasts o (depth + j) ls = lasts o (depth' + j) ms) :
    lasting ls depth opened = lasting ms depth' opened := by
  induction opened generalizing depth depth' with
  | nil => rfl
  | cons o opened ih =>
    have here := same o 0
    cases o with
    | bracket =>
      have around : lasting ls (depth + 1) opened = lasting ms (depth' + 1) opened := ih fun o j => by
        simpa only [Nat.add_assoc, Nat.add_comm 1] using same o (j + 1)
      rw [lasting, lasting, around]
      exact congrArg (fun b => b.toNat + _) here
    | binding =>
      rw [lasting, lasting, ih same]
      exact congrArg (fun b => b.toNat + _) here

theorem lasting_nil : lasting [] depth opened = opened.length := by
  induction opened generalizing depth with
  | nil => rfl
  | cons o opened ih => cases o <;> simp [lasting, lasts, ih, Nat.add_comm]

theorem endBindings_binding : endBindings (.binding :: opened) = endBindings opened := rfl

theorem lasting_closeBracket (bracket : c = ')' ∨ c = ']') :
    lasting ls 0 ((endBindings opened).drop 1) = lasting (.mark c :: ls) 0 opened := by
  have closed : ¬ (c = '(' ∨ c = '[') := by rcases bracket with rfl | rfl <;> decide
  induction opened with
  | nil => rfl
  | cons o opened ih =>
    cases o with
    | bracket =>
      have around : lasting (.mark c :: ls) 1 opened = lasting ls 0 opened :=
        lasting_congr fun o j => by simp [lasts, closed, bracket]
      simp [lasting, lasts, closed, bracket, around, endBindings]
    | binding =>
      rw [endBindings_binding, ih]
      simp [lasting, lasts, closed, bracket]

theorem lasting_comma : lasting ls 0 (endBindings opened) = lasting (.mark ',' :: ls) 0 opened := by
  induction opened with
  | nil => rfl
  | cons o opened ih =>
    cases o with
    | bracket =>
      have around : lasting (.mark ',' :: ls) 1 opened = lasting ls 1 opened :=
        lasting_congr fun o j => by simp [lasts]
      simp [lasting, lasts, around, endBindings]
    | binding =>
      rw [endBindings_binding, ih]
      simp [lasting, lasts]

theorem lasting_after : lasting ls 0 (after l opened) =
    ((opener? l).any (lasts · 0 ls)).toNat + lasting (l :: ls) 0 opened := by
  have other (plain : ∀ o j, lasts o j (l :: ls) = lasts o j ls) :
      lasting (l :: ls) 0 opened = lasting ls 0 opened := lasting_congr fun o j => plain o _
  cases l with
  | mark c =>
    by_cases openBracket : c = '(' ∨ c = '['
    · have around : lasting (.mark c :: ls) 0 opened = lasting ls 1 opened :=
        lasting_congr fun o j => by simp [lasts, openBracket, Nat.add_comm]
      simp [after, opener?, openBracket, lasting, around]
    by_cases closeBracket : c = ')' ∨ c = ']'
    · simpa [after, opener?, openBracket, closeBracket] using lasting_closeBracket closeBracket
    by_cases comma : c = ','
    · subst comma
      simp [after, opener?, lasting_comma]
    · rw [other fun o j => by simp [lasts, openBracket, closeBracket, comma]]
      simp [after, opener?, openBracket, closeBracket, comma]
  | word cs =>
    rw [other fun o j => rfl]
    by_cases isLet : cs = ['l', 'e', 't'] <;> simp [after, opener?, isLet, lasting]
  | numeral | operators | signName =>
    rw [other fun o j => rfl]
    simp [after, opener?]

theorem length_foldl_after :
    (ls.foldl (fun opened l => after l opened) opened).length = lasting ls 0 opened + enclosing ls := by
  induction ls generalizing opened with
  | nil => simp [lasting_nil, enclosing]
  | cons l ls ih =>
    rw [List.foldl_cons, ih, lasting_after, enclosing]
    omega

/-- The levels that enclose a place are those that the scan has open there. -/
theorem length_openedBy : (openedBy ls).length = enclosing ls := by
  rw [openedBy, length_foldl_after, lasting, Nat.zero_add]

theorem openedBy_concat : openedBy (ls ++ [l]) = after l (openedBy ls) := by
  simp [openedBy]

end Levels

end Nesting

section Reading

/-- What a `let` binds. -/
def Frame.isBound : Frame → Bool
  | .bound _ _ => true
  | _ => false

/-- Whether reading is in what a `let` binds, in no bracket of it. -/
def State.inBound : State → Bool
  | .within level outer | .afterOp _ level outer | .afterLet _ level outer
  | .afterName _ _ level outer => (endableFrame level.frame outer).isBound

/-- No `let` of the tokens stands in what another binds, unless in a bracket. -/
def State.letsApart (s : State) : List Token → Bool
  | [] => true
  | t :: ts =>
    (t.lexeme ≠ .word ['l', 'e', 't'] || !s.inBound) &&
      match s.step t with
      | .ok s => s.letsApart ts
      | .error _ => true

/-- No `let` that is open stands in what another binds, unless in a bracket. -/
def LetsApart : List Level → Prop
  | [] => True
  | level :: outer =>
    (level.frame.opener? = some .binding →
      ∀ around rest, outer = around :: rest → (endableFrame around.frame rest).isBound = false) ∧
    LetsApart outer

/-- As `LetsApart`, for all that has been read. -/
def State.Apart : State → Prop
  | .within level outer | .afterOp _ level outer => LetsApart (level :: outer)
  | .afterLet _ level outer | .afterName _ _ level outer =>
    (endableFrame level.frame outer).isBound = false ∧ LetsApart (level :: outer)

section Ended

variable {level : Level} {frame : Frame} {value e : Draft} {outer : List Level} {result : Ended}

theorem isBound_endableFrame (ends : endBodies frame value outer = result) :
    (endableFrame frame outer).isBound = result.frame.isBound := by
  induction outer generalizing frame value with
  | nil => subst ends; rfl
  | cons level outer ih =>
    cases frame with
    | body => exact ih ends
    | _ => subst ends; rfl

theorem LetsApart.endBodies (apart : LetsApart outer) (ends : endBodies frame value outer = result) :
    LetsApart result.outer := by
  induction outer generalizing frame value with
  | nil => subst ends; exact apart
  | cons level outer ih =>
    cases frame with
    | body => exact ih apart.2 ends
    | _ => subst ends; exact apart

/-- Then an `in` ends no `let` that is read before it. -/
theorem LetsApart.endBodies_bound {start : Nat} {name : String} {bound : Draft} {rest : List Level}
    (free : frame.opener? = some .binding →
      ∀ around rest, outer = around :: rest → (endableFrame around.frame rest).isBound = false)
    (ends : Formula.endBodies frame value outer = ⟨.bound start name, bound, rest⟩) :
    frame = .bound start name ∧ rest = outer := by
  cases outer with
  | nil => cases ends; exact ⟨rfl, rfl⟩
  | cons around outer =>
    cases frame with
    | body =>
      have found := isBound_endableFrame ends
      have other : (endableFrame around.frame outer).isBound = false := free rfl around outer rfl
      exact absurd (other.symm.trans found) nofun
    | bound => cases ends; exact ⟨rfl, rfl⟩
    | whole | group | vector => cases ends

end Ended

variable {s s' : State} {o : Nat} {l : Lexeme} {ts : List Token}

theorem LetsApart.fresh {frame : Frame} {outer : List Level} (apart : LetsApart outer)
    (plain : frame.opener? ≠ some .binding) : LetsApart (.fresh frame :: outer) :=
  ⟨fun binding => absurd binding plain, apart⟩

/-- Reading has then the same open behind a lexeme as the scan. -/
theorem State.Apart.step (apart : s.Apart) (step : State.Step s ⟨o, l⟩ s')
    (free : l = .word ['l', 'e', 't'] → s.inBound = false) :
    s'.openers = Nesting.after l s.openers ∧ s'.Apart := by
  have named {cs : List Char} (named : cs ∉ State.reserved) (opened : List Opener) :
      Nesting.after (.word cs) opened = opened := by
    have noLet : cs ≠ ['l', 'e', 't'] := by rintro rfl; exact named (by decide)
    rw [Nesting.after, if_neg noLet]
  have closes (n : Nat) (opened : List Opener) :
      (Nesting.endBindings (List.replicate n .binding ++ .bracket :: opened)).drop 1 = opened := by
    rw [Nesting.endBindings_replicate]
    rfl
  cases step with
  | atom atom =>
    cases atom with
    | word unreserved => exact ⟨(named unreserved _).symm, apart⟩
    | _ => exact ⟨rfl, apart⟩
  | op | sign | operator => exact ⟨rfl, apart⟩
  | named named => cases named <;> exact ⟨rfl, apart⟩
  | letWord => exact ⟨rfl, free rfl, apart⟩
  | name unreserved => exact ⟨(named unreserved _).symm, apart⟩
  | equals =>
    obtain ⟨outside, apart⟩ := apart
    refine ⟨rfl, fun _ around rest same => ?_, apart⟩
    cases same
    exact outside
  | @inWord level outer _ _ _ _ _ _ operand ends =>
    obtain ⟨frame, rfl⟩ := LetsApart.endBodies_bound apart.1 ends
    refine ⟨?_, fun _ => apart.1 (by rw [frame]; rfl), apart.2⟩
    rw [State.openers, State.openers, openers_cons level, frame]
    rfl
  | openGroup | openVector => exact ⟨rfl, LetsApart.fresh apart (by simp [Frame.opener?])⟩
  | @closeEmpty level around outer _ _ fresh frame =>
    refine ⟨?_, apart.2⟩
    rw [State.openers, State.openers, openers_cons level, frame]
    rfl
  | @closeGroup level _ _ _ _ _ _ _ operand ends | @closeVector level _ _ _ _ _ _ _ _ operand ends =>
    obtain ⟨n, same⟩ := openers_ended ends
    refine ⟨?_, apart.2.endBodies ends⟩
    rw [State.openers, State.openers, same]
    exact (closes n _).symm
  | @comma level around _ rest _ _ _ _ _ operand ends =>
    obtain ⟨n, same⟩ := openers_ended ends
    refine ⟨?_, (apart.2.endBodies ends).fresh (by simp [Frame.opener?])⟩
    rw [State.openers, State.openers, same]
    exact (Nesting.endBindings_replicate n _).symm

theorem State.Apart.run (apart : s.Apart) (free : s.letsApart ts = true) (run : s.run ts = .ok s') :
    s'.openers =
      (ts.map Token.lexeme).foldl (fun opened l => Nesting.after l opened) s.openers := by
  induction ts generalizing s with
  | nil => cases run; rfl
  | cons t ts ih =>
    obtain ⟨middle, step, run⟩ := State.run_cons_ok.1 run
    rw [State.letsApart, State.step_ok_iff.2 step, Bool.and_eq_true] at free
    obtain ⟨same, apart⟩ := apart.step step fun isLet => by simpa [isLet] using free.1
    rw [ih apart free.2 run, same]
    rfl

/-- Where no `let` stands in what another binds, the levels that enclose a place are those that reading
has open there. -/
theorem enclosing_eq_openers (free : State.initial.letsApart ts = true)
    (run : State.initial.run ts = .ok s) :
    Nesting.enclosing (ts.map Token.lexeme) = s.openers.length := by
  have apart : State.initial.Apart := LetsApart.fresh trivial (by simp [Frame.opener?])
  rw [apart.run free run]
  exact Nesting.length_openedBy.symm

end Reading

end Formula
