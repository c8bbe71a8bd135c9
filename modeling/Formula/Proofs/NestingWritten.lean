import Formula.Proofs.NestingScan
import Formula.Proofs.Spelling
import Formula.Proofs.Trees

/-! How deep a written form nests: no deeper than the tree has nodes. Main statement: the scan for
nesting finds nothing in a written form that is within the limit. -/
namespace Formula

namespace Nesting

/-- The scan finds nothing in a text, wherever the text stands. -/
def Quiet (limit : Nat) (opened : List Opener) (operators : Nat) (cs : List Char) : Prop :=
  ∀ offset, excess? limit opened operators offset cs = none

variable {limit operators : Nat} {opened : List Opener} {c : Char} {cs w rest : List Char}

theorem Quiet.operator (later : Quiet limit opened (operators + 1) cs) (operator : isOperatorChar c = true)
    (each : ∀ d ∈ w, isOperatorChar d = true) (ends : ∀ d ∈ cs.head?, isOperatorChar d = false)
    (room : opened.length + operators + 1 ≤ limit) : Quiet limit opened operators (c :: (w ++ cs)) := by
  intro offset
  rw [excess?_operator operator, if_neg (Nat.not_lt.2 room), (Decimal.span_append each ends).2]
  exact later _

theorem Quiet.operatorChar (later : Quiet limit opened (operators + 1) cs)
    (operator : isOperatorChar c = true) (ends : ∀ d ∈ cs.head?, isOperatorChar d = false)
    (room : opened.length + operators + 1 ≤ limit) : Quiet limit opened operators (c :: cs) :=
  later.operator (w := []) operator (List.forall_mem_nil _) ends room

theorem Quiet.openBracket (later : Quiet limit (.bracket :: opened) 0 cs) (bracket : c = '(' ∨ c = '[')
    (room : opened.length + 1 ≤ limit) : Quiet limit opened operators (c :: cs) := by
  intro offset
  rw [excess?_openBracket bracket, if_neg (Nat.not_lt.2 room)]
  exact later _

theorem endBindings_replicate (n : Nat) (opened : List Opener) :
    endBindings (List.replicate n .binding ++ .bracket :: opened) = .bracket :: opened := by
  induction n with
  | zero => rfl
  | succ n ih => exact ih

theorem Quiet.closeBracket (later : Quiet limit opened 0 cs) (n : Nat) (bracket : c = ')' ∨ c = ']') :
    Quiet limit (List.replicate n .binding ++ .bracket :: opened) operators (c :: cs) := by
  intro offset
  rw [excess?_closeBracket bracket, endBindings_replicate]
  exact later _

theorem Quiet.comma (later : Quiet limit (.bracket :: opened) 0 cs) (n : Nat) :
    Quiet limit (List.replicate n .binding ++ .bracket :: opened) operators (',' :: cs) := by
  intro offset
  rw [excess?_comma, endBindings_replicate]
  exact later _

theorem Quiet.other (later : Quiet limit opened operators cs) (operator : isOperatorChar c = false)
    (comment : c ≠ '#') (mark : Lexeme.isMark c = false) (starts : c.isAlphanum = false)
    (dollar : c ≠ '$') : Quiet limit opened operators (c :: cs) := by
  intro offset
  rw [excess?_other operator comment mark starts dollar]
  exact later _

theorem Quiet.space (later : Quiet limit opened operators cs) : Quiet limit opened operators (' ' :: cs) :=
  later.other (by decide) (by decide) (by decide) (by decide) (by decide)

theorem excess?_run {offset : Nat} (starts : c.isAlphanum = true ∨ c = '$')
    (each : ∀ d ∈ w, Lexeme.continuesWord d = true)
    (ends : ∀ d ∈ cs.head?, Lexeme.continuesWord d = false) :
    excess? limit opened operators offset (c :: (w ++ cs)) =
      if c :: w = ['l', 'e', 't'] then
        if limit < opened.length + 1 then some ⟨offset, opened.length + 1⟩
        else excess? limit (.binding :: opened) 0 (offset + (c :: w).length) cs
      else excess? limit opened 0 (offset + (c :: w).length) cs := by
  obtain ⟨run, behind⟩ := Decimal.span_append each ends
  rw [excess?_word starts, run, behind]

theorem Quiet.word (later : Quiet limit opened 0 cs) (starts : c.isAlphanum = true ∨ c = '$')
    (each : ∀ d ∈ w, Lexeme.continuesWord d = true)
    (ends : ∀ d ∈ cs.head?, Lexeme.continuesWord d = false) (plain : c :: w ≠ ['l', 'e', 't']) :
    Quiet limit opened operators (c :: (w ++ cs)) := by
  intro offset
  rw [excess?_run starts each ends, if_neg plain]
  exact later _

theorem Quiet.letWord (later : Quiet limit (.binding :: opened) 0 (' ' :: cs))
    (room : opened.length + 1 ≤ limit) :
    Quiet limit opened operators ("let".toList ++ ' ' :: cs) := by
  intro offset
  refine (excess?_run (c := 'l') (w := ['e', 't']) (.inl rfl) (Numeral.forall_mem_of_all rfl)
    Stops.space.continuesWord).trans ?_
  rw [if_pos rfl, if_neg (Nat.not_lt.2 room)]
  exact later _

/-- What a text leaves open: bindings that end with the bracket around it, and perhaps an operator. -/
def Leaves (limit : Nat) (opened : List Opener) (size : Nat) (rest : List Char) : Prop :=
  ∀ n ≤ size, ∀ k ≤ 1, Quiet limit (List.replicate n .binding ++ opened) k rest

theorem Leaves.quiet {size : Nat} (leaves : Leaves limit opened size rest) {k : Nat} (few : k ≤ 1) :
    Quiet limit opened k rest := leaves 0 (Nat.zero_le _) k few

theorem Leaves.append {size n m : Nat} (leaves : Leaves limit opened size rest) (fits : m + n ≤ size) :
    Leaves limit (List.replicate n .binding ++ opened) m rest := by
  intro j most k few
  rw [← List.append_assoc, List.replicate_append_replicate]
  exact leaves (j + n) (by omega) k few

theorem Quiet.wrapped {size : Nat} (brackets : Bool)
    (inner : ∀ {opened operators rest}, Stops rest → opened.length + operators + size ≤ limit →
      Leaves limit opened size rest → Quiet limit opened operators (cs ++ rest))
    (stops : Stops rest) (room : opened.length + operators + size ≤ limit)
    (roomBracket : opened.length + 1 + size ≤ limit) (leaves : Leaves limit opened size rest) :
    Quiet limit opened operators (Expr.wrapped brackets cs ++ rest) := by
  unfold Expr.wrapped
  split
  · have closes : Stops (')' :: rest) := .cons (by simp)
    rw [List.cons_append, List.append_assoc]
    refine (inner closes ?_ fun n _ k _ => ?_).openBracket (.inl rfl) (by omega)
    · simpa using roomBracket
    · exact (leaves.quiet (Nat.zero_le 1)).closeBracket n (.inl rfl)
  · exact inner stops room leaves

end Nesting

open Nesting

variable {limit operators : Nat} {opened : List Opener} {rest : List Char}

theorem quiet_number {x : Float} {cs : List Char} {l : Lexeme} (form : Expr.NumberForm x cs l)
    (stops : Stops rest) (leaves : Leaves limit opened 1 rest) :
    Quiet limit opened operators (cs ++ rest) := by
  have later : Quiet limit opened 0 rest := leaves.quiet (Nat.zero_le 1)
  have ends := stops.continuesWord
  have run {ds r : List Char} {k : Nat} (digits : Decimal.Digits ds)
      (ends : ∀ d ∈ r.head?, Lexeme.continuesWord d = false) (later : Quiet limit opened 0 r) :
      Quiet limit opened k (ds ++ r) := by
    obtain ⟨some, each⟩ := digits
    obtain ⟨c, w, rfl⟩ := List.exists_cons_of_ne_nil some
    obtain ⟨digit, others⟩ := List.forall_mem_cons.1 each
    exact later.word (.inl (Numeral.isAlphanum_of_isDigit digit))
      (fun d member => Lexeme.continuesWord_of_isDigit (others d member)) ends
      (ne_let_of_isDigit digit)
  cases form with
  | nan =>
    exact later.word (w := ['a', 'N']) (.inl rfl) (Numeral.forall_mem_of_all rfl) ends (by decide)
  | infinity =>
    exact later.word (w := ['n', 'f', 'i', 'n', 'i', 't', 'y']) (.inl rfl) (Numeral.forall_mem_of_all rfl)
      ends (by decide)
  | decimal form alike =>
    cases form with
    | whole digits value => exact run digits ends later
    | point digits fraction value =>
      rw [List.append_assoc, List.cons_append]
      refine run digits (by simp; decide) ((run fraction ends later).other ?_ ?_ ?_ ?_ ?_)
      all_goals decide

theorem quiet_identifier {name : String} (named : isIdentifier name = true) (stops : Stops rest)
    (later : Quiet limit opened 0 rest) : Quiet limit opened operators (name.toList ++ rest) := by
  obtain ⟨c, w, whole, first, others, free⟩ := isIdentifier_iff.1 named
  rw [whole]
  refine later.word (Lexeme.isAlphanum_or_of_startsWord first) others stops.continuesWord
    fun same => free ?_
  rw [same]
  decide

namespace Expr

variable {α : Type}

theorem quiet_var {t : α} {name : String} (named : isVariable name = true) (stops : Stops rest)
    (room : opened.length + 1 ≤ limit) (leaves : Leaves limit opened 1 rest) :
    Quiet limit opened operators ((var t name).chars ++ rest) := by
  have behindOp {cs : List Char} (later : Quiet limit opened 0 cs) :
      Quiet limit opened operators ('o' :: 'p' :: ' ' :: cs) :=
    Quiet.word later.space (w := ['p']) (.inl rfl) (Numeral.forall_mem_of_all rfl)
      Stops.space.continuesWord (by decide)
  have later : Quiet limit opened 1 rest := leaves.quiet (Nat.le_refl 1)
  unfold chars text
  by_cases operator : isOperatorName name = true
  · simp only [operator, Bool.true_or, if_true]
    rw [String.toList_append]
    simp only [isOperatorName, Bool.and_eq_true, List.all_eq_true] at operator
    obtain ⟨some, each⟩ := operator
    cases whole : name.toList with
    | nil => simp [whole] at some
    | cons c w =>
      rw [whole] at each
      obtain ⟨first, others⟩ := List.forall_mem_cons.1 each
      exact behindOp (later.operator first others stops.isOperatorChar room)
  by_cases sign : (Sign.ofName? name).isSome = true
  · simp only [operator, sign, Bool.or_true, if_true]
    obtain ⟨s, found⟩ := Option.isSome_iff_exists.1 sign
    rw [String.toList_append, ofName?_some found]
    have behind : Quiet limit opened 1 ('_' :: rest) :=
      later.other (by decide) (by decide) (by decide) (by decide) (by decide)
    cases s <;> exact behindOp (behind.operatorChar (by decide) (by simp; decide) room)
  · simp only [operator, sign, Bool.false_eq_true, Bool.or_self, if_false]
    exact quiet_identifier (isIdentifier_of_isVariable named operator sign) stops
      (leaves.quiet (Nat.zero_le 1))

/-- A tree with this many nodes is quiet where there is room for them. -/
def QuietTree (limit : Nat) (e : Expr α) : Prop :=
  ∀ {opened operators rest}, Stops rest → opened.length + operators + e.preorder.length ≤ limit →
    Leaves limit opened e.preorder.length rest → Quiet limit opened operators (e.chars ++ rest)

theorem quiet_elements {es : List (Expr α)} (size : Expr α → Nat)
    (each : ∀ e ∈ es, ∀ {r}, Stops r → Leaves limit (.bracket :: opened) (size e) r →
      Quiet limit (.bracket :: opened) 0 (e.chars ++ r))
    (later : Quiet limit opened 0 rest) :
    Quiet limit (.bracket :: opened) 0 (elements es ++ ']' :: rest) := by
  induction es with
  | nil => exact later.closeBracket 0 (.inr rfl)
  | cons e es ih =>
    cases es with
    | nil =>
      refine each e List.mem_cons_self (.cons (by simp)) fun n _ k _ => ?_
      exact later.closeBracket n (.inr rfl)
    | cons f es =>
      have others := ih fun e member => each e (List.mem_cons_of_mem _ member)
      rw [elements_cons_cons, List.append_assoc]
      refine each e List.mem_cons_self (.cons (by simp)) fun n _ k _ => ?_
      exact others.space.comma n

/-- The scan finds nothing in the written form of a tree that there is room for. -/
theorem Printable.quiet {e : Expr α} (printable : e.Printable) : QuietTree limit e := by
  induction printable with
  | number unsigned =>
    intro opened operators rest stops room leaves
    exact quiet_number (numberForm unsigned) stops leaves
  | var named =>
    intro opened operators rest stops room leaves
    have one : opened.length + operators + 1 ≤ limit := room
    exact quiet_var named stops (by omega) leaves
  | @vector t es elems ih =>
    intro opened operators rest stops room leaves
    have some := preorder_length_pos (.vector t es)
    rw [chars_vector, List.cons_append, List.append_assoc]
    refine (quiet_elements (·.preorder.length) (fun e member r stops inner => ih e member stops ?_ inner)
      (leaves.quiet (Nat.zero_le 1))).openBracket (.inr rfl) (by omega)
    have below := preorder_length_le (e := .vector t es) member
    rw [List.length_cons]
    omega
  | @apply t f x func arg ihf ihx =>
    intro opened operators rest stops room leaves
    have size : (Expr.apply t f x).preorder.length = f.preorder.length + x.preorder.length + 1 := by
      simp [preorder]
    rw [size] at room leaves
    have some := preorder_length_pos f
    cases sign : f.sign? with
    | none =>
      rw [chars_apply sign, List.append_assoc, List.cons_append]
      refine Quiet.wrapped _ ihf .space (by omega) (by omega) fun n most k few => Quiet.space ?_
      refine Quiet.wrapped _ ihx stops ?_ ?_ (leaves.append (by omega))
      all_goals
        rw [List.length_append, List.length_replicate]
        omega
    | some s =>
      rw [chars_sign sign, List.append_assoc]
      have argument : Quiet limit opened (operators + 1)
          (wrapped (!x.isSimple) x.chars ++ rest) :=
        Quiet.wrapped _ ihx stops (by omega) (by omega) (leaves.append (n := 0) (by omega))
      have head := argument_head arg stops
      cases s <;> exact argument.operatorChar (by decide) head (by omega)
  | @letIn t x b e named bound body ihb ihe =>
    intro opened operators rest stops room leaves
    have size : (Expr.letIn t x b e).preorder.length = b.preorder.length + e.preorder.length + 1 := by
      simp [preorder]
    rw [size] at room leaves
    have someBound := preorder_length_pos b
    have someBody := preorder_length_pos e
    rw [chars_letIn]
    simp only [List.append_assoc, List.cons_append]
    have behindIn {n : Nat} (most : n ≤ b.preorder.length) {k : Nat} :
        Quiet limit (List.replicate n .binding ++ .binding :: opened) k
          (' ' :: ("in".toList ++ ' ' :: (e.chars ++ rest))) := by
      refine Quiet.space (Quiet.word (c := 'i') (w := ['n']) (Quiet.space ?_) (.inl rfl)
        (Numeral.forall_mem_of_all rfl) Stops.space.continuesWord (by decide))
      have joined : List.replicate n Opener.binding ++ .binding :: opened =
          List.replicate (n + 1) .binding ++ opened := by
        rw [List.replicate_succ', List.append_assoc]
        rfl
      rw [joined]
      refine ihe stops ?_ (leaves.append (by omega))
      rw [List.length_append, List.length_replicate]
      omega
    refine Quiet.letWord (Quiet.space (quiet_identifier named .space (Quiet.space ?_))) (by omega)
    refine Quiet.operatorChar (Quiet.space (ihb .space ?_ fun n most k _ => behindIn most))
      (by decide) Stops.space.isOperatorChar ?_
    all_goals
      rw [List.length_cons]
      omega

/-- The nesting of a written form is within a limit that is at least the number of nodes. -/
theorem Printable.nestingExcess?_eq_none {e : Expr α} (printable : e.Printable)
    (room : e.preorder.length ≤ limit) : nestingExcess? limit e.chars = none := by
  have quiet : Quiet limit [] 0 (e.chars ++ []) :=
    printable.quiet .nil (by simpa using room) fun n _ k _ offset => by rw [excess?]
  rw [List.append_nil] at quiet
  exact quiet 0

end Expr

end Formula
