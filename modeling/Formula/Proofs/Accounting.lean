import Formula.Report
import Mathlib

/-! What a report makes of a trace. The positions are gone through once, and each but the primary one
becomes a label or a note, whatever positions it is equal to. Main statement: a report labels the
innermost position in the text as its primary one, and accounts for every other position of the
trace exactly once and in order. -/
namespace Formula.Report

variable {e : Error} {source : String} {primary : Nat} {p : Position}

theorem foldl_addPosition {entries : List (Position × Nat)}
    (apart : ∀ entry ∈ entries, entry.2 ≠ primary) (r : Report) :
    entries.foldl (addPosition source primary) r =
      { r with
        callers := r.callers ++ (entries.map Prod.fst).filter (·.source = source)
        elsewhere := r.elsewhere ++ (entries.map Prod.fst).filter (·.source ≠ source) } := by
  induction entries generalizing r with
  | nil => simp
  | cons entry entries ih =>
    obtain ⟨other, apart⟩ := List.forall_mem_cons.1 apart
    rw [List.foldl_cons, ih apart, addPosition, if_neg other]
    by_cases here : entry.1.source = source <;> simp [here]

theorem foldl_zipIdx {ps : List Position} {start : Nat}
    (apart : primary < start ∨ start + ps.length ≤ primary) (r : Report) :
    (ps.zipIdx start).foldl (addPosition source primary) r =
      { r with
        callers := r.callers ++ ps.filter (·.source = source)
        elsewhere := r.elsewhere ++ ps.filter (·.source ≠ source) } := by
  rw [foldl_addPosition (fun entry member => ?_), List.zipIdx_map_fst]
  have within := List.snd_lt_of_mem_zipIdx member
  have above := List.le_snd_of_mem_zipIdx member
  omega

/-- A trace with its primary position, which is the innermost one in the text that the outermost one refers
to, and the others. Without positions the default one is primary. -/
inductive Divided : List Position → String → Position → List Position → Prop where
  | empty : Divided [] Position.unknown.source .unknown []
  | around {before after primary outermost} (last : outermost ∈ (before ++ primary :: after).getLast?)
    (here : primary.source = outermost.source) (elsewhere : ∀ q ∈ before, q.source ≠ outermost.source) :
    Divided (before ++ primary :: after) outermost.source primary (before ++ after)

theorem Divided.length_eq {trace others : List Position} (divided : Divided trace source p others) :
    others.length + 1 = max 1 trace.length := by
  cases divided with
  | empty => rfl
  | around =>
    simp only [List.length_append, List.length_cons]
    omega

theorem sourceOf_of_getLast? {trace : List Position} (last : p ∈ trace.getLast?) :
    sourceOf trace = p.source := by
  rw [sourceOf, List.getLastD_eq_getLast?, Option.mem_def.1 last]
  rfl

/-- The outermost position is in the text itself, so one is the innermost there. -/
theorem exists_divided (trace : List Position) :
    ∃ primary others, Divided trace (sourceOf trace) primary others := by
  cases last : trace.getLast? with
  | none =>
    obtain rfl := List.getLast?_eq_none_iff.1 last
    exact ⟨_, _, .empty⟩
  | some outermost =>
    have own : ∃ q ∈ trace, decide (q.source = outermost.source) = true :=
      ⟨outermost, List.mem_of_getLast? last, decide_eq_true rfl⟩
    obtain ⟨primary, found⟩ := Option.isSome_iff_exists.1 (List.find?_isSome.2 own)
    obtain ⟨here, before, after, rfl, others⟩ := List.find?_eq_some_iff_append.1 found
    rw [sourceOf_of_getLast? last]
    exact ⟨primary, before ++ after,
      .around last (of_decide_eq_true here) fun q member => by simpa using others q member⟩

theorem findIdx_source {before after : List Position} {primary : Position}
    (here : primary.source = source) (elsewhere : ∀ q ∈ before, q.source ≠ source) :
    (before ++ primary :: after).findIdx (·.source = source) = before.length := by
  have none : before.findIdx (·.source = source) = before.length :=
    List.findIdx_eq_length.2 fun q member => decide_eq_false (elsewhere q member)
  rw [List.findIdx_append, none, if_neg (Nat.lt_irrefl _), List.findIdx_cons, decide_eq_true here]
  exact Nat.zero_add _

theorem ofError_of_divided {others : List Position} (divided : Divided (positions e) source p others) :
    ofError e =
      { header := "Error: " ++ e.message
        primary := p
        label := primaryLabel e
        callers := others.filter (·.source = source)
        elsewhere := others.filter (·.source ≠ source) } := by
  generalize whole : positions e = trace at divided
  rw [ofError, whole]
  cases divided with
  | empty => rfl
  | @around before after _ outermost last here elsewhere =>
    rw [sourceOf_of_getLast? last]
    have infront : before.length < 0 ∨ 0 + before.length ≤ before.length := .inr (by omega)
    have behind : before.length < before.length + 1 ∨
        before.length + 1 + after.length ≤ before.length := .inl (Nat.lt_succ_self _)
    rw [findIdx_source here elsewhere, List.zipIdx_append, List.zipIdx_cons, List.foldl_append,
      List.foldl_cons, foldl_zipIdx infront, addPosition, Nat.zero_add, if_pos rfl, foldl_zipIdx behind]
    simp

theorem labelsIn_eq (r : Report) (text : String) :
    r.labelsIn text =
      (r.primary.spanIn text, r.label) :: r.callers.map fun p => (p.spanIn text, callerLabel) := by
  rw [labelsIn, labels, List.map_cons, List.zip_cons_cons, List.zip_map']

theorem length_filter_add (source : String) (ps : List Position) :
    (ps.filter (·.source = source)).length + (ps.filter (·.source ≠ source)).length = ps.length := by
  simpa using (List.length_eq_length_filter_add (l := ps) (·.source = source)).symm

/-- What a report makes of a trace: a primary label, for every other position in its text a label there, and
a note for each one elsewhere, in the order of the trace. Equal positions are told apart by their places. -/
structure Accounts (r : Report) (text label : String) (trace : List Position) : Prop where
  divided : ∃ source primary others, Divided trace source primary others ∧
    r.labelsIn text = (primary.spanIn text, label) ::
      (others.filter (·.source = source)).map (fun p => (p.spanIn text, "called from here")) ∧
    r.notes = (others.filter (·.source ≠ source)).map fun p => "raised at " ++ p.text
  count : (r.labelsIn text).length + r.notes.length = max 1 trace.length

theorem accounts_positions (e : Error) (text : String) :
    (ofError e).Accounts text (primaryLabel e) (positions e) := by
  obtain ⟨primary, others, divided⟩ := exists_divided (positions e)
  have report := ofError_of_divided divided
  constructor
  · refine ⟨_, primary, others, divided, ?_⟩
    rw [labelsIn_eq, report]
    exact ⟨rfl, rfl⟩
  · have parts := length_filter_add (sourceOf (positions e)) others
    have whole := divided.length_eq
    rw [labelsIn_eq, report]
    simp only [notes, List.length_cons, List.length_map] at parts ⊢
    omega

/-- A report accounts for every position of the trace of a failed evaluation exactly once, and for the
position of a text that is no expression. -/
theorem ofError_accounts (text : String) :
    (∀ e : RuntimeError, (ofError (.runtime e)).Accounts text (primaryLabel (.runtime e)) e.trace) ∧
      ∀ e : ParseError, (ofError (.parse e)).Accounts text (primaryLabel (.parse e)) [e.position] :=
  ⟨fun e => accounts_positions (.runtime e) text, fun e => accounts_positions (.parse e) text⟩

/-- The two calls are at equal positions, and only the inner one is the primary position. -/
example :
    let call : Position := ⟨"main", 1, 5, 4⟩
    let r := ofError (.runtime ⟨[⟨"lib", 1, 1, 0⟩, call, call, .startOf "main"], .emptyVector⟩)
    r.primary = call ∧ r.callers = [call, .startOf "main"] ∧ r.notes = ["raised at lib:1:1"] := by
  decide +kernel

end Formula.Report
