import Formula.Proofs.FirstSeen
import Formula.Proofs.Phrases
import Formula.Proofs.Viable

/-! What stands in a text where the nodes of its tree are placed. Tokens that follow each other are a
piece of the text that is cut into the same lexemes alone. Main statement: every node of a tree is
placed at its own text, an application without an operator at its argument as it is written. -/
namespace Formula

open State

/-- Characters that stand in a text from a byte on. -/
def StandsAt (text : List Char) (offset : Nat) (w : List Char) : Prop :=
  ∃ before after, text = before ++ (w ++ after) ∧ byteLength before = offset

/-- Lexemes that are written in a text from a byte on, the first of them right there: what is written
there is cut into them. -/
def WrittenAt (text : List Char) (offset : Nat) (ls : List Lexeme) : Prop :=
  ∃ first later w, ls = first :: later ∧ StandsAt text offset (first.text ++ w) ∧
    Lexes false (first.text ++ w) ls

/-- A token of a text that stands where it says. -/
structure Shows (text : List Char) (offset : Nat) (l : Lexeme) : Prop where
  token : ⟨offset, l⟩ ∈ (Scan.ofText text).tokens
  stands : StandsAt text offset l.text

/-- What stands in a text where a node is placed. A sign and an operator stand for their variable and
for the applications they make; an argument right behind what is applied to it is an application. -/
inductive PointsAt (text : List Char) : Draft → Prop where
  | atom {o l e} (shows : Shows text o l) (atom : Atom o l e) : PointsAt text e
  | named {o l name} (written : WrittenAt text o [.op, l]) (named : Named l name) :
    PointsAt text (.var o name)
  | vector {o es} (shows : Shows text o (.mark '[')) : PointsAt text (.vector o es)
  | letIn {o x b e} (shows : Shows text o (.word "let".toList)) : PointsAt text (.letIn o x b e)
  | signVariable {o} {s : Sign} (shows : Shows text o (.operators s.symbol.toList)) :
    PointsAt text (.var o s.name)
  | sign {o e} {s : Sign} (shows : Shows text o (.operators s.symbol.toList)) :
    PointsAt text (s.apply o e)
  | operatorVariable {o} {op : Operator} (shows : Shows text o (.operators op.symbol.toList)) :
    PointsAt text (.var o op.symbol)
  | left {o e} {op : Operator} (shows : Shows text o (.operators op.symbol.toList)) :
    PointsAt text (.apply o (.var o op.symbol) e)
  | operator {o left right} {op : Operator} (shows : Shows text o (.operators op.symbol.toList)) :
    PointsAt text (op.join o left right)
  | argument {o ts us f x} (within : ts ++ us <:+: (Scan.ofText text).tokens)
    (func : Forms ts (.application f)) (arg : Forms us (.atom o x))
    (written : WrittenAt text o (us.map Token.lexeme)) : PointsAt text (.apply o f x)

section Slices

variable {afterOp : Bool} {offset : Nat} {cs v w r : List Char} {ls ms : List Lexeme} {l : Lexeme}
  {ts us : List Token} {t : Token} {P Q : List Char → Prop}

theorem Longest.take (longest : Longest P (w ++ (v ++ r)) w (v ++ r)) : Longest P (w ++ v) w v := by
  refine ⟨rfl, longest.holds, fun u s holds whole => longest.longest u (s ++ r) holds ?_⟩
  rw [← List.append_assoc, whole, List.append_assoc]

theorem Longest.mono (longest : Longest P cs w r) (less : ∀ u, Q u → P u) (holds : Q w) :
    Longest Q cs w r :=
  ⟨longest.append, holds, fun u s more => longest.longest u s (less u more)⟩

theorem Lexeme.Valid.anywhere (valid : l.Valid afterOp) (unnamed : ∀ cs, l ≠ .signName cs)
    (afterOp' : Bool) : l.Valid afterOp' := by
  cases valid with
  | numeral valid => exact .numeral valid
  | word first others => exact .word first others
  | operators each => exact .operators each
  | signName => exact absurd rfl (unnamed _)
  | mark mark => exact .mark mark

theorem Lexeme.Spelled.after (spelled : Spelled false cs) : Spelled afterOp cs := by
  obtain ⟨l, valid, rfl⟩ := spelled
  exact ⟨l, valid.anywhere (by rintro _ rfl; cases valid; contradiction) afterOp, rfl⟩

/-- The first of some lexemes are what the beginning of the text is cut into that ends with them. -/
theorem Lexes.take (lexes : Lexes afterOp cs (ls ++ ms)) : ∃ w r, cs = w ++ r ∧ Lexes afterOp w ls := by
  generalize all : ls ++ ms = ks at lexes
  induction lexes generalizing ls with
  | nil =>
    obtain ⟨rfl, _⟩ := List.append_eq_nil_iff.1 all
    exact ⟨[], [], rfl, .nil⟩
  | @blank _ c _ _ blank _ ih =>
    obtain ⟨w, r, rfl, cut⟩ := ih all
    exact ⟨c :: w, r, rfl, .blank blank cut⟩
  | @comment _ body rest _ inside ends _ ih =>
    obtain ⟨w, r, rfl, cut⟩ := ih all
    refine ⟨'#' :: (body ++ w), r, by simp, .comment inside (fun c first => ends c ?_) cut⟩
    rw [List.head?_append, Option.mem_def.1 first]
    rfl
  | @lexeme _ cs l rest ks valid longest later ih =>
    cases ls with
    | nil => exact ⟨[], cs, rfl, .nil⟩
    | cons m ls =>
      obtain ⟨rfl, others⟩ := List.cons.inj all
      obtain ⟨w, r, rfl, cut⟩ := ih others
      have whole := longest.append
      subst whole
      exact ⟨m.text ++ w, r, by simp, .lexeme valid longest.take cut⟩

namespace Scan

/-- Each token of a text stands at its place, cut off as the longest lexeme there, and what stands
behind it is cut into the tokens behind it. -/
theorem scanFrom_token (whole : (scanFrom afterOp offset cs).rest = [])
    (split : (scanFrom afterOp offset cs).tokens = ts ++ t :: us) : ∃ afterOp' before after,
      cs = before ++ (t.lexeme.text ++ after) ∧ t.offset = offset + byteLength before ∧
      t.lexeme.Valid afterOp' ∧
      Longest (Lexeme.Spelled afterOp') (t.lexeme.text ++ after) t.lexeme.text after ∧
      Lexes (t.lexeme = Lexeme.op) after (us.map Token.lexeme) := by
  induction afterOp, offset, cs using scanFrom.induct generalizing ts with
  | @case1 afterOp offset cs start stops =>
    rw [scanFrom_none stops] at split
    exact absurd split.symm (List.append_ne_nil_of_right_ne_nil _ (List.cons_ne_nil _ _))
  | @case2 afterOp offset cs start l rest found ih =>
    obtain ⟨gap, layout⟩ := layout_dropLayout false offset cs
    have cuts := Lexeme.cut?_some_iff.1 found
    rw [scanFrom_some found] at split whole
    dsimp only [start] at cuts
    rw [cuts.append] at layout cuts
    cases ts with
    | nil =>
      obtain ⟨rfl, rfl⟩ := List.cons.inj split
      obtain ⟨valid, longest⟩ := Lexeme.cuts_iff_longest.1 cuts
      exact ⟨afterOp, gap, rest, layout.whole, layout.place, valid, longest,
        scanFrom_lexes _ whole⟩
    | cons u ts =>
      obtain ⟨rfl, later⟩ := List.cons.inj split
      obtain ⟨afterOp', before, after, rfl, place, token⟩ := ih whole later
      have ascii := Nesting.byteLength_ascii fun c member => (cuts.ascii c member).1
      refine ⟨afterOp', gap ++ (l.text ++ before), after, by simp [layout.whole], ?_, token⟩
      rw [place, Nesting.byteLength_append, Nesting.byteLength_append, ascii, layout.place]
      omega

end Scan

end Slices

section Tokens

variable {text : List Char} {o : Nat} {l : Lexeme} {ts us : List Token} {t : Token}

theorem shows_of_mem (whole : (Scan.ofText text).rest = [])
    (member : ⟨o, l⟩ ∈ (Scan.ofText text).tokens) : Shows text o l := by
  obtain ⟨ts, us, split⟩ := List.append_of_mem member
  obtain ⟨_, before, after, parts, place, _⟩ := Scan.scanFrom_token whole split
  exact ⟨member, before, after, parts, (place.trans (Nat.zero_add _)).symm⟩

theorem writtenAt_tokens (whole : (Scan.ofText text).rest = [])
    (within : t :: us <:+: (Scan.ofText text).tokens) (unnamed : ∀ cs, t.lexeme ≠ .signName cs) :
    WrittenAt text t.offset ((t :: us).map Token.lexeme) := by
  obtain ⟨ts, vs, split⟩ := within
  rw [List.append_assoc, List.cons_append] at split
  obtain ⟨afterOp, before, after, parts, place, valid, longest, later⟩ :=
    Scan.scanFrom_token whole split.symm
  rw [List.map_append] at later
  obtain ⟨w, r, rfl, cut⟩ := later.take
  have plain := valid.anywhere unnamed false
  have longest := longest.mono (fun u => Lexeme.Spelled.after) ⟨_, plain, rfl⟩
  refine ⟨t.lexeme, us.map Token.lexeme, w, rfl, ⟨before, r, by rw [parts, List.append_assoc], ?_⟩,
    .lexeme plain longest.take cut⟩
  exact (place.trans (Nat.zero_add _)).symm

theorem Forms.atom_starts {e : Draft} (forms : Forms ts (.atom o e)) :
    ∃ l us, ts = ⟨o, l⟩ :: us ∧ ∀ cs, l ≠ .signName cs := by
  cases forms with
  | lexeme atom => exact ⟨_, _, rfl, by cases atom <;> nofun⟩
  | named | group | emptyVector | vector => exact ⟨_, _, rfl, nofun⟩

end Tokens

section Trees

variable {text : List Char}

/-- The nodes of a tree are placed at their own text. -/
def Points (text : List Char) (e : Draft) : Prop := ∀ n ∈ e.preorder, PointsAt text n

/-- The nodes of the operand of a term are placed at their own text, and its signs are. -/
structure TermPoints (text : List Char) (t : Term Nat) : Prop where
  signs : ∀ s ∈ t.signs, Shows text s.2 (.operators s.1.symbol.toList)
  operand : Points text t.operand

/-- The operators of links, and the terms behind them, are placed at their own text. -/
def LinksPoint (text : List Char) (links : List (Link (Term Nat) Nat)) : Prop :=
  ∀ link ∈ links, Shows text link.tag (.operators link.op.symbol.toList) ∧
    TermPoints text link.operand

/-- Phrases whose trees point at their own text. -/
def Phrase.Points (text : List Char) : Phrase → Prop
  | .atom _ e | .application e | .operand e | .expression e => Formula.Points text e
  | .elements es => ∀ e ∈ es, Formula.Points text e
  | .chain c => TermPoints text c.first ∧ LinksPoint text c.links

theorem points_leaf {e : Draft} (leaf : e.preorder = [e]) (points : PointsAt text e) :
    Points text e := by
  intro n member
  rw [leaf, List.mem_singleton] at member
  exact member ▸ points

theorem points_apply {o : Nat} {f x : Draft} (node : PointsAt text (.apply o f x))
    (func : Points text f) (arg : Points text x) : Points text (.apply o f x) :=
  List.forall_mem_cons.2 ⟨node, List.forall_mem_append.2 ⟨func, arg⟩⟩

theorem points_vector {o : Nat} {es : List Draft} (shows : Shows text o (.mark '['))
    (elems : ∀ e ∈ es, Points text e) : Points text (.vector o es) := by
  refine List.forall_mem_cons.2 ⟨.vector shows, fun n member => ?_⟩
  rw [Expr.preorderAll_eq_flatMap] at member
  obtain ⟨e, elem, below⟩ := List.mem_flatMap.1 member
  exact elems e elem n below

theorem points_applyAll {signs : List (Sign × Nat)} {e : Draft}
    (shows : ∀ s ∈ signs, Shows text s.2 (.operators s.1.symbol.toList))
    (operand : Points text e) : Points text (Sign.applyAll signs e) := by
  induction signs with
  | nil => exact operand
  | cons sign signs ih =>
    obtain ⟨first, others⟩ := List.forall_mem_cons.1 shows
    rw [Sign.applyAll_cons, ← Sign.name_eq]
    exact points_apply (.sign first) (points_leaf rfl (.signVariable first)) (ih others)

theorem points_join {o : Nat} {op : Operator} {left right : Draft}
    (shows : Shows text o (.operators op.symbol.toList)) (leftTree : Points text left)
    (rightTree : Points text right) :
    Points text (.apply o (.apply o (.var o op.symbol) left) right) :=
  points_apply (.operator shows)
    (points_apply (.left shows) (points_leaf rfl (.operatorVariable shows)) leftTree) rightTree

theorem points_groupTerms {first : Term Nat} {links : List (Link (Term Nat) Nat)}
    (term : TermPoints text first) (others : LinksPoint text links) :
    Points text (groupTerms first links) := by
  induction first, links using groupTerms.induct with
  | case1 first links none =>
    rw [Link.split?_eq_none.1 none, groupTerms_nil]
    exact points_applyAll (fun s member => term.signs s (List.mem_reverse.1 member)) term.operand
  | case2 first links before loosest after found left right =>
    obtain ⟨parts, _, _⟩ := Link.split?_some found
    rw [parts] at others
    obtain ⟨before, later⟩ := List.forall_mem_append.1 others
    obtain ⟨⟨shows, operand⟩, after⟩ := List.forall_mem_cons.1 later
    rw [groupTerms_of_split? found]
    exact points_join shows (left term before) (right operand after)

/-- The trees of phrases that stand in a text point at their own text. -/
theorem Forms.points {ts : List Token} {φ : Phrase} (whole : (Scan.ofText text).rest = [])
    (forms : Forms ts φ) (within : ts <:+: (Scan.ofText text).tokens) : φ.Points text := by
  have token {o l ts} (within : ts <:+: (Scan.ofText text).tokens) (member : ⟨o, l⟩ ∈ ts) :
      Shows text o l := shows_of_mem whole (within.subset member)
  have signs {signs : List (Sign × Nat)} {ts : List Token}
      (within : Sign.tokens signs ++ ts <:+: (Scan.ofText text).tokens) :
      ∀ s ∈ signs.reverse, Shows text s.2 (.operators s.1.symbol.toList) := by
    intro s member
    refine token within (List.mem_append_left _ ?_)
    exact List.mem_map.2 ⟨s, List.mem_reverse.1 member, rfl⟩
  induction forms with
  | lexeme atom =>
    have shows := token within List.mem_cons_self
    exact points_leaf (by cases atom <;> rfl) (.atom shows atom)
  | named named =>
    exact points_leaf rfl (.named (writtenAt_tokens whole within nofun) named)
  | group _ inner => exact inner ((List.infix_append' [_] _ [_]).trans within)
  | emptyVector => exact points_vector (token within List.mem_cons_self) nofun
  | vector _ elems =>
    exact points_vector (token within List.mem_cons_self) 
      (elems ((List.infix_append' [_] _ [_]).trans within))
  | element _ elem => exact List.forall_mem_singleton.2 (elem within)
  | @more p ts us e es _ _ elem others =>
    exact List.forall_mem_cons.2 ⟨elem ((List.prefix_append _ _).isInfix.trans within),
      others (((List.suffix_cons _ us).trans (List.suffix_append ts _)).isInfix.trans within)⟩
  | function _ atom => exact atom within
  | @argument o ts us f x func arg funcPoints argPoints =>
    have behind : us <:+: (Scan.ofText text).tokens :=
      (List.suffix_append ts us).isInfix.trans within
    have written : WrittenAt text o (us.map Token.lexeme) := by
      obtain ⟨l, vs, rfl, unnamed⟩ := arg.atom_starts
      exact writtenAt_tokens whole behind unnamed
    exact points_apply (.argument within func arg written)
      (funcPoints ((List.prefix_append _ _).isInfix.trans within)) (argPoints behind)
  | applied _ application => exact application within
  | @binding o p q r cs bs es b e _ _ _ bound body =>
    refine List.forall_mem_cons.2 ⟨.letIn (token within List.mem_cons_self), ?_⟩
    exact List.forall_mem_append.2 ⟨bound ((List.infix_append' [_, _, _] bs _).trans within), body
      (((List.suffix_cons _ es).trans (List.suffix_append (_ :: _ :: _ :: bs) _)).isInfix.trans within)⟩
  | @term _ ts _ _ operand =>
    exact ⟨⟨signs within, operand ((List.suffix_append _ ts).isInfix.trans within)⟩, nofun⟩
  | @link before ts e o us c op _ _ operand others =>
    have connective : Shows text o (.operators op.symbol.toList) := token within (by simp)
    obtain ⟨first, links⟩ := others (((List.suffix_cons _ us).trans
      ((List.suffix_append ts _).trans (List.suffix_append (Sign.tokens before) _))).isInfix.trans
        within)
    exact ⟨⟨signs within, operand ((List.infix_append' (Sign.tokens before) ts _).trans within)⟩,
      List.forall_mem_cons.2 ⟨⟨connective, first⟩, links⟩⟩
  | grouped _ chain =>
    obtain ⟨first, links⟩ := chain within
    exact points_groupTerms first links

theorem Expr.offset_ofOffset (source : String) (text : List Char) (e : Expr Nat) :
    (e.map (.ofOffset source text)).map Position.offset = e := by
  induction e with
  | literal | var => rfl
  | vector o es ih =>
    simp only [map, mapAll_eq_map, List.map_map]
    exact congrArg _ ((List.map_congr_left ih).trans (List.map_id' es))
  | apply o f x func arg => simp only [map, func, arg]; rfl
  | letIn o x b e bound body => simp only [map, bound, body]; rfl

/-- The nodes of the tree of a text are placed at their own text. -/
theorem parseWithin_points {limit : Nat} {source text : String} {tree : Expr Position}
    (parsed : parseWithin limit source text = .ok tree) :
    ∀ node ∈ tree.preorder, PointsAt text.toList (node.map Position.offset) := by
  obtain ⟨_, whole, c, chain, rfl⟩ := parseWithin_ok_iff_grouped.1 parsed
  intro node member
  rw [Expr.preorder_map] at member
  obtain ⟨n, below, rfl⟩ := List.mem_map.1 member
  rw [Expr.offset_ofOffset]
  exact (Forms.grouped chain).points whole (List.infix_refl _) n below

/-- The tree of `let f = op ! in -f [1] * x` in a second line that byte 5 begins. -/
def negatedCall : Expr Position :=
  let place (offset : Nat) : Position := ⟨"s", 2, offset - 4, offset⟩
  .letIn (place 5) "f" (.var (place 13) "!")
    (Operator.times.join (place 28)
      (Sign.minus.apply (place 21) (.apply (place 24) (.var (place 22) "f")
        (.vector (place 24) [.literal (place 25) (.number 1)])))
      (.var (place 30) "x"))

/-- The two bytes of a character in the comment in front count. -/
theorem parseWithin_points_comment :
    parseWithin 2 "s" "# é\nlet f = op ! in -f [1] * x" = .ok negatedCall ∧
      ∀ node ∈ negatedCall.preorder,
        PointsAt "# é\nlet f = op ! in -f [1] * x".toList (node.map Position.offset) := by
  have parsed : parseWithin 2 "s" "# é\nlet f = op ! in -f [1] * x" = .ok negatedCall := by
    with_unfolding_all rfl
  exact ⟨parsed, parseWithin_points parsed⟩

end Trees

end Formula
