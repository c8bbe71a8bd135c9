import Formula.Number.Dyadic
import Formula.Number.Decimal

/-! The fewest decimal digits that read back as a given double. Grids of ever smaller powers of ten
are tried in turn; on each, the two points around the number are candidates. Main statement: a
decimal found by the search reads back. -/
namespace Formula.Decimal

/-- The points of the grid of `10 ^ e` just below and just above a number that read back as `x`, the
nearer one where both do and the upper one where they are equally near. -/
def onGrid? (x : Float) (b : Dyadic) (e : Int) : Option Decimal :=
  let numerator := b.numerator e
  let denominator := b.denominator e
  let below := numerator / denominator
  let lower : Decimal := ⟨below, e⟩
  let upper : Decimal := ⟨below + 1, e⟩
  if lower.toFloat == x then
    if upper.toFloat == x && denominator ≤ 2 * (numerator % denominator) then some upper
    else some lower
  else if upper.toFloat == x then some upper
  else none

/-- The first grid with a hit, from `10 ^ e` down. -/
def search (x : Float) (b : Dyadic) : Nat → Int → Option Decimal
  | 0, _ => none
  | steps + 1, e => (onGrid? x b e).or (search x b steps (e - 1))

/-- All digits of a number, which are finitely many. -/
def exact (b : Dyadic) : Decimal :=
  if 0 ≤ b.exponent then ⟨b.significand <<< b.exponent.toNat, 0⟩
  else ⟨b.significand * Nat.pow 5 b.exponent.natAbs, b.exponent⟩

/-- The exponent of a power of ten near the number, from which the search starts; 0.30103 is the
decimal logarithm of two. -/
def start (b : Dyadic) : Int :=
  (((b.significand.log2 : Int) + 1 + b.exponent) * 30103) / 100000 + 1

/-- The fewest digits that read back as the magnitude of a finite double other than zero. Seventeen
digits always suffice, so twenty grids do. -/
def shortest (x : Float) : Decimal :=
  let b := Dyadic.ofFloat x
  ((search x.abs b 20 (start b)).getD (exact b)).normal

theorem onGrid?_reads_back {x : Float} {b : Dyadic} {e : Int} {d : Decimal}
    (found : onGrid? x b e = some d) : (d.toFloat == x) = true := by
  unfold onGrid? at found
  grind

theorem search_reads_back {x : Float} {b : Dyadic} {steps : Nat} {e : Int} {d : Decimal}
    (found : search x b steps e = some d) : (d.toFloat == x) = true := by
  induction steps generalizing e with
  | zero => simp [search] at found
  | succ steps ih =>
    rcases Option.or_eq_some_iff.1 found with hit | ⟨_, later⟩
    · exact onGrid?_reads_back hit
    · exact ih later

end Formula.Decimal
