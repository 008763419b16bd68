import Loon.Number.Decimal

/-!
The shortest decimal that reads back as a given double: among the decimals that round to it, those
with the fewest digits, and of these the nearest. The search is on the grids of multiples of
`10 ^ k`, from coarse to fine. The two neighbours of the double on a grid are the only points to
try: a grid with a point among the decimals that round to the double has a neighbour among them.
-/

namespace Loon

inductive Tie
  | up
  | even
deriving DecidableEq, Repr

namespace Double

def quartersBelow (x : Double) : Nat := if x.fraction = 0 ∧ 1 < x.exponentField then 1 else 2

def gridFactors (k e : Int) : Nat × Nat :=
  (Nat.pow 10 k.toNat * Nat.pow 2 (-e).toNat, Nat.pow 10 (-k).toNat * Nat.pow 2 e.toNat)

def onGrid? (tie : Tie) (x : Double) (k : Int) : Option Decimal :=
  let (a, b) := gridFactors k (x.exponent - 2)
  let value := 4 * x.mantissa * b
  let low := (4 * x.mantissa - x.quartersBelow) * b
  let high := (4 * x.mantissa + 2) * b
  let even : Bool := x.mantissa % 2 = 0
  let n := value / a
  let belowHits := if even then decide (low ≤ n * a) else decide (low < n * a)
  let aboveHits := if even then decide ((n + 1) * a ≤ high) else decide ((n + 1) * a < high)
  let down := value - n * a
  let up := (n + 1) * a - value
  match belowHits, aboveHits with
  | true, true =>
    let takeBelow : Bool := down < up || (down == up && tie == .even && n % 2 == 0)
    some ⟨if takeBelow then n else n + 1, k⟩
  | true, false => some ⟨n, k⟩
  | false, true => some ⟨n + 1, k⟩
  | false, false => none

/-- A power of ten above which no grid has a point near the double: the logarithm to base ten of
`2 ^ n`, where `n` bounds the double's binary logarithm, lies between `0.300 n` and `0.302 n`. -/
def coarsest (x : Double) : Int :=
  let n : Int := x.mantissa.log2 + 1 + x.exponent
  max (n * 302 / 1000) (n * 300 / 1000)

def shortest (tie : Tie) (x : Double) : Decimal :=
  if x.mantissa = 0 then ⟨0, 0⟩
  else ((List.range 24).findSome? fun (i : Nat) => onGrid? tie x (x.coarsest - i)).getD ⟨0, 0⟩

end Double

end Loon
