import Highlight.Binary64

/-!
# The shortest decimal of a binary64 number

Every positive number `m * 2 ^ q` is written with the fewest decimal digits that are read back as
the same number. The decimals that read back fill an interval round it, from halfway to the
number below to halfway to the number above; the ends belong to it when `m` is even, since a tie
is read as the even neighbour. The powers of ten are tried from a coarse one downward: on each
grid only the two neighbours of the number can lie in the interval, and the first grid that has
one there wins. Of two, the nearer is taken, and the even one of two equally near.
-/

namespace Highlight.Decimal

/-- `digits * 10 ^ exponent`. -/
structure Shortest where
  digits : Nat
  exponent : Int
  deriving DecidableEq, Repr

namespace Shortest

/-- The multiple of `10 ^ k` that reads back as `m * 2 ^ q` and is nearest to it, if any is. -/
def onGrid? (m : Nat) (q k : Int) : Option Shortest :=
  -- all quantities are numerators over `denominator`, in quarters of the last binary place
  let quarter := Nat.pow 2 (q - 2).toNat * Nat.pow 10 (-k).toNat
  let denominator := Nat.pow 2 (2 - q).toNat * Nat.pow 10 k.toNat
  let value := 4 * m * quarter
  -- below a power of two the numbers lie twice as close together
  let low := value - (if m = Nat.pow 2 52 ∧ -1074 < q then 1 else 2) * quarter
  let high := value + 2 * quarter
  let n := value / denominator
  let below := n * denominator
  let above := below + denominator
  let even := m % 2 == 0
  let belowFits := decide (low < below) || (even && low == below)
  let aboveFits := decide (above < high) || (even && above == high)
  let belowNearer := decide (value - below < above - value)
    || (value - below == above - value && n % 2 == 0)
  if belowFits && (belowNearer || !aboveFits) then some ⟨n, k⟩
  else if aboveFits then some ⟨n + 1, k⟩
  else none

/-- The first hit on the grids of `10 ^ k` and the finer ones below it. -/
def search (m : Nat) (q : Int) : (grids : Nat) → (k : Int) → Shortest
  | 0, k => ⟨m, k⟩
  | grids + 1, k => (onGrid? m q k).getD (search m q grids (k - 1))

/--
The shortest decimal of `m * 2 ^ q`. The first grid is coarser than the number itself, and the
last one has at least seventeen digits of it, which always suffice.
-/
def ofBinary (m : Nat) (q : Int) : Shortest := search m q 24 (3 * (m.log2 + 1 + q) / 10 + 3)

end Shortest

end Highlight.Decimal
