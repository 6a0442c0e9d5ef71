/-!
# Shortest decimals

A positive binary number `m · 2 ^ e` stands for all real numbers that round to it. This module
finds, among the decimals in that range, one with the fewest digits, and of those the nearest.

The search goes over the grids of multiples of `10 ^ g`, from coarse to fine. If any multiple
lies in the range, then one of the two multiples next to the number does, so these two are all
that has to be looked at. Everything is exact arithmetic on natural numbers.
-/

namespace FuzzyInference.Decimal

/-- The decimal `coefficient · 10 ^ exponent`. -/
structure Digits where
  coefficient : Nat
  exponent : Int
deriving DecidableEq

/-- The reals that round to one binary number, in units of `2 ^ scale`. -/
structure Cell where
  lower : Nat
  value : Nat
  upper : Nat
  scale : Int
  /-- Whether the two ends round to the number as well. -/
  closed : Bool

namespace Cell

/-- The cell of `mantissa · 2 ^ exponent` among double precision numbers. Below a power of two the
neighbour is half as far away. The ends belong to the cell of the even mantissa. -/
def ofBinary (mantissa : Nat) (exponent : Int) : Cell where
  lower := if mantissa = Nat.pow 2 52 then 4 * mantissa - 1 else 4 * mantissa - 2
  value := 4 * mantissa
  upper := 4 * mantissa + 2
  scale := exponent - 2
  closed := mantissa % 2 = 0

/-- The factors `(a, b)` for which `x` units of the cell are `x * a / b` steps of `10 ^ grid`. -/
def ratio (cell : Cell) (grid : Int) : Nat × Nat :=
  (Nat.pow 2 cell.scale.toNat * Nat.pow 10 (-grid).toNat,
    Nat.pow 2 (-cell.scale).toNat * Nat.pow 10 grid.toNat)

/-- Whether `n` steps of `10 ^ grid` lie in the cell. -/
def holds (cell : Cell) (grid : Int) (n : Nat) : Bool :=
  let (a, b) := cell.ratio grid
  if cell.closed then cell.lower * a ≤ n * b && n * b ≤ cell.upper * a
  else cell.lower * a < n * b && n * b < cell.upper * a

/-- The multiple of `10 ^ grid` in the cell that is nearest to its number. Of two at equal
distance it is the larger. -/
def nearest? (cell : Cell) (grid : Int) : Option Nat :=
  let (a, b) := cell.ratio grid
  let below := cell.value * a / b
  let excess := cell.value * a - below * b
  match cell.holds grid below, cell.holds grid (below + 1) with
  | true, true => if 2 * excess < b then some below else some (below + 1)
  | true, false => some below
  | false, true => some (below + 1)
  | false, false => none

end Cell

/-- A power of ten that no number below `2 ^ bits` reaches. -/
def powerAbove (bits : Int) : Int := bits * 30103 / 100000 + 1

/-- The decimal with the fewest digits that rounds to `mantissa · 2 ^ exponent`. Seventeen digits
always suffice, so among twenty grids from the first power of ten above there is one with a hit. -/
def shortest? (mantissa : Nat) (exponent : Int) : Option Digits :=
  let cell := Cell.ofBinary mantissa exponent
  let top := powerAbove (mantissa.log2 + exponent + 1)
  (List.range 20).findSome? fun (i : Nat) =>
    let grid : Int := top - i
    (cell.nearest? grid).map fun n => ⟨n, grid⟩

end FuzzyInference.Decimal
