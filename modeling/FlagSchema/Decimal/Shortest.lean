import FlagSchema.Decimal.Binary64

/-!
# Shortest decimals

The fewest decimal digits that read back as a given floating point value. A value owns the interval of
reals that round to it; on each decimal grid, from coarse to fine, only the two neighbours of the value
have to be tried, and the first grid with a neighbour inside the interval gives the digits.

* **`Decimal`**: a number `digits · 10^exponent`.
* **`Interval`**: the reals that round to a value, over a common denominator.
* **`Decimal.shortest`**: the shortest decimal of a value; of two hits the nearer, of two equally near
  the larger.
-/

namespace FlagSchema

/-- The number `digits · 10^exponent`. -/
structure Decimal where
  digits   : Nat
  exponent : Int
  deriving DecidableEq, Repr, Inhabited

/-- The reals that round to `value`, all three numbers over `2^scale` or, for a negative scale, times a
    power of two; the ends belong to it when `closed`. -/
structure Interval where
  low    : Nat
  value  : Nat
  high   : Nat
  scale  : Int
  closed : Bool
  deriving Repr

namespace Interval

/-- The interval of a positive finite value. Below a power of two the neighbour is half as far. -/
def ofBinary64 (x : Binary64) : Interval :=
  let (m, q) := x.decode
  let below := if m = Binary64.fieldBit ∧ -1074 < q then 1 else 2
  { low := 4 * m - below, value := 4 * m, high := 4 * m + 2, scale := q - 2, closed := m % 2 = 0 }

/-- The factors that turn a number of the interval and a multiple of `10^k` into comparable ones. -/
def factors (i : Interval) (k : Int) : Nat × Nat :=
  let (up, down) := Binary64.powerOfTwo i.scale
  (up * Nat.pow 10 (-k).toNat, down * Nat.pow 10 k.toNat)

/-- Whether `d · 10^k` lies in the interval. -/
def contains (i : Interval) (k : Int) (d : Nat) : Bool :=
  let (mine, grid) := i.factors k
  if i.closed then i.low * mine ≤ d * grid && d * grid ≤ i.high * mine
  else i.low * mine < d * grid && d * grid < i.high * mine

/-- The point of the grid `10^k` inside the interval that is nearest to the value, the larger of two
    equally near ones. -/
def hit? (i : Interval) (k : Int) : Option Nat :=
  let (mine, grid) := i.factors k
  let floor := i.value * mine / grid
  let lower := decide (0 < floor) && i.contains k floor
  let upper := i.contains k (floor + 1)
  let upperNearer := decide (grid ≤ 2 * (i.value * mine % grid))
  if upper && (!lower || upperNearer) then some (floor + 1)
  else if lower then some floor
  else none

/-- The first grid with a hit, from `10^k` downward over a number of grids. -/
def search (i : Interval) : Nat → Int → Decimal
  | 0,         k => ⟨i.value, k⟩
  | count + 1, k =>
    match i.hit? k with
    | some d => ⟨d, k⟩
    | none   => search i count (k - 1)

end Interval

/-- The shortest decimal that reads back as a positive finite value. The search starts at a power of
    ten above twice the value; seventeen digits always suffice. -/
def Decimal.shortest (x : Binary64) : Decimal :=
  let (m, q) := x.decode
  let order : Int := Nat.log2 m + q
  let start := (order + 2) * 30103 / 100000 + 1
  (Interval.ofBinary64 x).search 22 start

end FlagSchema
