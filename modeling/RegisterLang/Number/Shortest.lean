import RegisterLang.Number.Binary

/-!
# The shortest decimal of a float

The reals that round to a finite float form an interval around it, with its ends exactly when the
mantissa is even. The shortest decimal is the one with the fewest digits in that interval; of two
the nearer one, and of two equally near ones the even one. All comparisons are between whole numbers.
-/
namespace RegisterLang.Number

/-- A positive decimal `digits * 10 ^ exponent`. -/
structure Decimal where
  digits : Nat
  exponent : Int
  deriving DecidableEq, Repr

/-- The decimal without trailing zeros; `fuel` bounds their number. -/
def Decimal.strip : Nat → Decimal → Decimal
  | 0, d => d
  | fuel + 1, d =>
    if d.digits % 10 = 0 then Decimal.strip fuel ⟨d.digits / 10, d.exponent + 1⟩ else d

/-- A float and the interval of reals that round to it, counted in quarters of its last place. -/
structure Neighbourhood where
  low : Nat
  value : Nat
  high : Nat
  /-- the quarter is `2 ^ unit` -/
  unit : Int
  closed : Bool
  deriving DecidableEq, Repr

/-- The neighbourhood of a finite pattern that is not zero. Just below a power of two the floats lie
twice as close as above it. -/
def Format.neighbourhood (f : Format) (bits : Nat) : Neighbourhood :=
  let (m, q) := f.parts bits
  let narrow := f.mantissa bits = 0 ∧ 1 < f.biased bits
  { low := 4 * m - (if narrow then 1 else 2)
    value := 4 * m
    high := 4 * m + 2
    unit := q - 2
    closed := m % 2 = 0 }

namespace Neighbourhood

/-- `x * 2 ^ unit` over `10 ^ grid` as a fraction with a denominator that does not depend on `x`. -/
def ratio (unit grid : Int) (x : Nat) : Nat × Nat :=
  (x * 2 ^ unit.toNat * 10 ^ (-grid).toNat, 2 ^ (-unit).toNat * 10 ^ grid.toNat)

/-- Whether `c * 10 ^ grid` lies in the interval. -/
def holds (v : Neighbourhood) (grid : Int) (c : Nat) : Bool :=
  let (low, den) := ratio v.unit grid v.low
  let (high, _) := ratio v.unit grid v.high
  if v.closed then low ≤ c * den && c * den ≤ high else low < c * den && c * den < high

/-- The decimal on the grid `10 ^ grid` that lies in the interval, if there is one. -/
def pick? (v : Neighbourhood) (grid : Int) : Option Decimal :=
  let (num, den) := ratio v.unit grid v.value
  let c := num / den
  match v.holds grid c, v.holds grid (c + 1) with
  | false, false => none
  | true, false => some ⟨c, grid⟩
  | false, true => some ⟨c + 1, grid⟩
  | true, true => some ⟨roundQuotient num den, grid⟩

/-- The least power of ten above the value. -/
def scale (v : Neighbourhood) : Int :=
  let guess := ((Nat.log2 v.value : Int) + v.unit) * 1233
  let start := Int.fdiv guess 4096
  let above (k : Int) : Bool := let (num, den) := ratio v.unit k v.value; num < den
  (((List.range 4).map fun (i : Nat) => start + (i : Int)).find? above).getD (start + 4)

/-- The decimal with the fewest digits in the interval. Seventeen digits are enough for every float
of sixty-four bits; beyond them the exact value is taken. -/
def shortest (v : Neighbourhood) : Decimal :=
  let k := v.scale
  let exact : Decimal :=
    if v.unit < 0 then ⟨v.value * 5 ^ v.unit.natAbs, v.unit⟩ else ⟨v.value * 2 ^ v.unit.toNat, 0⟩
  let found := ((List.range 17).findSome? fun (n : Nat) => v.pick? (k - ((n : Int) + 1))).getD exact
  found.strip 800

end Neighbourhood

end RegisterLang.Number
