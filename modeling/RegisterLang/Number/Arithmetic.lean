import RegisterLang.Number.Binary

/-!
# Arithmetic on bit patterns

Every operation is the exact result on the values, rounded once. An operand that is no number is the
result, made quiet, the first of two before the second; an operation without a result gives the
undefined pattern.
-/
namespace RegisterLang.Number
namespace Format
variable (f : Format)

def isZero (bits : Nat) : Bool := f.biased bits = 0 && f.mantissa bits = 0

/-- The operand that is no number, if there is one. -/
def operandNaN? (x y : Nat) : Option Nat :=
  if f.isNaN x then some (f.quiet x) else if f.isNaN y then some (f.quiet y) else none

/-- The exact sum of two finite values; a sum of zero is positive unless both are negative. -/
def finiteSum (nx : Bool) (x : Nat × Int) (ny : Bool) (y : Nat × Int) : Nat :=
  let unit := min x.2 y.2
  let a : Int := x.1 * 2 ^ (x.2 - unit).toNat
  let b : Int := y.1 * 2 ^ (y.2 - unit).toNat
  let sum := (if nx then -a else a) + (if ny then -b else b)
  if sum = 0 then f.ofScaled (nx && ny) 0 unit else f.ofScaled (sum < 0) sum.natAbs unit

/-- The sum of two numbers, where `ny` is the sign that the second counts with. -/
def sum (x y : Nat) (ny : Bool) : Nat :=
  let nx := f.negative x
  match f.isInfinite x, f.isInfinite y with
  | true, true => if nx = ny then f.infinity nx else f.undefined
  | true, false => f.infinity nx
  | false, true => f.infinity ny
  | false, false => f.finiteSum nx (f.parts x) ny (f.parts y)

def add (x y : Nat) : Nat := (f.operandNaN? x y).getD (f.sum x y (f.negative y))

def sub (x y : Nat) : Nat := (f.operandNaN? x y).getD (f.sum x y (!f.negative y))

def mul (x y : Nat) : Nat :=
  let negative := f.negative x != f.negative y
  (f.operandNaN? x y).getD <|
    if f.isInfinite x || f.isInfinite y then
      if f.isZero x || f.isZero y then f.undefined else f.infinity negative
    else
      let (m, q) := f.parts x
      let (n, r) := f.parts y
      f.ofScaled negative (m * n) (q + r)

def div (x y : Nat) : Nat :=
  let negative := f.negative x != f.negative y
  (f.operandNaN? x y).getD <|
    match f.isInfinite x, f.isInfinite y with
    | true, true => f.undefined
    | true, false => f.infinity negative
    | false, true => f.ofRatio negative 0 1
    | false, false =>
      if f.isZero y then if f.isZero x then f.undefined else f.infinity negative
      else
        let (m, q) := f.parts x
        let (n, r) := f.parts y
        f.ofRatio negative (m * 2 ^ (q - r).toNat) (n * 2 ^ (r - q).toNat)

/-- The remainder of a division that is cut off toward zero, with the sign of the dividend. Without
a finite dividend or with a zero divisor the result is no number. -/
def remainder (x y : Nat) : Nat :=
  if f.isNaN x || f.isNaN y || f.isInfinite x || f.isZero y then
    f.infinity false + 2 ^ (f.fraction - 1) + 1
  else if f.isInfinite y then x
  else
    let (m, q) := f.parts x
    let (n, r) := f.parts y
    let unit := min q r
    f.ofScaled (f.negative x) (m * 2 ^ (q - unit).toNat % (n * 2 ^ (r - unit).toNat)) unit

/-- A pattern as a number that orders the values; both zeros are zero. -/
def rank (bits : Nat) : Int :=
  let size : Int := (bits % f.signBit : Nat)
  if f.negative bits then -size else size

/-- How two values compare; what is no number compares with nothing. -/
def compare? (x y : Nat) : Option Ordering :=
  if f.isNaN x || f.isNaN y then none else some (compare (f.rank x) (f.rank y))

end Format
end RegisterLang.Number
