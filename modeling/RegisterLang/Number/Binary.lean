/-!
# Binary floating point as bit patterns

A float of thirty-two or sixty-four bits is its bit pattern: a sign, a biased exponent and a
fraction. Finite values are `m * 2 ^ q` with whole `m`; rounding goes to the nearest value, and to
the even pattern of two that are equally near.
-/
namespace RegisterLang.Number

-- powers of whole numbers are those of the core library
attribute [instance (high), default_instance (high + 1)] instPowNat

/-- The widths of the fraction and of the exponent. -/
structure Format where
  fraction : Nat
  exponent : Nat
  deriving DecidableEq, Repr

def Format.single : Format := ⟨23, 8⟩

def Format.double : Format := ⟨52, 11⟩

namespace Format
variable (f : Format)

/-- The biased exponent of infinities and of patterns that are no number. -/
def top : Nat := 2 ^ f.exponent - 1

/-- The power of two that a fraction counts in at the biased exponents zero and one. -/
def least : Int := 2 - 2 ^ (f.exponent - 1) - f.fraction

def negative (bits : Nat) : Bool := bits / 2 ^ (f.fraction + f.exponent) % 2 = 1

def biased (bits : Nat) : Nat := bits / 2 ^ f.fraction % 2 ^ f.exponent

def mantissa (bits : Nat) : Nat := bits % 2 ^ f.fraction

def signBit : Nat := 2 ^ (f.fraction + f.exponent)

def isNaN (bits : Nat) : Bool := f.biased bits = f.top && f.mantissa bits ≠ 0

def isInfinite (bits : Nat) : Bool := f.biased bits = f.top && f.mantissa bits = 0

def infinity (negative : Bool) : Nat :=
  (if negative then f.signBit else 0) + f.top * 2 ^ f.fraction

/-- A pattern that is no number, made quiet. -/
def quiet (bits : Nat) : Nat :=
  if bits / 2 ^ (f.fraction - 1) % 2 = 1 then bits else bits + 2 ^ (f.fraction - 1)

/-- The pattern of an operation without a result: quiet and with the sign set. -/
def undefined : Nat :=
  f.signBit + f.top * 2 ^ f.fraction + 2 ^ (f.fraction - 1)

/-- The size of a finite value as `m * 2 ^ q`. -/
def parts (bits : Nat) : Nat × Int :=
  if f.biased bits = 0 then (f.mantissa bits, f.least)
  else (2 ^ f.fraction + f.mantissa bits, f.least + (f.biased bits - 1 : Nat))

end Format

/-- The quotient rounded to the nearest whole number, to the even one of two. -/
def roundQuotient (num den : Nat) : Nat :=
  let q := num / den
  let r := num % den
  if 2 * r < den then q
  else if den < 2 * r then q + 1
  else if q % 2 = 0 then q else q + 1

/-- The pattern nearest to `num / den`, or `none` if that is beyond the largest finite value. -/
def Format.ofRatio? (f : Format) (negative : Bool) (num den : Nat) : Option Nat :=
  let sign := if negative then f.signBit else 0
  if num = 0 then some sign
  else
    -- `2 ^ guess` is at most one binary place away from the value
    let guess : Int := (Nat.log2 num : Int) - Nat.log2 den
    let low := if guess < 0 then num * 2 ^ guess.natAbs < den else num < den * 2 ^ guess.toNat
    let log := if low then guess - 1 else guess
    let unit := max (log - f.fraction) f.least
    let m := if unit < 0 then roundQuotient (num * 2 ^ unit.natAbs) den
      else roundQuotient num (den * 2 ^ unit.toNat)
    -- a mantissa below `2 ^ fraction` is a fraction at the least unit, and one that was rounded up
    -- to the next power of two carries into the exponent
    let pattern := (unit - f.least).toNat * 2 ^ f.fraction + m
    if f.top * 2 ^ f.fraction ≤ pattern then none else some (sign + pattern)

/-- The pattern nearest to `num / den`, infinity beyond the largest finite value. -/
def Format.ofRatio (f : Format) (negative : Bool) (num den : Nat) : Nat :=
  (f.ofRatio? negative num den).getD (f.infinity negative)

/-- The pattern nearest to `m * 2 ^ q`. -/
def Format.ofScaled (f : Format) (negative : Bool) (m : Nat) (q : Int) : Nat :=
  if q < 0 then f.ofRatio negative m (2 ^ q.natAbs) else f.ofRatio negative (m * 2 ^ q.toNat) 1

/-- A value of one format in another. -/
def Format.convert (source target : Format) (bits : Nat) : Nat :=
  let negative := source.negative bits
  if source.isNaN bits then
    let payload := if target.fraction ≤ source.fraction
      then source.mantissa bits / 2 ^ (source.fraction - target.fraction)
      else source.mantissa bits * 2 ^ (target.fraction - source.fraction)
    target.quiet (target.infinity negative + payload)
  else if source.isInfinite bits then target.infinity negative
  else
    let (m, q) := source.parts bits
    target.ofScaled negative m q

/-- A finite value with its fraction cut off; `none` for what is no finite number. -/
def Format.truncate? (f : Format) (bits : Nat) : Option Int :=
  if f.biased bits = f.top then none
  else
    let (m, q) := f.parts bits
    let size := if q < 0 then m / 2 ^ q.natAbs else m * 2 ^ q.toNat
    some (if f.negative bits then -(size : Int) else size)

end RegisterLang.Number
