import RegisterLang.Number.Shortest
import RegisterLang.Number.Digits

/-!
# Floats in text

A float is written with the fewest digits that read back to it, in plain notation when its first
digit stands between the fourth place after the point and the sixth before it, and with a signed
exponent of at least two digits otherwise. Reading is correctly rounded; a number beyond the largest
finite value is an error and one too small for the format is zero.
-/
namespace RegisterLang.Number
open Text

/-- Digits with a point after the first and a decimal exponent. -/
def scientific (digits : List Char) (exponent : Int) : String :=
  let mantissa := match digits with
    | [] => []
    | [d] => [d]
    | d :: rest => d :: '.' :: rest
  let size := toString exponent.natAbs
  let sign := if exponent < 0 then "-" else "+"
  String.ofList mantissa ++ "e" ++ sign ++ (if size.length < 2 then "0" ++ size else size)

/-- Digits with a point after the first `point` of them, which may lie outside. -/
def positional (digits : List Char) (point : Int) : String :=
  if point ≤ 0 then
    "0." ++ String.ofList (List.replicate point.natAbs '0' ++ digits)
  else
    let n := point.toNat
    if digits.length ≤ n then
      String.ofList (digits ++ List.replicate (n - digits.length) '0')
    else String.ofList (digits.take n ++ '.' :: digits.drop n)

/-- A positive decimal as text. -/
def Decimal.text (d : Decimal) : String :=
  let digits := Nat.toDigits 10 d.digits
  let point := d.exponent + (digits.length : Int)
  if point < -3 ∨ 6 < point then scientific digits (point - 1) else positional digits point

/-- A float as text. -/
def Format.text (f : Format) (bits : Nat) : String :=
  if f.isNaN bits then "NaN"
  else
    let sign := if f.negative bits then "-" else ""
    if f.isInfinite bits then (if f.negative bits then "-Inf" else "+Inf")
    else if (f.parts bits).1 = 0 then sign ++ "0"
    else sign ++ (f.neighbourhood bits).shortest.text

/-- The digits of a number read so far: their value, how many stand after the point, whether there
was a point and whether there was a digit. -/
structure Mantissa where
  value : Nat := 0
  places : Nat := 0
  point : Bool := false
  digit : Bool := false
  deriving Repr

/-- Digits, underscores and at most one point. -/
def Mantissa.read : Mantissa → Bytes → Mantissa × Bytes
  | m, [] => (m, [])
  | m, b :: rest =>
    if b = 95 then m.read rest
    else if b = 46 then if m.point then (m, b :: rest) else { m with point := true }.read rest
    else if 48 ≤ b ∧ b ≤ 57 then
      Mantissa.read { m with
        value := m.value * 10 + (b.toNat - 48)
        places := if m.point then m.places + 1 else m.places
        digit := true } rest
    else (m, b :: rest)

/-- The digits of an exponent. Beyond ten thousand no float is meant, and further digits are not
counted. -/
def readExponent : Nat → Bytes → Nat × Bytes
  | n, [] => (n, [])
  | n, b :: rest =>
    if b = 95 then readExponent n rest
    else if 48 ≤ b ∧ b ≤ 57 then
      readExponent (if n < 10000 then n * 10 + (b.toNat - 48) else n) rest
    else (n, b :: rest)

/-- The exponent after the mantissa, zero if there is none; `none` if its digits are missing. -/
def readScale (s : Bytes) : Option (Int × Bytes) :=
  match s with
  | e :: rest =>
    if lower e ≠ 101 then some (0, s)
    else
      let (negative, digits) := match rest with
        | 43 :: more => (false, more)
        | 45 :: more => (true, more)
        | _ => (false, rest)
      match digits with
      | d :: _ =>
        if 48 ≤ d ∧ d ≤ 57 then
          let (n, tail) := readExponent 0 digits
          some (if negative then -(n : Int) else n, tail)
        else none
      | [] => none
  | [] => some (0, [])

/-- A decimal number as a pattern of the format. -/
def Format.read (f : Format) (s : Bytes) : Except NumberError Nat :=
  let (m, rest) := Mantissa.read {} s
  if !m.digit then .error .malformed
  else
    match readScale rest with
    | some (scale, []) =>
      if s.contains 95 && !separatorsOk s then .error .malformed
      else if m.value = 0 then .ok 0
      else
        let exponent := scale - m.places
        let first := exponent + (Nat.toDigits 10 m.value).length
        if 310 < first then .error .outOfRange
        else if first < -330 then .ok 0
        else
          let pattern := if exponent < 0 then f.ofRatio? false m.value (10 ^ exponent.natAbs)
            else f.ofRatio? false (m.value * 10 ^ exponent.toNat) 1
          match pattern with
          | some bits => .ok bits
          | none => .error .outOfRange
    | _ => .error .malformed

end RegisterLang.Number
