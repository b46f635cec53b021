import RegisterLang.Text.Utf8

/-!
# Whole numbers in source text

A number is written in base ten, or after `0b`, `0o` and `0x` in base two, eight and sixteen; a
leading zero alone also means base eight. Single underscores may stand between digits and after the
base mark. Reading goes from left to right and the first digit that is wrong or too much decides the
error; the underscores are judged last.
-/
namespace RegisterLang.Number
open Text

/-- Why a text is not a number: it is not spelled like one, or no value of the type is meant. -/
inductive NumberError where
  | malformed
  | outOfRange
  deriving DecidableEq, Repr, Inhabited

/-- The value of a letter or digit in bases up to thirty-six. -/
def digitValue? (b : UInt8) : Option Nat :=
  if 48 ≤ b ∧ b ≤ 57 then some (b.toNat - 48)
  else if 97 ≤ b ∧ b ≤ 122 then some (b.toNat - 87)
  else if 65 ≤ b ∧ b ≤ 90 then some (b.toNat - 55)
  else none

/-- A letter in lower case. -/
def lower (b : UInt8) : UInt8 :=
  if 65 ≤ b ∧ b ≤ 90 then b + 32 else b

/-- What stands before the next character when underscores are judged. -/
inductive Before where
  | start
  | digit
  | underscore
  | other
  deriving DecidableEq, Repr

/-- Underscores stand between digits only. -/
def separatorsFit (hex : Bool) : Before → Bytes → Bool
  | last, [] => last ≠ .underscore
  | last, b :: rest =>
    if (48 ≤ b && b ≤ 57) || (hex && 97 ≤ lower b && lower b ≤ 102) then
      separatorsFit hex .digit rest
    else if b = 95 then last = .digit && separatorsFit hex .underscore rest
    else last ≠ .underscore && separatorsFit hex .other rest

/-- Underscores stand between digits only, the base mark counting as one. -/
def separatorsOk (s : Bytes) : Bool :=
  match s with
  | 48 :: m :: rest =>
    if lower m = 98 ∨ lower m = 111 ∨ lower m = 120 then
      separatorsFit (lower m = 120) .digit rest
    else separatorsFit false .start s
  | _ => separatorsFit false .start s

/-- The base of a number and its digits. -/
def splitBase (s : Bytes) : Nat × Bytes :=
  match s with
  | 48 :: m :: d :: rest =>
    if lower m = 98 then (2, d :: rest)
    else if lower m = 111 then (8, d :: rest)
    else if lower m = 120 then (16, d :: rest)
    else (8, m :: d :: rest)
  | 48 :: rest => (8, rest)
  | _ => (10, s)

/-- The digits after a value `n` already read. -/
def readMagnitude (base : Nat) : Nat → Bytes → Except NumberError Nat
  | n, [] => .ok n
  | n, b :: rest =>
    if b = 95 then readMagnitude base n rest
    else
      match digitValue? b with
      | none => .error .malformed
      | some d =>
        if base ≤ d then .error .malformed
        else if 2 ^ 64 ≤ n * base + d then .error .outOfRange
        else readMagnitude base (n * base + d) rest

/-- A whole number of sixty-four bits. -/
def readUInt64 (s : Bytes) : Except NumberError UInt64 :=
  if s.isEmpty then .error .malformed
  else
    let (base, digits) := splitBase s
    match readMagnitude base 0 digits with
    | .error e => .error e
    | .ok n =>
      if s.contains 95 && !separatorsOk s then .error .malformed
      else .ok n.toUInt64

end RegisterLang.Number
