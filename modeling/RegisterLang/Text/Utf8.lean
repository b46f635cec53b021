/-!
# Bytes and the text they spell

Source text is a list of bytes. Where bytes are shown to a reader they are read as UTF-8; a byte
that is no part of a well-formed character is shown as the replacement character, one for each byte.
-/
namespace RegisterLang.Text

-- powers of whole numbers are those of the core library
attribute [instance (high), default_instance (high + 1)] instPowNat

abbrev Bytes := List UInt8

/-- The character shown for a byte that spells nothing. -/
def replacement : Char := '�'

/-- The UTF-8 bytes of a text. -/
def Bytes.ofString (s : String) : Bytes :=
  s.toUTF8.toList

namespace Utf8

/-- The six payload bits of a continuation byte. -/
def tail? (b : UInt8) : Option Nat :=
  if 0x80 ≤ b ∧ b ≤ 0xBF then some (b.toNat - 0x80) else none

/-- The character that starts with the byte `b` and goes on in `rest`, and how many bytes of `rest`
it takes. Overlong forms, surrogates and code points above `0x10FFFF` spell nothing. -/
def decode? (b : UInt8) (rest : Bytes) : Option (Char × Nat) :=
  if b < 0x80 then some (Char.ofNat b.toNat, 0)
  else if 0xC2 ≤ b ∧ b ≤ 0xDF then do
    let x ← rest[0]? >>= tail?
    some (Char.ofNat ((b.toNat - 0xC0) * 0x40 + x), 1)
  else if 0xE0 ≤ b ∧ b ≤ 0xEF then do
    let x ← rest[0]? >>= tail?
    let y ← rest[1]? >>= tail?
    let c := ((b.toNat - 0xE0) * 0x40 + x) * 0x40 + y
    if c < 0x800 ∨ (0xD800 ≤ c ∧ c ≤ 0xDFFF) then none else some (Char.ofNat c, 2)
  else if 0xF0 ≤ b ∧ b ≤ 0xF4 then do
    let x ← rest[0]? >>= tail?
    let y ← rest[1]? >>= tail?
    let z ← rest[2]? >>= tail?
    let c := (((b.toNat - 0xF0) * 0x40 + x) * 0x40 + y) * 0x40 + z
    if c < 0x10000 ∨ 0x10FFFF < c then none else some (Char.ofNat c, 3)
  else none

end Utf8

/-- Bytes as a sequence of characters, each with the bytes it came from; `none` marks a byte that
spells nothing. -/
def Bytes.chars : Bytes → List (UInt8 × Option Char)
  | [] => []
  | b :: rest =>
    match Utf8.decode? b rest with
    | some (c, n) => (b, some c) :: Bytes.chars (rest.drop n)
    | none => (b, none) :: Bytes.chars rest
termination_by bs => bs.length
decreasing_by all_goals simp; try omega

/-- Bytes as text, with the replacement character for each byte that spells nothing. -/
def Bytes.toText (bs : Bytes) : String :=
  String.ofList ((Bytes.chars bs).map fun c => c.2.getD replacement)

/-- Whether every byte is part of a well-formed character. -/
def Bytes.isText (bs : Bytes) : Bool :=
  (Bytes.chars bs).all fun c => c.2.isSome

/-- A hexadecimal digit, lower case. -/
def hexDigit (n : Nat) : Char :=
  if n < 10 then Char.ofNat (48 + n) else Char.ofNat (87 + n)

/-- The value of a hexadecimal digit of either case. -/
def hexValue? (b : UInt8) : Option Nat :=
  if 48 ≤ b ∧ b ≤ 57 then some (b.toNat - 48)
  else if 97 ≤ b ∧ b ≤ 102 then some (b.toNat - 87)
  else if 65 ≤ b ∧ b ≤ 70 then some (b.toNat - 55)
  else none

/-- The last `width` hexadecimal digits of a number, leading zeros included. -/
def hexFixed (width n : Nat) : String :=
  String.ofList ((List.range width).map fun i => hexDigit (n / 16 ^ (width - 1 - i) % 16))

/-- A number in hexadecimal without leading zeros. -/
def hex (n : Nat) : String :=
  String.ofList (Nat.toDigits 16 n)

/-- A number in hexadecimal with at least `width` digits. -/
def hexPadded (width n : Nat) : String :=
  let s := hex n
  String.ofList (List.replicate (width - s.length) '0') ++ s

/-- Two hexadecimal digits for each byte. -/
def Bytes.toHex (bs : Bytes) : String :=
  String.ofList (bs.flatMap fun b => [hexDigit (b.toNat / 16), hexDigit (b.toNat % 16)])

/-- The bytes spelled by pairs of hexadecimal digits. -/
def Bytes.ofHex? : Bytes → Option Bytes
  | [] => some []
  | a :: b :: rest => do
    let x ← hexValue? a
    let y ← hexValue? b
    let bs ← Bytes.ofHex? rest
    some ((x * 16 + y).toUInt8 :: bs)
  | [_] => none

/-- A text padded with blanks on the right to at least `width` characters. -/
def padRight (width : Nat) (s : String) : String :=
  s ++ String.ofList (List.replicate (width - s.length) ' ')

/-- A text padded with blanks on the left to at least `width` characters. -/
def padLeft (width : Nat) (s : String) : String :=
  String.ofList (List.replicate (width - s.length) ' ') ++ s

end RegisterLang.Text
