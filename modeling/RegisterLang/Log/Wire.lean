import RegisterLang.Text.Utf8

/-!
# Records of the log

A logged value begins with a byte of a kind and a small number. Numbers from twenty-four on follow in
the fewest of one, two, four or eight bytes, high byte first, and the small number tells how many.
-/
namespace RegisterLang.Wire
open Text

inductive Kind where
  | natural
  | negative
  | string
  | array
  | map
  | special
  deriving DecidableEq, Repr

def Kind.code : Kind → Nat
  | natural => 0
  | negative => 1
  | string => 3
  | array => 4
  | map => 5
  | special => 7

/-- The low `width` bytes of a number, the highest first. -/
def bigEndian (width n : Nat) : Bytes :=
  (List.range width).map fun i => (n / 256 ^ (width - 1 - i) % 256).toUInt8

/-- A kind with a number below `2 ^ 64`. -/
def tag (k : Kind) (n : Nat) : Bytes :=
  let first (small : Nat) : UInt8 := (k.code * 32 + small).toUInt8
  if n < 24 then [first n]
  else if n < 2 ^ 8 then first 24 :: bigEndian 1 n
  else if n < 2 ^ 16 then first 25 :: bigEndian 2 n
  else if n < 2 ^ 32 then first 26 :: bigEndian 4 n
  else first 27 :: bigEndian 8 n

/-- A negative number is written as one more than its size. -/
def int (n : Int) : Bytes :=
  if 0 ≤ n then tag .natural n.toNat else tag .negative (n.natAbs + 1)

def string (s : String) : Bytes :=
  let bytes := Bytes.ofString s
  tag .string bytes.length ++ bytes

/-- A map of names to numbers. -/
def fields (l : List (String × Int)) : Bytes :=
  tag .map l.length ++ l.flatMap fun (name, n) => string name ++ int n

/-- What stands for no value. -/
def absent : Bytes := [(Kind.special.code * 32 + 22).toUInt8]

/-- An array that is closed by a mark of its own. -/
def array (items : List Bytes) : Bytes :=
  (Kind.array.code * 32 + 31).toUInt8 :: items.flatten ++ [(Kind.special.code * 32 + 31).toUInt8]

end RegisterLang.Wire
