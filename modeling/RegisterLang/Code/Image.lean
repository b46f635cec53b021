import RegisterLang.Text.Utf8
import RegisterLang.Code.Fault

/-!
# Code images

An image is the bytes of a program: four fixed bytes, a table of functions, a table of labels, and
the instructions. A table is its number of entries and then, for each entry, an index and an offset.
All numbers are written with the low byte first.
-/
namespace RegisterLang
open Text

abbrev Image := Array UInt8

/-- The low `width` bytes of a number, the lowest first. -/
def littleEndian : Nat → Nat → Bytes
  | 0, _ => []
  | width + 1, n => (n % 256).toUInt8 :: littleEndian width (n / 256)

namespace Image

/-- The number in `width` bytes from `offset` on; bytes after the end count as zero. -/
def number (image : Image) : Nat → Nat → Nat
  | 0, _ => 0
  | width + 1, offset => (image.getD offset 0).toNat + 256 * image.number width (offset + 1)

/-- The image with other bytes from `offset` on, as far as it reaches. -/
def write (image : Image) (offset : Nat) : Bytes → Image
  | [] => image
  | b :: rest => Image.write (image.setIfInBounds offset b) (offset + 1) rest

/-- The bytes that every image begins with. -/
def magic : Bytes := [0x80, 0x00, 0x00, 0x8A]

/-- The bytes of a table entry. -/
def entrySize : Nat := 8

/-- The offset where the function table begins. -/
def tablesStart : Nat := 4

end Image

/-- Why a table cannot be read. -/
inductive TableError where
  | noCount
  | short (entries : Nat)
  | badIndex (entry index entries : Nat)
  deriving DecidableEq, Repr

inductive HeaderError where
  | badMagic
  | functions (e : TableError)
  | labels (e : TableError)
  deriving DecidableEq, Repr

def TableError.fault : TableError → Fault
  | noCount | short _ => .truncated
  | badIndex .. => .badIndex

def TableError.message (e : TableError) : String :=
  (match e with
    | noCount => ""
    | short n => toString n ++ " entries: "
    | badIndex entry index n =>
      "entry " ++ toString entry ++ ": index " ++ toString index ++ " of " ++ toString n ++ ": ") ++
    e.fault.text

def HeaderError.fault : HeaderError → Fault
  | badMagic => .badMagic
  | functions e | labels e => e.fault

def HeaderError.message : HeaderError → String
  | badMagic => Fault.badMagic.text
  | functions e => "function table: " ++ e.message
  | labels e => "label table: " ++ e.message

/-- Where each function and each label is, and where the instructions begin. -/
structure Header where
  functions : Array UInt32
  labels : Array UInt32
  code : Nat
  deriving DecidableEq, Repr

namespace Header

/-- The last `left` of `n` entries, of which the first is at `offset`, put into `table`. -/
def readEntries (image : Image) (n : Nat) : Nat → Nat → Array UInt32 →
    Except TableError (Array UInt32)
  | 0, _, table => .ok table
  | left + 1, offset, table =>
    let index := image.number 4 offset
    let pos := image.number 4 (offset + 4)
    if n ≤ index then .error (.badIndex (n - left - 1) index n)
    else readEntries image n left (offset + Image.entrySize) (table.setIfInBounds index pos.toUInt32)

/-- The table at an offset, and the offset after it. An index that no entry has is at zero. -/
def readTable (image : Image) (offset : Nat) : Except TableError (Array UInt32 × Nat) :=
  if image.size < offset + 4 then .error .noCount
  else
    let n := image.number 4 offset
    let start := offset + 4
    if (image.size - start) / Image.entrySize < n then .error (.short n)
    else
      match readEntries image n n start (Array.replicate n 0) with
      | .ok table => .ok (table, start + n * Image.entrySize)
      | .error e => .error e

/-- The header of an image. -/
def read (image : Image) : Except HeaderError Header :=
  if (image.take 4).toList ≠ Image.magic then .error .badMagic
  else
    match readTable image Image.tablesStart with
    | .error e => .error (.functions e)
    | .ok (functions, offset) =>
      match readTable image offset with
      | .error e => .error (.labels e)
      | .ok (labels, code) => .ok ⟨functions, labels, code⟩

end Header

end RegisterLang
