import RegisterLang.Code.Instr
import RegisterLang.Log.Wire

/-!
# Registers, frames and flags

A register is eight bytes and the type of its last write. A write of a narrow type changes the low
bytes only, and reading goes by the type of the reader. A frame is a window of the registers, and
flags hold the result of the last comparison.
-/
namespace RegisterLang
open Text Number

structure Register where
  kind : RegType := .s8
  bits : UInt64 := 0
  deriving DecidableEq

namespace Register

instance : Inhabited Register := ⟨{}⟩

/-- The bits that a type covers. -/
def mask (t : RegType) : UInt64 := (2 ^ (8 * t.size) - 1 : Nat).toUInt64

/-- Writes the bytes of a type and keeps those above. -/
def set (r : Register) (t : RegType) (v : UInt64) : Register :=
  ⟨t, (r.bits &&& ~~~mask t) ||| (v &&& mask t)⟩

/-- A cleared register after one write. -/
def make (t : RegType) (v : UInt64) : Register := set {} t v

def s8 (r : Register) : Int8 := r.bits.toUInt8.toInt8
def u8 (r : Register) : UInt8 := r.bits.toUInt8
def s16 (r : Register) : Int16 := r.bits.toUInt16.toInt16
def u16 (r : Register) : UInt16 := r.bits.toUInt16
def s32 (r : Register) : Int32 := r.bits.toUInt32.toInt32
def u32 (r : Register) : UInt32 := r.bits.toUInt32
def s64 (r : Register) : Int64 := r.bits.toInt64
def u64 (r : Register) : UInt64 := r.bits

/-- The pattern of the low bytes as a float. -/
def float (r : Register) : Nat := r.u32.toNat

def double (r : Register) : Nat := r.u64.toNat

/-- A float cut to a whole number; what does not fit in sixty-four bits becomes the least number. -/
def truncated (f : Format) (bits : Nat) : Int :=
  match f.truncate? bits with
  | some n => if -2 ^ 63 ≤ n ∧ n < 2 ^ 63 then n else -2 ^ 63
  | none => -2 ^ 63

/-- The value as its type reads it, as a signed number of sixty-four bits. -/
def value (r : Register) : Int :=
  match r.kind with
  | .s8 => r.s8.toInt
  | .u8 => r.u8.toNat
  | .s16 => r.s16.toInt
  | .u16 => r.u16.toNat
  | .s32 => r.s32.toInt
  | .u32 | .pointer => r.u32.toNat
  | .float => truncated .single r.float
  | .double => truncated .double r.double
  | .s64 | .u64 | .unknown .. => r.s64.toInt

def valueText (r : Register) : String :=
  match r.kind with
  | .u64 => toString r.u64.toNat
  | .float => Format.single.text r.float
  | .double => Format.double.text r.double
  | .pointer => "0x" ++ hex r.u32.toNat
  | _ => toString r.value

/-- The type and the value. -/
def text (r : Register) : String := r.kind.name ++ ":" ++ r.valueText

/-- The pattern of a register whose type is a float type, and its format. -/
def pattern? (r : Register) : Option (Format × Nat) :=
  match r.kind with
  | .float => some (.single, r.float)
  | .double => some (.double, r.double)
  | _ => none

/-- Whether the register holds a float that is no number. -/
def isNaN (r : Register) : Bool :=
  match r.pattern? with
  | some (f, bits) => f.isNaN bits
  | none => false

/-- Whether the value is a whole number, or a float that can be cut to one of sixty-four bits. -/
def isWhole (r : Register) : Bool :=
  match r.pattern? with
  | some (f, bits) =>
    match f.truncate? bits with
    | some n => decide (-2 ^ 63 < n ∧ n < 2 ^ 63)
    | none => false
  | none => true

/-- The log record of a register is its text. -/
def record (r : Register) : Bytes := Wire.string r.text

end Register

/-- The registers from `start` up to `stop` and the offset to return to. -/
structure Frame where
  start : Int
  stop : Int
  ret : Int
  deriving DecidableEq, Repr, Inhabited

namespace Frame

/-- The number of registers, as a signed number of sixty-four bits. -/
def size (f : Frame) : Int := Int.bmod (f.stop - f.start) (2 ^ 64)

def record (f : Frame) : Bytes :=
  Wire.fields [("start", f.start), ("end", f.stop), ("ret", f.ret)]

end Frame

structure Flags where
  code : UInt8 := 0
  deriving DecidableEq, Repr, Inhabited

namespace Flags

def zero : Flags := ⟨1⟩
def greater : Flags := ⟨2⟩
def less : Flags := ⟨4⟩
def equal : Flags := ⟨8⟩

def has (f g : Flags) : Bool := f.code &&& g.code ≠ 0

def or (f g : Flags) : Flags := ⟨f.code ||| g.code⟩

/-- A letter for each flag that is set. -/
def text (f : Flags) : String :=
  if f.code = 0 then "-"
  else String.join ([(zero, "Z"), (greater, "G"), (less, "L"), (equal, "E")].map fun (g, name) =>
    if f.has g then name else "")

end Flags

end RegisterLang
