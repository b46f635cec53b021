/-!
# Register types

A register type says which of a register's bytes an instruction works on and what they mean. It is
written as one byte; bytes from eleven on name no type.
-/
namespace RegisterLang

inductive RegType where
  | s8
  | u8
  | s16
  | u16
  | s32
  | u32
  | s64
  | u64
  | float
  | double
  | pointer
  | unknown (code : UInt8) (h : 11 ≤ code.toNat)
  deriving DecidableEq

namespace RegType

instance : Inhabited RegType := ⟨s8⟩

/-- The types that have a meaning, in the order of their codes. -/
def known : List RegType :=
  [s8, u8, s16, u16, s32, u32, s64, u64, float, double, pointer]

def code : RegType → UInt8
  | s8 => 0
  | u8 => 1
  | s16 => 2
  | u16 => 3
  | s32 => 4
  | u32 => 5
  | s64 => 6
  | u64 => 7
  | float => 8
  | double => 9
  | pointer => 10
  | unknown c _ => c

def ofCode (c : UInt8) : RegType :=
  match h : c.toNat with
  | 0 => s8
  | 1 => u8
  | 2 => s16
  | 3 => u16
  | 4 => s32
  | 5 => u32
  | 6 => s64
  | 7 => u64
  | 8 => float
  | 9 => double
  | 10 => pointer
  | n + 11 => unknown c (by omega)

def isKnown : RegType → Bool
  | unknown .. => false
  | _ => true

def name : RegType → String
  | s8 => "s8"
  | u8 => "u8"
  | s16 => "s16"
  | u16 => "u16"
  | s32 => "s32"
  | u32 => "u32"
  | s64 => "s64"
  | u64 => "u64"
  | float => "float"
  | double => "double"
  | pointer => "pointer"
  | unknown c _ => "RegType(" ++ toString c.toNat ++ ")"

def ofName? (n : String) : Option RegType :=
  known.find? fun t => t.name = n

/-- How many bytes of a register the type covers. -/
def size : RegType → Nat
  | s8 | u8 => 1
  | s16 | u16 => 2
  | s32 | u32 | float | pointer => 4
  | s64 | u64 | double => 8
  | unknown .. => 0

def isFloat : RegType → Bool
  | float | double => true
  | _ => false

def isSigned : RegType → Bool
  | s8 | s16 | s32 | s64 | float | double => true
  | _ => false

end RegType

end RegisterLang
