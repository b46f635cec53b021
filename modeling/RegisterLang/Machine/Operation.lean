import RegisterLang.Machine.Register
import RegisterLang.Number.Arithmetic

/-!
# What the machine computes

Whole numbers wrap around at the width of their type; division cuts off toward zero and fails on a
zero divisor. Floats never fail.
-/
namespace RegisterLang.Operation
open Number

/-- An operation on whole numbers of one type; nothing is divided by zero. Any operation that is not
listed is the remainder. -/
def whole {α : Type} [Add α] [Sub α] [Mul α] [Div α] [Mod α] [OfNat α 0] [DecidableEq α]
    (op : Opcode) (x y : α) : Option α :=
  match op with
  | .add => some (x + y)
  | .sub => some (x - y)
  | .mul => some (x * y)
  | .div => if y = 0 then none else some (x / y)
  | _ => if y = 0 then none else some (x % y)

/-- An operation on floats. Remainders are taken in the wide format. -/
def float (f : Format) (op : Opcode) (x y : Nat) : Nat :=
  match op with
  | .add => f.add x y
  | .sub => f.sub x y
  | .mul => f.mul x y
  | .div => f.div x y
  | _ => Format.double.convert f (Format.double.remainder (f.convert .double x) (f.convert .double y))

/-- The result of an operation on registers that are read as `t`, in its low bytes; none for a
division by zero. -/
def compute (op : Opcode) (t : RegType) (a b : Register) : Option UInt64 :=
  match t with
  | .s8 => (whole op a.s8 b.s8).map fun v => v.toUInt8.toUInt64
  | .u8 => (whole op a.u8 b.u8).map fun v => v.toUInt64
  | .s16 => (whole op a.s16 b.s16).map fun v => v.toUInt16.toUInt64
  | .u16 => (whole op a.u16 b.u16).map fun v => v.toUInt64
  | .s32 => (whole op a.s32 b.s32).map fun v => v.toUInt32.toUInt64
  | .u32 | .pointer => (whole op a.u32 b.u32).map fun v => v.toUInt64
  | .s64 => (whole op a.s64 b.s64).map fun v => v.toUInt64
  | .u64 => whole op a.u64 b.u64
  | .float => some (float .single op a.float b.float).toUInt64
  | .double => some (float .double op a.double b.double).toUInt64
  | .unknown .. => some 0

def flagsOf : Ordering → Flags
  | .eq => .or .zero .equal
  | .gt => .greater
  | .lt => .less

/-- The flags for two whole numbers. -/
def compareWhole {α : Type} [LT α] [DecidableEq α] [DecidableLT α] (x y : α) : Flags :=
  flagsOf (if x = y then .eq else if y < x then .gt else .lt)

/-- The flags for two floats; what is no number sets none. -/
def compareFloat (f : Format) (x y : Nat) : Flags :=
  match f.compare? x y with
  | some o => flagsOf o
  | none => {}

/-- The flags of a comparison of registers that are read as `t`. -/
def compare (t : RegType) (a b : Register) : Flags :=
  match t with
  | .s8 => compareWhole a.s8 b.s8
  | .u8 => compareWhole a.u8 b.u8
  | .s16 => compareWhole a.s16 b.s16
  | .u16 => compareWhole a.u16 b.u16
  | .s32 => compareWhole a.s32 b.s32
  | .u32 | .pointer => compareWhole a.u32 b.u32
  | .s64 => compareWhole a.s64 b.s64
  | .u64 => compareWhole a.u64 b.u64
  | .float => compareFloat .single a.float b.float
  | .double => compareFloat .double a.double b.double
  | .unknown .. => {}

/-- Whether a jump is taken. -/
def taken (op : Opcode) (f : Flags) : Bool :=
  match op with
  | .jmp => true
  | .jl => f.has .less
  | .jg => f.has .greater
  | .je => f.has .equal
  | .jne => !f.has .equal
  | .jz => f.has .zero
  | .jnz => !f.has .zero
  | _ => false

end RegisterLang.Operation
