import RegisterLang.Code.Opcode
import RegisterLang.Code.Image
import RegisterLang.Number.FloatText

/-!
# Instructions

An instruction is an operation with its operands. It is written as the operation code, the register
type if the operation has one, and the operands with fixed widths. Instructions with an operation or
a type of the wrong kind can be shown but not written.
-/
namespace RegisterLang
open Text Number

abbrev Reg := UInt16

inductive Instr where
  | func (regs args : UInt16)
  | call (function : UInt32)
  | ret (src : Reg)
  | set (type : RegType) (dst : Reg) (imm : UInt64)
  | mov (dst src : Reg)
  | math (op : Opcode) (type : RegType) (dst a b : Reg)
  | cmp (type : RegType) (a b : Reg)
  | jump (op : Opcode) (label : UInt32)
  | push (type : RegType) (src : Reg)
  | pop (type : RegType) (dst : Reg)
  deriving DecidableEq

instance : Inhabited Instr := ⟨.ret 0⟩

/-- What keeps an instruction from being written. -/
inductive EncodeFault where
  | notMath (op : Opcode)
  | notJump (op : Opcode)
  | badSetType (type : RegType)
  deriving DecidableEq

def EncodeFault.message : EncodeFault → String
  | notMath op => "not a math opcode: " ++ op.name
  | notJump op => "not a jump opcode: " ++ op.name
  | badSetType t => "bad set type: " ++ t.name

/-- Why the bytes at an offset are no instruction. -/
inductive DecodeError where
  | noOpcode (pc : Int)
  | unknownOpcode (code : UInt16) (pc : Int)
  | badRegType (op : Opcode) (pc : Int) (code : UInt8)
  | short (op : Opcode) (pc : Int)
  deriving DecidableEq

/-- An offset in hexadecimal, with its sign if it is negative. -/
def offsetText (pc : Int) : String :=
  (if pc < 0 then "-0x" else "0x") ++ hex pc.natAbs

def DecodeError.fault : DecodeError → Fault
  | noOpcode _ | short .. => .truncated
  | unknownOpcode .. => .unknownOpcode
  | badRegType .. => .badRegType

def DecodeError.message (e : DecodeError) : String :=
  (match e with
    | noOpcode pc => "opcode at " ++ offsetText pc
    | unknownOpcode c pc => toString c.toNat ++ " at " ++ offsetText pc
    | badRegType op pc c => op.name ++ " at " ++ offsetText pc ++ ": " ++ toString c.toNat
    | short op pc => op.name ++ " at " ++ offsetText pc) ++ ": " ++ e.fault.text

namespace Instr

def opcode : Instr → Opcode
  | func .. => .func
  | call .. => .call
  | ret .. => .ret
  | set .. => .set
  | mov .. => .mov
  | math op .. => op
  | cmp .. => .cmp
  | jump op .. => op
  | push .. => .push
  | pop .. => .pop

/-- What is wrong with an instruction that cannot be written. -/
def fault? : Instr → Option EncodeFault
  | math op .. => if op.isMath then none else some (.notMath op)
  | jump op .. => if op.isJump then none else some (.notJump op)
  | set t .. => if t.isKnown then none else some (.badSetType t)
  | _ => none

def word (op : Opcode) : Bytes := littleEndian 2 op.code.toNat

def half (r : UInt16) : Bytes := littleEndian 2 r.toNat

/-- The bytes of an instruction; an immediate is cut to the width of its type. -/
def bytes : Instr → Bytes
  | func regs args => word .func ++ half regs ++ half args
  | call f => word .call ++ littleEndian 4 f.toNat
  | ret src => word .ret ++ half src
  | set t dst imm => word .set ++ t.code :: half dst ++ littleEndian t.size imm.toNat
  | mov dst src => word .mov ++ half dst ++ half src
  | math op t dst a b => word op ++ t.code :: half dst ++ half a ++ half b
  | cmp t a b => word .cmp ++ t.code :: half a ++ half b
  | jump op l => word op ++ littleEndian 4 l.toNat
  | push t src => word .push ++ t.code :: half src
  | pop t dst => word .pop ++ t.code :: half dst

/-- The operands of a known operation, which begin at `i`. -/
def operands (image : Image) (op : Opcode) (t : RegType) (i : Nat) : Instr :=
  let half (offset : Nat) : UInt16 := (image.number 2 (i + offset)).toUInt16
  let full (offset : Nat) : UInt32 := (image.number 4 (i + offset)).toUInt32
  match op with
  | .func => func (half 0) (half 2)
  | .call => call (full 0)
  | .ret => ret (half 0)
  | .set => set t (half 1) (image.number t.size (i + 3)).toUInt64
  | .mov => mov (half 0) (half 2)
  | .cmp => cmp t (half 1) (half 3)
  | .push => push t (half 1)
  | .pop => pop t (half 1)
  | .add | .sub | .mul | .div | .mod => math op t (half 1) (half 3) (half 5)
  | .jmp | .jl | .jg | .je | .jne | .jz | .jnz | .unknown .. => jump op (full 0)

/-- The instruction at an offset that is not negative, and the offset after it. -/
def decodeAt (image : Image) (pc : Nat) : Except DecodeError (Instr × Nat) :=
  if image.size < pc + 2 then .error (.noOpcode pc)
  else
    let code := (image.number 2 pc).toUInt16
    let op := Opcode.ofCode code
    if !op.isKnown then .error (.unknownOpcode code pc)
    else
      let i := pc + 2
      if op.isTyped && image.size ≤ i then .error (.short op pc)
      else
        let t := if op.isTyped then RegType.ofCode (image.getD i 0) else .s8
        if op.isTyped && !t.isKnown then .error (.badRegType op pc t.code)
        else
          let next := i + (op.operandSize? t).getD 0
          if image.size < next then .error (.short op pc)
          else .ok (operands image op t i, next)

/-- The instruction at an offset and the offset after it. -/
def decode (image : Image) (pc : Int) : Except DecodeError (Instr × Nat) :=
  if pc < 0 then .error (.noOpcode pc) else decodeAt image pc.toNat

theorem decodeAt_bounds {image : Image} {pc next : Nat} {x : Instr}
    (h : decodeAt image pc = .ok (x, next)) : pc < next ∧ next ≤ image.size := by
  unfold decodeAt at h
  dsimp only at h
  repeat' split at h
  all_goals cases h
  all_goals omega

/-- The instructions from `pc` to the end of the image, each with the offsets where it starts and
ends, after those in `acc`, and the error that stopped the reading. -/
def decodeFrom (image : Image) (acc : Array (Nat × Instr × Nat)) (pc : Nat) :
    Array (Nat × Instr × Nat) × Option DecodeError :=
  match h : decodeAt image pc with
  | .error e => (acc, some e)
  | .ok (x, next) =>
    have := decodeAt_bounds h
    let acc := acc.push (pc, x, next)
    if next < image.size then decodeFrom image acc next else (acc, none)
termination_by image.size - pc

/-- An immediate as its type reads it. -/
def immText (t : RegType) (v : UInt64) : String :=
  match t with
  | .s8 => toString v.toUInt8.toInt8
  | .s16 => toString v.toUInt16.toInt16
  | .s32 => toString v.toUInt32.toInt32
  | .s64 => toString v.toInt64
  | .float => Format.single.text v.toUInt32.toNat
  | .double => Format.double.text v.toNat
  | .pointer => "0x" ++ hex v.toNat
  | .u8 | .u16 | .u32 | .u64 | .unknown .. => toString v

def regText (r : Reg) : String := "r" ++ toString r

def regs (l : List Reg) : String := ", ".intercalate (l.map regText)

/-- An instruction as a line of a listing. -/
def text (x : Instr) : String :=
  padRight 6 x.opcode.name ++
    match x with
    | func regs args => "regs " ++ toString regs ++ ", args " ++ toString args
    | call f => "func#" ++ toString f
    | ret src => regText src
    | set t dst imm => padRight 6 t.name ++ " " ++ regText dst ++ ", " ++ immText t imm
    | mov dst src => regs [dst, src]
    | math _ t dst a b => padRight 6 t.name ++ " " ++ regs [dst, a, b]
    | cmp t a b => padRight 6 t.name ++ " " ++ regs [a, b]
    | jump _ l => "L" ++ toString l
    | push t src => padRight 6 t.name ++ " " ++ regText src
    | pop t dst => padRight 6 t.name ++ " " ++ regText dst

end Instr

end RegisterLang
