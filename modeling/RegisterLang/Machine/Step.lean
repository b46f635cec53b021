import RegisterLang.Machine.Operation

/-!
# One step of the machine

The machine reads an instruction in place, decides what it does, and does it. What cannot be done
leaves the machine as it was. A call opens a window that begins with the last registers of the
caller's, and a return writes its value to the first register of the window that it closes.
-/
namespace RegisterLang
open Text

/-- How many registers, open frames and bytes on the stack there may be. -/
structure Limits where
  registers : Nat
  frames : Nat
  stack : Nat
  deriving DecidableEq, Repr

/-- The limits of a machine that is not told otherwise. -/
def Limits.standard : Limits := ⟨524288, 1024, 8388608⟩

/-- Limits as they are set; what is not above zero takes the standard value. -/
def Limits.ofSettings (registers frames stack : Int) : Limits :=
  let pick (n : Int) (standard : Nat) := if n ≤ 0 then standard else n.toNat
  ⟨pick registers standard.registers, pick frames standard.frames, pick stack standard.stack⟩

/-- An image with the tables of its header. -/
structure Program where
  image : Image
  functions : Array UInt32
  labels : Array UInt32

/-- What keeps an instruction from being carried out. -/
inductive RunFault where
  | noOpcode
  | short (op : Opcode)
  | badRegType (op : Opcode) (code : UInt8)
  | unknownOpcode (code : UInt16)
  | functionIndex (index : UInt32) (functions : Nat)
  | noPrologue (index : UInt32) (offset : Nat)
  | notFunction (index : UInt32) (offset : Nat) (op : Opcode)
  | frames (depth : Nat)
  | window (index : UInt32) (start stop : Int) (registers : Nat)
  | register (r : Reg) (start : Int)
  | labelIndex (index : UInt32) (labels : Nat)
  | stackOverflow (size more : Nat)
  | stackUnderflow (need size : Nat)
  | divisionByZero (op : Opcode) (type : RegType)
  deriving DecidableEq

namespace RunFault

def fault : RunFault → Fault
  | noOpcode | short _ | noPrologue .. => .truncated
  | badRegType .. => .badRegType
  | unknownOpcode _ | notFunction .. => .unknownOpcode
  | functionIndex .. => .functionIndex
  | frames _ => .frameOverflow
  | window .. | register .. => .registerOverflow
  | labelIndex .. => .labelIndex
  | stackOverflow .. => .stackOverflow
  | stackUnderflow .. => .stackUnderflow
  | divisionByZero .. => .divisionByZero

def detail : RunFault → String
  | noOpcode => "opcode"
  | short op => op.name
  | badRegType op c => op.name ++ ": " ++ toString c.toNat
  | unknownOpcode c => toString c.toNat
  | functionIndex i n => toString i.toNat ++ " of " ++ toString n
  | noPrologue i offset => "function " ++ toString i.toNat ++ " prologue at " ++ offsetText offset
  | notFunction i offset op =>
    "function " ++ toString i.toNat ++ ": want func at " ++ offsetText offset ++ ", got " ++ op.name
  | frames depth => "depth " ++ toString depth
  | window i start stop n =>
    "function " ++ toString i.toNat ++ " window [" ++ toString start ++ ", " ++ toString stop ++
      ") of " ++ toString n
  | register r start => Instr.regText r ++ " in frame at " ++ toString start
  | labelIndex l n => toString l.toNat ++ " of " ++ toString n
  | stackOverflow size more => toString size ++ " + " ++ toString more ++ " bytes"
  | stackUnderflow need size => toString need ++ " bytes of " ++ toString size
  | divisionByZero op t => op.name ++ " " ++ t.name

def message (e : RunFault) : String := e.detail ++ ": " ++ e.fault.text

end RunFault

/-- A function's first instruction: the size of its window, the number of its arguments, and the
offset of what follows. -/
structure Prologue where
  regs : Nat
  args : Nat
  body : Nat
  deriving DecidableEq, Repr

/-- The bytes of a function's first instruction. -/
def Prologue.size : Nat := 6

def Program.prologue (p : Program) (index : UInt32) : Except RunFault Prologue :=
  if h : index.toNat < p.functions.size then
    let offset := p.functions[index.toNat].toNat
    if p.image.size < offset + Prologue.size then .error (.noPrologue index offset)
    else
      let op := Opcode.ofCode (p.image.number 2 offset).toUInt16
      if op ≠ .func then .error (.notFunction index offset op)
      else
        .ok
          { regs := p.image.number 2 (offset + 2)
            args := p.image.number 2 (offset + 4)
            body := offset + Prologue.size }
  else .error (.functionIndex index p.functions.size)

namespace Machine

/-- A running machine: its current frame, the frames it returns to, the nearest first, and the offset
of the next instruction. -/
structure State where
  regs : Array Register
  frame : Frame
  callers : List Frame := []
  stack : Array UInt8 := #[]
  flags : Flags := {}
  pc : Nat

/-- The number of open frames. -/
def State.depth (s : State) : Nat := s.callers.length + 1

/-- What is read of an instruction before its operands: the operation, its type, which is `s8` if it
has none, and the offset after the instruction. -/
structure Fetched where
  op : Opcode
  type : RegType
  next : Nat
  deriving DecidableEq

/-- Reads the instruction at an offset. -/
def fetch (image : Image) (pc : Nat) : Except RunFault Fetched :=
  if image.size < pc + 2 then .error .noOpcode
  else
    let op := Opcode.ofCode (image.number 2 pc).toUInt16
    let typed := op.isTyped
    if typed && image.size < pc + 3 then .error (.short op)
    else
      let t := if typed then RegType.ofCode (image.getD (pc + 2) 0) else .s8
      if typed && !t.isKnown then .error (.badRegType op t.code)
      else
        match op.operandSize? t with
        | none => .error (.unknownOpcode op.code)
        | some n =>
          if image.size < pc + 2 + n then .error (.short op) else .ok ⟨op, t, pc + 2 + n⟩

/-- What an instruction does to the machine. Registers are counted from the first of all. -/
inductive Effect where
  | goOn
  | jump (pc : Nat)
  | write (reg : Nat) (value : Register)
  | compare (flags : Flags)
  | enter (frame : Frame) (pc : Nat)
  | leave (value : Register)
  | push (bytes : Bytes)
  | pop (count reg : Nat) (value : Register)

/-- The place of a register of the current frame. -/
def State.place (s : State) (r : Reg) : Except RunFault Nat :=
  let i := s.frame.start.toNat + r.toNat
  if i < s.regs.size then .ok i else .error (.register r s.frame.start)

def State.reg (s : State) (i : Nat) : Register := s.regs.getD i {}

/-- The window that a call opens. -/
def callFrame (p : Program) (limits : Limits) (s : State) (index : UInt32) (next : Nat) :
    Except RunFault Effect := do
  let f ← p.prologue index
  if limits.frames ≤ s.depth then throw (.frames s.depth)
  let start := s.frame.stop - f.args
  let stop := start + f.regs
  if start < 0 ∨ s.regs.size < stop then throw (.window index start stop s.regs.size)
  return .enter ⟨start, stop, next⟩ f.body

/-- What the instruction that was read at the current offset does. -/
def effect (p : Program) (limits : Limits) (s : State) (i : Fetched) : Except RunFault Effect :=
  let half (offset : Nat) : UInt16 := (p.image.number 2 (s.pc + offset)).toUInt16
  let full (offset : Nat) : UInt32 := (p.image.number 4 (s.pc + offset)).toUInt32
  match i.op with
  | .func => return .goOn
  | .call => callFrame p limits s (full 2) i.next
  | .ret => do
    let src ← s.place (half 2)
    return .leave (s.reg src)
  | .set => do
    let dst ← s.place (half 3)
    let imm := (p.image.number i.type.size (s.pc + 5)).toUInt64
    return .write dst ((s.reg dst).set i.type imm)
  | .mov => do
    let dst ← s.place (half 2)
    let src ← s.place (half 4)
    return .write dst (s.reg src)
  | .add | .sub | .mul | .div | .mod => do
    let dst ← s.place (half 3)
    let a ← s.place (half 5)
    let b ← s.place (half 7)
    match Operation.compute i.op i.type (s.reg a) (s.reg b) with
    | some v => return .write dst ((s.reg dst).set i.type v)
    | none => throw (.divisionByZero i.op i.type)
  | .cmp => do
    let a ← s.place (half 3)
    let b ← s.place (half 5)
    return .compare (Operation.compare i.type (s.reg a) (s.reg b))
  | .jmp | .jl | .jg | .je | .jne | .jz | .jnz =>
    let l := full 2
    if h : l.toNat < p.labels.size then
      return if Operation.taken i.op s.flags then .jump p.labels[l.toNat].toNat else .goOn
    else throw (.labelIndex l p.labels.size)
  | .push => do
    let src ← s.place (half 3)
    let n := i.type.size
    if limits.stack < s.stack.size + n then throw (.stackOverflow s.stack.size n)
    return .push (littleEndian n (s.reg src).bits.toNat)
  | .pop => do
    let dst ← s.place (half 3)
    let n := i.type.size
    if s.stack.size < n then throw (.stackUnderflow n s.stack.size)
    let v := (Image.number s.stack n (s.stack.size - n)).toUInt64
    return .pop n dst ((s.reg dst).set i.type v)
  | .unknown c _ => throw (.unknownOpcode c)

/-- A machine that goes on, or one whose outermost function has returned. -/
inductive Next where
  | running (s : State)
  | returned (value : Register) (s : State)

/-- Carries out an effect, where the instruction ends at `next`. -/
def State.apply (s : State) (next : Nat) : Effect → Next
  | .goOn => .running { s with pc := next }
  | .jump pc => .running { s with pc }
  | .write reg value => .running { s with regs := s.regs.setIfInBounds reg value, pc := next }
  | .compare flags => .running { s with flags, pc := next }
  | .enter frame pc => .running { s with frame, callers := s.frame :: s.callers, pc }
  | .leave value =>
    match s.callers with
    | [] => .returned value s
    | caller :: rest =>
      .running
        { s with
          regs := s.regs.setIfInBounds s.frame.start.toNat value
          frame := caller
          callers := rest
          pc := s.frame.ret.toNat }
  | .push bytes => .running { s with stack := s.stack ++ bytes, pc := next }
  | .pop count reg value =>
    .running
      { s with
        stack := s.stack.shrink (s.stack.size - count)
        regs := s.regs.setIfInBounds reg value
        pc := next }

/-- One step: an instruction is read and carried out. -/
def step (p : Program) (limits : Limits) (s : State) : Except RunFault Next := do
  let i ← fetch p.image s.pc
  let e ← effect p limits s i
  return s.apply i.next e

end Machine

end RegisterLang
