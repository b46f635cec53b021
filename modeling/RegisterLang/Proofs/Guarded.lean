import RegisterLang.Machine.Run

/-!
# A machine that checks its accesses

The machine once more, with its frames in one list, the place of the current window and the offset of
the next instruction as integers of their own, and every access to an array checked. An access out of
range stops it, which is not a fault of the kinds that the machine reports.
-/
namespace RegisterLang.Machine.Guarded
open Text

inductive Checked (ε α : Type) where
  | outOfRange
  | fault (e : ε)
  | done (a : α)

namespace Checked
variable {ε ε' α β : Type}

def bind (x : Checked ε α) (f : α → Checked ε β) : Checked ε β :=
  match x with
  | outOfRange => outOfRange
  | fault e => fault e
  | done a => f a

instance : Monad (Checked ε) where
  pure := done
  bind := bind

def access : Option α → Checked ε α
  | some a => done a
  | none => outOfRange

def mapFault (f : ε → ε') : Checked ε α → Checked ε' α
  | outOfRange => outOfRange
  | fault e => fault (f e)
  | done a => done a

end Checked
open Checked

def at? {α : Type} (xs : Array α) (i : Int) : Option α :=
  if 0 ≤ i then xs[i.toNat]? else none

def put? {α : Type} (xs : Array α) (i : Int) (a : α) : Option (Array α) :=
  if 0 ≤ i ∧ i < xs.size then some (xs.setIfInBounds i.toNat a) else none

/-- The number in `width` bytes from an index on, the lowest first. -/
def number? (bytes : Array UInt8) : Nat → Int → Option Nat
  | 0, _ => some 0
  | width + 1, i => do
    let low ← at? bytes i
    let high ← number? bytes width (i + 1)
    return low.toNat + 256 * high

def readEntries? (image : Image) (n : Nat) : Nat → Nat → Array UInt32 →
    Checked TableError (Array UInt32)
  | 0, _, table => return table
  | left + 1, offset, table => do
    let index ← access (number? image 4 offset)
    let pos ← access (number? image 4 (offset + 4))
    if n ≤ index then fault (.badIndex (n - left - 1) index n)
    else
      let table ← access (put? table index pos.toUInt32)
      readEntries? image n left (offset + Image.entrySize) table

def readTable? (image : Image) (offset : Nat) : Checked TableError (Array UInt32 × Nat) :=
  if image.size < offset + 4 then fault .noCount
  else do
    let n ← access (number? image 4 offset)
    let start := offset + 4
    if (image.size - start) / Image.entrySize < n then fault (.short n)
    else
      let table ← readEntries? image n n start (Array.replicate n 0)
      return (table, start + n * Image.entrySize)

def isMagic? (image : Image) : Option Bool :=
  if image.size < 4 then some false
  else do
    let b₀ ← at? image 0
    let b₁ ← at? image 1
    let b₂ ← at? image 2
    let b₃ ← at? image 3
    return [b₀, b₁, b₂, b₃] = Image.magic

def readHeader? (image : Image) : Checked HeaderError Header := do
  if ← access (isMagic? image) then
    let (functions, offset) ← (readTable? image Image.tablesStart).mapFault .functions
    let (labels, code) ← (readTable? image offset).mapFault .labels
    return ⟨functions, labels, code⟩
  else fault .badMagic

def prologue? (p : Program) (index : UInt32) : Checked RunFault Prologue :=
  if index.toNat < p.functions.size then do
    let entry ← access (at? p.functions index.toNat)
    let offset := entry.toNat
    if p.image.size < offset + Prologue.size then fault (.noPrologue index offset)
    else
      let code ← access (number? p.image 2 offset)
      let op := Opcode.ofCode code.toUInt16
      if op ≠ .func then fault (.notFunction index offset op)
      else
        let regs ← access (number? p.image 2 (offset + 2))
        let args ← access (number? p.image 2 (offset + 4))
        return ⟨regs, args, offset + Prologue.size⟩
  else fault (.functionIndex index p.functions.size)

/-- The state of the loop: the open frames, the current one first, and the place of the first register
of the current window. -/
structure Loop where
  regs : Array Register
  frames : List Frame
  stack : Array UInt8
  flags : Flags
  base : Int
  pc : Int

/-- An instruction that was read, with the offset after it. -/
structure Read where
  op : Opcode
  type : RegType
  next : Int

def type? (image : Image) (pc : Int) (op : Opcode) : Checked RunFault RegType :=
  if op.isTyped then
    if image.size < pc + 3 then fault (.short op)
    else do
      let code ← access (at? image (pc + 2))
      let t := RegType.ofCode code
      if t.isKnown then return t else fault (.badRegType op t.code)
  else return .s8

def fetch? (image : Image) (pc : Int) : Checked RunFault Read :=
  if image.size < pc + 2 then fault .noOpcode
  else do
    let code ← access (number? image 2 pc)
    let op := Opcode.ofCode code.toUInt16
    let t ← type? image pc op
    match op.operandSize? t with
    | none => fault (.unknownOpcode op.code)
    | some n =>
      if image.size < pc + 2 + n then fault (.short op) else return ⟨op, t, pc + 2 + n⟩

def half? (image : Image) (pc : Int) (offset : Nat) : Checked RunFault UInt16 := do
  return (← access (number? image 2 (pc + offset))).toUInt16

def full? (image : Image) (pc : Int) (offset : Nat) : Checked RunFault UInt32 := do
  return (← access (number? image 4 (pc + offset))).toUInt32

/-- The place of a register of the current window, which is there. -/
def place? (s : Loop) (r : Reg) : Checked RunFault Int :=
  let i := s.base + r.toNat
  if s.regs.size ≤ i then fault (.register r s.base)
  else do
    let _ ← access (at? s.regs i)
    return i

def Loop.reg? (s : Loop) (i : Int) : Checked RunFault Register := access (at? s.regs i)

def Loop.write? (s : Loop) (i : Int) (v : Register) (next : Int) : Checked RunFault Loop := do
  let regs ← access (put? s.regs i v)
  return { s with regs, pc := next }

def call? (p : Program) (limits : Limits) (s : Loop) (index : UInt32) (next : Int) :
    Checked RunFault Loop := do
  let f ← prologue? p index
  if limits.frames ≤ s.frames.length then fault (.frames s.frames.length)
  else
    let caller ← access s.frames.head?
    let start := caller.stop - f.args
    let stop := start + f.regs
    if start < 0 ∨ s.regs.size < stop then fault (.window index start stop s.regs.size)
    else return { s with frames := ⟨start, stop, next⟩ :: s.frames, base := start, pc := f.body }

/-- The loop after a return, or the value that the outermost function returned. -/
def return? (s : Loop) (v : Register) : Checked RunFault (Loop ⊕ Register) := do
  let f ← access s.frames.head?
  if s.frames.tail.isEmpty then return .inr v
  else
    let regs ← access (put? s.regs f.start v)
    let caller ← access s.frames.tail.head?
    return .inl { s with regs, frames := s.frames.tail, base := caller.start, pc := f.ret }

def jump? (p : Program) (s : Loop) (op : Opcode) (l : UInt32) (next : Int) :
    Checked RunFault Loop :=
  if l.toNat < p.labels.size then
    if Operation.taken op s.flags then do
      let target ← access (at? p.labels l.toNat)
      return { s with pc := target.toNat }
    else return { s with pc := next }
  else fault (.labelIndex l p.labels.size)

def perform? (p : Program) (limits : Limits) (s : Loop) (i : Read) :
    Checked RunFault (Loop ⊕ Register) := do
  let half := half? p.image s.pc
  let full := full? p.image s.pc
  match i.op with
  | .func => return .inl { s with pc := i.next }
  | .call => return .inl (← call? p limits s (← full 2) i.next)
  | .ret =>
    let src ← place? s (← half 2)
    return? s (← s.reg? src)
  | .set =>
    let dst ← place? s (← half 3)
    let imm ← access (number? p.image i.type.size (s.pc + 5))
    let old ← s.reg? dst
    return .inl (← s.write? dst (old.set i.type imm.toUInt64) i.next)
  | .mov =>
    let dst ← place? s (← half 2)
    let src ← place? s (← half 4)
    return .inl (← s.write? dst (← s.reg? src) i.next)
  | .add | .sub | .mul | .div | .mod =>
    let dst ← place? s (← half 3)
    let a ← place? s (← half 5)
    let b ← place? s (← half 7)
    match Operation.compute i.op i.type (← s.reg? a) (← s.reg? b) with
    | none => fault (.divisionByZero i.op i.type)
    | some v => return .inl (← s.write? dst ((← s.reg? dst).set i.type v) i.next)
  | .cmp =>
    let a ← place? s (← half 3)
    let b ← place? s (← half 5)
    let flags := Operation.compare i.type (← s.reg? a) (← s.reg? b)
    return .inl { s with flags, pc := i.next }
  | .jmp | .jl | .jg | .je | .jne | .jz | .jnz =>
    return .inl (← jump? p s i.op (← full 2) i.next)
  | .push =>
    let src ← place? s (← half 3)
    let n := i.type.size
    if limits.stack < s.stack.size + n then fault (.stackOverflow s.stack.size n)
    else
      let v ← s.reg? src
      return .inl { s with stack := s.stack ++ littleEndian n v.bits.toNat, pc := i.next }
  | .pop =>
    let dst ← place? s (← half 3)
    let n := i.type.size
    if s.stack.size < n then fault (.stackUnderflow n s.stack.size)
    else
      let v ← access (number? s.stack n (s.stack.size - n))
      let old ← s.reg? dst
      let s := { s with stack := s.stack.shrink (s.stack.size - n) }
      return .inl (← s.write? dst (old.set i.type v.toUInt64) i.next)
  | .unknown c _ => fault (.unknownOpcode c)

def start? (limits : Limits) (image : Image) : Checked RunError (Program × Loop) := do
  let h ← (readHeader? image).mapFault .header
  let p : Program := ⟨image, h.functions, h.labels⟩
  let f ← (prologue? p 0).mapFault .start
  if limits.registers < f.regs then fault (.startWindow f.regs limits.registers)
  else
    return (p,
      { regs := Array.replicate limits.registers {}
        frames := [⟨0, f.regs, -1⟩]
        stack := #[]
        flags := {}
        base := 0
        pc := f.body })

def Loop.ended (s : Loop) (ending : Ending) (steps depth : Nat) : Run :=
  { ending, steps, depth, stack := s.stack.size, flags := s.flags }

/-- A run of the loop for at most `fuel` steps; `none` if an access is out of range. -/
def runFrom? (p : Program) (limits : Limits) : Nat → Nat → Loop → Option Run
  | 0, steps, s => some (s.ended .unfinished steps s.frames.length)
  | fuel + 1, steps, s =>
    match fetch? p.image s.pc with
    | .outOfRange => none
    | .fault e => some (s.ended (.failed (.step s.pc.toNat e)) steps s.frames.length)
    | .done i =>
      match perform? p limits s i with
      | .outOfRange => none
      | .fault e => some (s.ended (.failed (.step s.pc.toNat e)) (steps + 1) s.frames.length)
      | .done (.inl s') => runFrom? p limits fuel (steps + 1) s'
      | .done (.inr v) => some (s.ended (.returned v) (steps + 1) 0)

def run? (limits : Limits) (image : Image) (fuel : Nat) : Option Run :=
  match start? limits image with
  | .outOfRange => none
  | .fault e => some { ending := .failed e }
  | .done (p, s) => runFrom? p limits fuel 0 s

/-- The states in which the loop of a run begins a step. -/
inductive Reached (limits : Limits) (image : Image) (p : Program) : Loop → Prop
  | start {s : Loop} : start? limits image = .done (p, s) → Reached limits image p s
  | step {s s' : Loop} {i : Read} : Reached limits image p s → fetch? p.image s.pc = .done i →
      perform? p limits s i = .done (.inl s') → Reached limits image p s'

/-- What holds whenever a step begins. -/
structure Loop.Safe (limits : Limits) (s : Loop) : Prop where
  active : s.frames ≠ []
  depth : s.frames.length ≤ limits.frames
  window : ∀ f ∈ s.frames, 0 ≤ f.start ∧ f.start ≤ f.stop ∧ f.stop ≤ s.regs.size
  ret : ∀ f ∈ s.frames.dropLast, 0 ≤ f.ret
  base : s.frames.head?.map Frame.start = some s.base
  pc : 0 ≤ s.pc
  size : s.regs.size = limits.registers
  stack : s.stack.size ≤ limits.stack

end RegisterLang.Machine.Guarded
