import RegisterLang.Code.RegType

/-!
# Operation codes

An instruction begins with its operation code, two bytes, low byte first. Codes from twenty on name
no operation.
-/
namespace RegisterLang

inductive Opcode where
  | func
  | call
  | ret
  | set
  | mov
  | add
  | sub
  | mul
  | div
  | mod
  | cmp
  | jmp
  | jl
  | jg
  | je
  | jne
  | jz
  | jnz
  | push
  | pop
  | unknown (code : UInt16) (h : 20 ≤ code.toNat)
  deriving DecidableEq

namespace Opcode

instance : Inhabited Opcode := ⟨func⟩

/-- The operations of the machine in the order of their codes. -/
def known : List Opcode :=
  [func, call, ret, set, mov, add, sub, mul, div, mod, cmp, jmp, jl, jg, je, jne, jz, jnz, push, pop]

def code : Opcode → UInt16
  | func => 0
  | call => 1
  | ret => 2
  | set => 3
  | mov => 4
  | add => 5
  | sub => 6
  | mul => 7
  | div => 8
  | mod => 9
  | cmp => 10
  | jmp => 11
  | jl => 12
  | jg => 13
  | je => 14
  | jne => 15
  | jz => 16
  | jnz => 17
  | push => 18
  | pop => 19
  | unknown c _ => c

def ofCode (c : UInt16) : Opcode :=
  match h : c.toNat with
  | 0 => func
  | 1 => call
  | 2 => ret
  | 3 => set
  | 4 => mov
  | 5 => add
  | 6 => sub
  | 7 => mul
  | 8 => div
  | 9 => mod
  | 10 => cmp
  | 11 => jmp
  | 12 => jl
  | 13 => jg
  | 14 => je
  | 15 => jne
  | 16 => jz
  | 17 => jnz
  | 18 => push
  | 19 => pop
  | n + 20 => unknown c (by omega)

def isKnown : Opcode → Bool
  | unknown .. => false
  | _ => true

def isMath : Opcode → Bool
  | add | sub | mul | div | mod => true
  | _ => false

def isJump : Opcode → Bool
  | jmp | jl | jg | je | jne | jz | jnz => true
  | _ => false

/-- Whether a register type follows the code. -/
def isTyped : Opcode → Bool
  | set | cmp | push | pop | add | sub | mul | div | mod => true
  | _ => false

def name : Opcode → String
  | func => "func"
  | call => "call"
  | ret => "ret"
  | set => "set"
  | mov => "mov"
  | add => "add"
  | sub => "sub"
  | mul => "mul"
  | div => "div"
  | mod => "mod"
  | cmp => "cmp"
  | jmp => "jmp"
  | jl => "jl"
  | jg => "jg"
  | je => "je"
  | jne => "jne"
  | jz => "jz"
  | jnz => "jnz"
  | push => "push"
  | pop => "pop"
  | unknown c _ => "Opcode(" ++ toString c.toNat ++ ")"

def ofName? (n : String) : Option Opcode :=
  known.find? fun op => op.name = n

/-- How many bytes of operands follow the code; the immediate of `set` has the width of its type. -/
def operandSize? (op : Opcode) (t : RegType) : Option Nat :=
  match op with
  | func | call | mov => some 4
  | ret => some 2
  | set => some (3 + t.size)
  | add | sub | mul | div | mod => some 7
  | cmp => some 5
  | jmp | jl | jg | je | jne | jz | jnz => some 4
  | push | pop => some 3
  | unknown .. => none

end Opcode

end RegisterLang
