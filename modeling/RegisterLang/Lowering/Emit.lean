import RegisterLang.Lowering.Layout
import RegisterLang.Code.Instr
import RegisterLang.Number.Arithmetic

/-!
# Instructions of functions

Expressions are lowered into a destination register, which is written last; the registers from `free`
up are scratch. Variables are read where they are. Arguments are put into the last registers of the
window, directly or, if one of them makes a call, through temporaries. A branch takes three labels:
the one of its first block, the one of its `else`, and the one after it.
-/
namespace RegisterLang.Lowering
open Number

/-- A piece of a function: an instruction, or a label for what follows. -/
inductive Item where
  | instr (x : Instr)
  | label (l : Nat)
  deriving DecidableEq

/-- The code so far, the next label, and what was reported. -/
structure Output where
  items : Array Item := #[]
  label : Nat
  diagnostics : Array Diagnostic

abbrev Emit (α : Type) := StateM Output α

namespace Emit

def instr (x : Instr) : Emit Unit :=
  modify fun o => { o with items := o.items.push (.instr x) }

def place (l : Nat) : Emit Unit :=
  modify fun o => { o with items := o.items.push (.label l) }

def report (d : Diagnostic) : Emit Unit :=
  modify fun o => { o with diagnostics := o.diagnostics.push d }

/-- The next `n` labels. -/
def labels (n : Nat) : Emit Nat :=
  modifyGet fun o => (o.label, { o with label := o.label + n })

end Emit

/-- The layouts of a program and the one of the function that is lowered. -/
structure Scope where
  layouts : List Layout
  current : Layout

namespace Scope

def functions (s : Scope) : List Function := s.layouts.map Layout.function

def typeOf (s : Scope) (want : Option Ty) (x : Expr) : Option Ty :=
  Lowering.typeOf s.functions s.current.vars want x

def callee? (s : Scope) (name : String) : Option Layout :=
  s.layouts.find? fun l => l.function.name = name

/-- The variable of a name, which is reported if there is none. -/
def lookup (s : Scope) (pos : Pos) (name : String) : Emit (Option Variable) := do
  match s.current.var? name with
  | some v => return some v
  | none =>
    Emit.report ⟨"undeclared identifier", pos, "declared variable", name⟩
    return none

end Scope

def mathOp? : Op → Option Opcode
  | .add => some .add
  | .sub => some .sub
  | .mul => some .mul
  | .div => some .div
  | .mod => some .mod
  | _ => none

/-- The bits of a whole number as a register of a type holds it. -/
def intBits (t : RegType) (value : UInt64) (negative : Bool) : UInt64 :=
  match t with
  | .float => (Format.single.ofRatio negative value.toNat 1).toUInt64
  | .double => (Format.double.ofRatio negative value.toNat 1).toUInt64
  | _ => if negative then 0 - value else value

/-- A number of sixty-four bits with a sign; what does not fit becomes the least one. -/
def signedBits : Option Int → UInt64
  | some n => if -2 ^ 63 ≤ n ∧ n < 2 ^ 63 then (n % 2 ^ 64).toNat.toUInt64 else 0x8000000000000000
  | none => 0x8000000000000000

/-- A double cut to a whole number of sixty-four bits. For an unsigned type, what is not below
`2 ^ 63` counts from there. -/
def wholeBits (unsigned : Bool) (bits : Nat) : UInt64 :=
  let n := Format.double.truncate? bits
  let below := match n with
    | some n => decide (n < 2 ^ 63)
    | none => Format.double.isInfinite bits && Format.double.negative bits
  if unsigned && !below then signedBits (n.map (· - 2 ^ 63)) ^^^ 0x8000000000000000
  else signedBits n

/-- The bits of a double as a register of a type holds it. -/
def floatBits (t : RegType) (bits : Nat) : UInt64 :=
  match t with
  | .float => (Format.double.convert .single bits).toUInt64
  | .double => bits.toUInt64
  | .u8 | .u16 | .u32 | .u64 => wholeBits true bits
  | _ => wholeBits false bits

/-- The bits of a literal; a string has none. -/
def literalBits? (t : RegType) : Expr → Option UInt64
  | .int _ _ value negative => some (intBits t value negative)
  | .float _ _ bits => some (floatBits t (Format.single.convert .double bits.toNat))
  | .double _ _ bits => some (floatBits t bits.toNat)
  | .char _ _ value => some value.toInt64.toUInt64
  | _ => none

/-- Sets a register to a literal. -/
def lowerLiteral (s : Scope) (want : Option Ty) (dst : Reg) (x : Expr) : Emit Unit := do
  let ty := s.typeOf want x
  match regType? ty with
  | none => Emit.report (unfit x.pos ty)
  | some t =>
    match literalBits? t x with
    | some bits => Emit.instr (.set t dst bits)
    | none => Emit.report ⟨"unsupported literal", x.pos, "number or char", "string"⟩

/-- The position and the name of a variable that is read. -/
def ident? : Expr → Option (Pos × String)
  | .ident pos _ name => some (pos, name)
  | _ => none

/-- The function of a call, unless it is not defined or takes another number of arguments. -/
def resolve (s : Scope) (pos : Pos) (name : String) (args : Nat) : Emit (Option Layout) := do
  match s.callee? name with
  | none =>
    Emit.report ⟨"undeclared function", pos, "declared function", name⟩
    return none
  | some callee =>
    if args ≠ callee.args then
      Emit.report
        { message := "function " ++ Text.quote name ++ " takes " ++ toString callee.args ++
            " arguments, got " ++ toString args
          pos }
      return none
    return some callee

/-- The register of the first of `args` arguments. -/
def Layout.base (l : Layout) (args : Nat) : Reg := (l.regs - args).toUInt16

/-- Moves `n` registers from `source` on to those from `target` on. -/
def moveAll (target source : Reg) (n : Nat) : Emit Unit :=
  modify fun o =>
    { o with items := n.fold (fun i _ items =>
        items.push (.instr (.mov (target + i.toUInt16) (source + i.toUInt16)))) o.items }

mutual

/-- Leaves the value of an expression in `dst`. -/
def lower (s : Scope) (want : Option Ty) (dst free : Reg) : Expr → Emit Unit
  | .ident pos _ name => do
    let some v ← s.lookup pos name | return
    if v.reg ≠ dst then Emit.instr (.mov dst v.reg)
  | .op pos ty op binary left right => do
    let ty := s.typeOf want (.op pos ty op binary left right)
    match regType? ty with
    | none => Emit.report (unfit pos ty)
    | some t =>
      if binary then
        match mathOp? op with
        | none => Emit.report ⟨"unexpected operator", pos, "arithmetic operator", op.symbol⟩
        | some m =>
          let a ← match ident? left with
            | some (pos, name) => do pure (((← s.lookup pos name).map Variable.reg).getD 0)
            | none => do lower s ty free (free + 1) left; pure free
          let b ← match ident? right with
            | some (pos, name) => do pure (((← s.lookup pos name).map Variable.reg).getD 0)
            | none => do lower s ty (free + 1) (free + 2) right; pure (free + 1)
          Emit.instr (.math m t dst a b)
      else
        Emit.instr (.set t free 0)
        let r ← match ident? right with
          | some (pos, name) => do pure (((← s.lookup pos name).map Variable.reg).getD 0)
          | none => do lower s ty (free + 1) (free + 2) right; pure (free + 1)
        Emit.instr (.math .sub t dst free r)
  | .call pos _ name _ args => do
    let some callee ← resolve s pos name args.length | return
    let base := s.current.base args.length
    let types := callee.function.params.map Var.type
    if args.any makesCall then
      lowerArgs s true free free types args
      moveAll base free args.length
    else lowerArgs s false base free types args
    Emit.instr (.call callee.index.toUInt32)
    if base ≠ dst then Emit.instr (.mov dst base)
  | .missing =>
    Emit.report { message := "unsupported expression: " ++ NodeKind.missing.name }
  | .int pos ty value negative => lowerLiteral s want dst (.int pos ty value negative)
  | .float pos ty bits => lowerLiteral s want dst (.float pos ty bits)
  | .double pos ty bits => lowerLiteral s want dst (.double pos ty bits)
  | .char pos ty value => lowerLiteral s want dst (.char pos ty value)
  | .string pos ty value => lowerLiteral s want dst (.string pos ty value)
termination_by structural x => x

/-- Leaves the values of arguments in the registers from `dst` on. Where an argument makes a call each
value is kept below the scratch registers of the next. -/
def lowerArgs (s : Scope) (waiting : Bool) (dst free : Reg) (types : List (Option Ty)) :
    List Expr → Emit Unit
  | [] => return
  | a :: rest => do
    lower s (types.headD none) dst (if waiting then dst + 1 else free) a
    lowerArgs s waiting (dst + 1) free types.tail rest
termination_by structural x => x

end

/-- The register that holds an operand: that of a variable, or else `free`. -/
def operand (s : Scope) (want : Option Ty) (free : Reg) (x : Expr) : Emit Reg := do
  match ident? x with
  | some (pos, name) => return ((← s.lookup pos name).map Variable.reg).getD 0
  | none =>
    lower s want free (free + 1) x
    return free

/-- Calls a function for its effect; its value stays where it lands. -/
def lowerCall (s : Scope) (pos : Pos) (name : String) (args : List Expr) : Emit Unit :=
  lower s none (s.current.base args.length) s.current.free (.call pos none name none args)

/-- The jumps to the first block of a branch; none if the operator does not compare. -/
def jumps? : Op → Option (List Opcode)
  | .lt => some [.jl]
  | .gt => some [.jg]
  | .le => some [.jl, .je]
  | .ge => some [.jg, .je]
  | .eq => some [.je]
  | .ne => some [.jne]
  | _ => none

/-- The operator of a condition and its operands. -/
def comparison : Expr → Op × Expr × Expr
  | .op _ _ op _ left right => (op, left, right)
  | _ => (.none, .missing, .missing)

/-- Goes on at one of the labels `first` and `first + 1`. Fails if the operands fit in no register. -/
def lowerTest (s : Scope) (first : Nat) (test : Expr) : Emit Bool := do
  let want := s.typeOf none test
  let free := s.current.free
  match regType? want with
  | none =>
    Emit.report (unfit test.pos want)
    return false
  | some t =>
    let (op, left, right) := comparison test
    let a ← operand s want free left
    let b ← operand s want (free + 1) right
    Emit.instr (.cmp t a b)
    match jumps? op with
    | some l => l.forM fun j => Emit.instr (.jump j first.toUInt32)
    | none => Emit.report ⟨"bad condition", test.pos, "comparison", op.symbol⟩
    Emit.instr (.jump .jmp (first + 1).toUInt32)
    return true

mutual

def lowerStmt (s : Scope) : Stmt → Emit Unit
  | .var v => do
    let var := (s.current.var? v.name).getD {}
    if v.init.isMissing then Emit.instr (.set var.type var.reg 0)
    else lower s var.ty var.reg s.current.free v.init
  | .assign pos name _ x => do
    let some v ← s.lookup pos name | return
    lower s v.ty v.reg s.current.free x
  | .ret _ x => do
    if x.isMissing then Emit.instr (.set .s32 0 0)
    else lower s s.current.function.ret 0 s.current.free x
    Emit.instr (.ret 0)
  | .expr pos x => do
    match x with
    | .call pos _ name _ args => lowerCall s pos name args
    | _ => Emit.report ⟨"unused expression", pos, "function call", "expression"⟩
  | .cond _ test body none => do
    let first ← Emit.labels branchLabels
    if ← lowerTest s first test then
      Emit.place first
      lowerBlock s body
      Emit.instr (.jump .jmp (first + 2).toUInt32)
      Emit.place (first + 1)
      Emit.place (first + 2)
    else
      Emit.place first
      Emit.place (first + 1)
      Emit.place (first + 2)
  | .cond _ test body (some more) => do
    let first ← Emit.labels branchLabels
    if ← lowerTest s first test then
      Emit.place first
      lowerBlock s body
      Emit.instr (.jump .jmp (first + 2).toUInt32)
      Emit.place (first + 1)
      lowerBlock s more
      Emit.place (first + 2)
    else
      Emit.place first
      Emit.place (first + 1)
      Emit.place (first + 2)
  | .other kind pos => Emit.report { message := "unsupported statement: " ++ kind.name, pos }
termination_by structural x => x

def lowerBlock (s : Scope) : List Stmt → Emit Unit
  | [] => return
  | x :: rest => do
    lowerStmt s x
    lowerBlock s rest
termination_by structural x => x

end

def isReturn : Stmt → Bool
  | .ret .. => true
  | _ => false

/-- The code of a function. One that does not end with a `return` gets one. -/
def lowerFunction (s : Scope) : Emit Unit := do
  let l := s.current
  Emit.instr (.func l.regs.toUInt16 l.args.toUInt16)
  lowerBlock s l.function.body
  if !(l.function.body.getLast?.any isReturn) then Emit.instr (.ret 0)

end RegisterLang.Lowering
