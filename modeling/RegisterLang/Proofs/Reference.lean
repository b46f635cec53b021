import RegisterLang.Number.Arithmetic
import RegisterLang.Proofs.Trees

/-!
# The meaning of checked trees

An evaluator that knows nothing of registers, frames or code. A value is a bit pattern of the width of
its type. Operands and arguments are evaluated from left to right. An evaluation is undefined where a
variable is read whose declaration was not executed in this call, and where the value of a function is
used that returned none. A tree that means nothing is ill-formed. Calls are followed to a given depth,
beyond which the outcome is `tooDeep`.
-/
namespace RegisterLang.Reference
open Number

inductive Outcome (α : Type) where
  | value (a : α)
  | divisionByZero
  | undefined
  | illFormed
  | tooDeep
  deriving DecidableEq, Repr

def Outcome.bind {α β : Type} (r : Outcome α) (f : α → Outcome β) : Outcome β :=
  match r with
  | value a => f a
  | divisionByZero => divisionByZero
  | undefined => undefined
  | illFormed => illFormed
  | tooDeep => tooDeep

instance : Monad Outcome where
  pure := .value
  bind := Outcome.bind

def Outcome.read {α : Type} : Option α → Outcome α
  | some a => value a
  | none => undefined

def Outcome.part {α : Type} : Option α → Outcome α
  | some a => value a
  | none => illFormed

@[simp] theorem Outcome.part_some_bind {α β : Type} (a : α) (f : α → Outcome β) :
    (Outcome.part (some a) >>= f) = f a := rfl

theorem Outcome.bind_assoc {α β γ : Type} (r : Outcome α) (f : α → Outcome β) (g : β → Outcome γ) :
    (r >>= f >>= g) = (r >>= fun a => f a >>= g) := by
  cases r <;> rfl

/-- The variables whose declarations were executed, with their values, the latest first. -/
abbrev Env := List (String × Nat)

/-- What the patterns of a type stand for: whole numbers, with a sign or without one, or floats. -/
inductive Kind where
  | whole (signed : Bool) (width : Nat)
  | float (format : Format)
  deriving DecidableEq, Repr

/-- A character is a number of sixteen bits, and a string the place where it is. -/
def kind? : Option Ty → Option Kind
  | some .s8 => some (.whole true 8)
  | some .u8 => some (.whole false 8)
  | some .s16 => some (.whole true 16)
  | some .u16 | some .char => some (.whole false 16)
  | some .s32 => some (.whole true 32)
  | some .u32 | some .string => some (.whole false 32)
  | some .s64 => some (.whole true 64)
  | some .u64 => some (.whole false 64)
  | some .float => some (.float .single)
  | some .double => some (.float .double)
  | some .void | some (.record _) | none => none

namespace Kind

def width : Kind → Nat
  | whole _ width => width
  | float f => 1 + f.exponent + f.fraction

def reduce (k : Kind) (n : Int) : Nat := (n % 2 ^ k.width).toNat

end Kind

def wholeOf (signed : Bool) (width x : Nat) : Int :=
  if signed then Int.bmod x (2 ^ width) else x

/-- Exact arithmetic; quotients are cut off toward zero and remainders have the sign of the dividend. -/
def wholeMath (op : Op) (x y : Int) : Outcome Int :=
  match op with
  | .add => .value (x + y)
  | .sub => .value (x - y)
  | .mul => .value (x * y)
  | .div => if y = 0 then .divisionByZero else .value (x.tdiv y)
  | .mod => if y = 0 then .divisionByZero else .value (x.tmod y)
  | _ => .illFormed

/-- Arithmetic on floats, which never fails. Remainders are taken in the wide format. -/
def floatMath (f : Format) (op : Op) (x y : Nat) : Outcome Nat :=
  match op with
  | .add => .value (f.add x y)
  | .sub => .value (f.sub x y)
  | .mul => .value (f.mul x y)
  | .div => .value (f.div x y)
  | .mod => .value <|
    Format.double.convert f (Format.double.remainder (f.convert .double x) (f.convert .double y))
  | _ => .illFormed

def math (op : Op) (k : Kind) (x y : Nat) : Outcome Nat :=
  match k with
  | .whole signed width => do
    let n ← wholeMath op (wholeOf signed width x) (wholeOf signed width y)
    return k.reduce n
  | .float f => do
    let bits ← floatMath f op x y
    return k.reduce bits

/-- How two patterns of a kind compare; a float that is no number compares with nothing. -/
def order? (k : Kind) (x y : Nat) : Option Ordering :=
  match k with
  | .whole signed width => some (compare (wholeOf signed width x) (wholeOf signed width y))
  | .float f => f.compare? x y

def compares (op : Op) (o : Option Ordering) : Outcome Bool :=
  match op with
  | .lt => .value (o = some .lt)
  | .gt => .value (o = some .gt)
  | .le => .value (o = some .lt ∨ o = some .eq)
  | .ge => .value (o = some .gt ∨ o = some .eq)
  | .eq => .value (o = some .eq)
  | .ne => .value (o ≠ some .eq)
  | _ => .illFormed

def Kind.ofWhole (k : Kind) (negative : Bool) (n : Nat) : Nat :=
  match k with
  | .whole .. => k.reduce (if negative then -n else n)
  | .float f => k.reduce (f.ofRatio negative n 1)

/-- The pattern of a float, which keeps the one that it has in its own format and is rounded to another
one. -/
def Kind.ofFloat (k : Kind) (f : Format) (bits : Nat) : Outcome Nat :=
  match k with
  | .whole .. => .illFormed
  | .float g =>
    if f.biased bits = f.top then .illFormed
    else .value (k.reduce (if f = g then bits else f.convert g bits : Nat))

def literal (k : Kind) : Expr → Outcome Nat
  | .int _ _ value negative => .value (k.ofWhole negative value.toNat)
  | .float _ _ bits => k.ofFloat .single bits.toNat
  | .double _ _ bits => k.ofFloat .double bits.toNat
  | .char _ _ value => .value (k.reduce value.toInt)
  | _ => .illFormed

def named? (functions : List Function) (name : String) : Option Function :=
  functions.find? fun f => f.name = name

def isAbsent : Expr → Bool
  | .missing => true
  | _ => false

/-- What a `return` without a value gives: nothing, or zero if the type has at most four bytes. -/
inductive Bare where
  | nothing
  | zero
  deriving DecidableEq, Repr

def Bare.value? (bare : Bare) (ty : Option Ty) : Option Nat :=
  match bare with
  | nothing => none
  | zero => (kind? ty).bind fun k => if k.width ≤ 32 then some 0 else none

abbrev Caller := Function → List Nat → Outcome (Option Nat)

section
variable (functions : List Function) (call : Caller)

mutual

def evalExpr (env : Env) : Expr → Outcome Nat
  | .ident _ _ name => .read (env.lookup name)
  | .op _ ty op binary left right => do
    let k ← Outcome.part (kind? ty)
    if binary then
      let x ← evalExpr env left
      let y ← evalExpr env right
      math op k x y
    else
      let y ← evalExpr env right
      math .sub k 0 y
  | .call _ _ name _ args => do
    let f ← Outcome.part (named? functions name)
    let vs ← evalArgs env args
    let v ← call f vs
    Outcome.read v
  | .missing => .illFormed
  | .int pos ty value negative => do
    literal (← Outcome.part (kind? ty)) (.int pos ty value negative)
  | .float pos ty bits => do literal (← Outcome.part (kind? ty)) (.float pos ty bits)
  | .double pos ty bits => do literal (← Outcome.part (kind? ty)) (.double pos ty bits)
  | .char pos ty value => do literal (← Outcome.part (kind? ty)) (.char pos ty value)
  | .string .. => .illFormed
termination_by structural x => x

def evalArgs (env : Env) : List Expr → Outcome (List Nat)
  | [] => return []
  | a :: rest => do
    let v ← evalExpr env a
    let vs ← evalArgs env rest
    return v :: vs
termination_by structural x => x

end

def evalTest (env : Env) : Expr → Outcome Bool
  | .op _ ty op true left right => do
    let k ← Outcome.part (kind? ty)
    let x ← evalExpr functions call env left
    let y ← evalExpr functions call env right
    compares op (order? k x y)
  | _ => .illFormed

/-- Calls a function for its effect; whether it returns a value does not matter. -/
def evalCall (env : Env) : Expr → Outcome Unit
  | .call _ _ name _ args => do
    let f ← Outcome.part (named? functions name)
    let vs ← evalArgs functions call env args
    let _ ← call f vs
    return ()
  | _ => .illFormed

/-- What a statement leads to: the next one in an environment, or the end of the function with the
value that it returns, if it returns one. -/
inductive Flow where
  | next (env : Env)
  | returned (value : Option Nat)
  deriving DecidableEq, Repr, Inhabited

mutual

def runStmt (env : Env) : Stmt → Outcome Flow
  | .var v =>
    if isAbsent v.init then return .next ((v.name, 0) :: env)
    else do
      let x ← evalExpr functions call env v.init
      return .next ((v.name, x) :: env)
  | .assign _ name _ x => do
    let v ← evalExpr functions call env x
    return .next (if (env.lookup name).isSome then (name, v) :: env else env)
  | .ret _ x =>
    if isAbsent x then return .returned none
    else do
      let v ← evalExpr functions call env x
      return .returned (some v)
  | .expr _ x => do
    evalCall functions call env x
    return .next env
  | .cond _ test body none => do
    if ← evalTest functions call env test then runBlock env body else return .next env
  | .cond _ test body (some more) => do
    if ← evalTest functions call env test then runBlock env body else runBlock env more
  | .other .. => .illFormed
termination_by structural x => x

def runBlock (env : Env) : List Stmt → Outcome Flow
  | [] => return .next env
  | x :: rest => do
    match ← runStmt env x with
    | .next env => runBlock env rest
    | .returned v => return .returned v
termination_by structural x => x

end

def runPiece (env : Env) : Piece → Outcome Flow
  | .one x => runStmt functions call env x
  | .all xs => runBlock functions call env xs

/-- A branch without an `else` goes on like one with an empty one. -/
theorem runStmt_cond (env : Env) (pos : Pos) (test : Expr) (body : Block) (more : Option Block) :
    runStmt functions call env (.cond pos test body more) =
      evalTest functions call env test >>= fun b =>
        runPiece functions call env (.all (if b then body else elseStmts more)) := by
  cases more <;> rw [runStmt] <;> congr <;> funext b <;> cases b <;> rfl

def runBody (bare : Bare) : Caller := fun f args => do
  match ← runBlock functions call ((f.params.map Var.name).zip args) f.body with
  | .next _ => return none
  | .returned v => return v.or (bare.value? f.ret)

end

/-- Calls that nest at most `depth` deep. -/
def callFunction (functions : List Function) (bare : Bare) : Nat → Caller
  | 0, _, _ => .tooDeep
  | depth + 1, f, args => runBody functions (callFunction functions bare depth) bare f args

def Outcome.Below {α : Type} (r r' : Outcome α) : Prop := r = .tooDeep ∨ r = r'

theorem Outcome.Below.refl {α : Type} (r : Outcome α) : r.Below r := .inr rfl

theorem Outcome.Below.bind {α β : Type} {r r' : Outcome α} {f f' : α → Outcome β} (h : r.Below r')
    (hf : ∀ a, (f a).Below (f' a)) : (r >>= f).Below (r' >>= f') := by
  rcases h with rfl | rfl
  · exact .inl rfl
  · cases r with
    | value a => exact hf a
    | divisionByZero | undefined | illFormed | tooDeep => exact .inr rfl

section
variable {functions : List Function} {call call' : Caller}

theorem evalExpr_below (hcall : ∀ f vs, (call f vs).Below (call' f vs)) :
    (∀ x env, (evalExpr functions call env x).Below (evalExpr functions call' env x)) ∧
    ∀ xs env, (evalArgs functions call env xs).Below (evalArgs functions call' env xs) := by
  apply Expr.forall_of
  case missing => exact fun env => .refl _
  case ident => exact fun pos t name env => .refl _
  case int => exact fun pos t v n env => .refl _
  case float => exact fun pos t b env => .refl _
  case double => exact fun pos t b env => .refl _
  case char => exact fun pos t v env => .refl _
  case string => exact fun pos t v env => .refl _
  case op =>
    intro pos t op binary left right hleft hright env
    rw [evalExpr, evalExpr]
    refine (Outcome.Below.refl _).bind fun k => ?_
    cases binary with
    | true => exact (hleft env).bind fun x => (hright env).bind fun y => .refl _
    | false => exact (hright env).bind fun y => .refl _
  case call =>
    intro pos t name nt args hargs env
    rw [evalExpr, evalExpr]
    exact (Outcome.Below.refl _).bind fun f => (hargs env).bind fun vs =>
      (hcall f vs).bind fun v => .refl _
  case nil => exact fun env => .refl _
  case cons =>
    intro a rest ha hrest env
    rw [evalArgs, evalArgs]
    exact (ha env).bind fun v => (hrest env).bind fun vs => .refl _

theorem evalTest_below (hcall : ∀ f vs, (call f vs).Below (call' f vs)) (env : Env) (test : Expr) :
    (evalTest functions call env test).Below (evalTest functions call' env test) := by
  have hexpr := (@evalExpr_below functions _ _ hcall).1
  cases test with
  | op pos t op binary left right =>
    cases binary with
    | true => exact (Outcome.Below.refl _).bind fun k => (hexpr left env).bind fun x =>
        (hexpr right env).bind fun y => .refl _
    | false => exact .refl _
  | _ => exact .refl _

theorem runPiece_below (hcall : ∀ f vs, (call f vs).Below (call' f vs)) :
    (∀ x env, (runStmt functions call env x).Below (runStmt functions call' env x)) ∧
    ∀ xs env, (runBlock functions call env xs).Below (runBlock functions call' env xs) := by
  have hexpr := @evalExpr_below functions _ _ hcall
  apply Stmt.forall_of
  case var =>
    intro v env
    rw [runStmt, runStmt]
    by_cases hinit : isAbsent v.init = true
    · rw [if_pos hinit, if_pos hinit]
      exact .refl _
    · rw [if_neg hinit, if_neg hinit]
      exact (hexpr.1 v.init env).bind fun x => .refl _
  case assign => exact fun pos name nt x env => (hexpr.1 x env).bind fun v => .refl _
  case ret =>
    intro pos x env
    rw [runStmt, runStmt]
    by_cases hx : isAbsent x = true
    · rw [if_pos hx, if_pos hx]
      exact .refl _
    · rw [if_neg hx, if_neg hx]
      exact (hexpr.1 x env).bind fun v => .refl _
  case expr =>
    intro pos x env
    rw [runStmt, runStmt]
    refine Outcome.Below.bind ?_ fun _ => .refl _
    cases x with
    | call cpos t name nt args =>
      exact (Outcome.Below.refl _).bind fun f => (hexpr.2 args env).bind fun vs =>
        (hcall f vs).bind fun _ => .refl _
    | _ => exact .refl _
  case cond =>
    intro pos test body more hbody hmore env
    rw [runStmt_cond, runStmt_cond]
    refine (evalTest_below hcall env test).bind fun b => ?_
    cases b with
    | true => exact hbody env
    | false => exact hmore env
  case other => exact fun kind pos env => .refl _
  case nil => exact fun env => .refl _
  case cons =>
    intro x rest hx hrest env
    rw [runBlock, runBlock]
    refine (hx env).bind fun flow => ?_
    cases flow with
    | next env' => exact hrest env'
    | returned v => exact .refl _

end

/-- An evaluation that has ended stays so when calls are followed deeper. -/
theorem callFunction_below (functions : List Function) (bare : Bare) (n m : Nat) (f : Function)
    (vs : List Nat) :
    (callFunction functions bare n f vs).Below (callFunction functions bare (n + m) f vs) := by
  induction n generalizing f vs with
  | zero => exact .inl rfl
  | succ n ih =>
    rw [Nat.add_right_comm]
    refine ((runPiece_below ih).2 f.body _).bind fun flow => ?_
    cases flow <;> exact .refl _

end RegisterLang.Reference
