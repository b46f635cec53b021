import RegisterLang.Number.Binary
import RegisterLang.Tree

/-!
# Trees

Induction over trees, and properties of them: that every condition compares two operands, that no
expression is missing where one is needed and every float is a number, and that every value has the
type of the variable or the function that it is for.
-/
namespace RegisterLang
open Number

/-- Induction over expressions and lists of them at once. -/
theorem Expr.forall_of {P : Expr → Prop} {Q : List Expr → Prop} (missing : P .missing)
    (ident : ∀ pos t name, P (.ident pos t name)) (int : ∀ pos t v n, P (.int pos t v n))
    (float : ∀ pos t b, P (.float pos t b)) (double : ∀ pos t b, P (.double pos t b))
    (char : ∀ pos t v, P (.char pos t v)) (string : ∀ pos t v, P (.string pos t v))
    (op : ∀ pos t o binary left right, P left → P right → P (.op pos t o binary left right))
    (call : ∀ pos t name nt args, Q args → P (.call pos t name nt args)) (nil : Q [])
    (cons : ∀ a rest, P a → Q rest → Q (a :: rest)) : (∀ x, P x) ∧ ∀ xs, Q xs :=
  have h : ∀ x, P x := @Expr.rec P Q missing ident int float double char string op call nil cons
  ⟨h, fun xs => List.rec nil (fun a rest ih => cons a rest (h a) ih) xs⟩

/-- Induction over statements and blocks at once; an `else` that is absent is an empty block. -/
theorem Stmt.forall_of {P : Stmt → Prop} {Q : List Stmt → Prop} (var : ∀ v, P (.var v))
    (assign : ∀ pos name nt x, P (.assign pos name nt x)) (ret : ∀ pos x, P (.ret pos x))
    (expr : ∀ pos x, P (.expr pos x))
    (cond : ∀ pos test body more, Q body → Q (elseStmts more) → P (.cond pos test body more))
    (other : ∀ kind pos, P (.other kind pos)) (nil : Q [])
    (cons : ∀ x rest, P x → Q rest → Q (x :: rest)) : (∀ x, P x) ∧ ∀ xs, Q xs :=
  have h : ∀ x, P x := @Stmt.rec P Q (fun more => Q (elseStmts more)) var assign ret expr cond other
    nil cons nil fun _ hbody => hbody
  ⟨h, fun xs => List.rec nil (fun x rest ih => cons x rest (h x) ih) xs⟩

inductive Piece where
  | one (x : Stmt)
  | all (xs : List Stmt)

def Expr.IsPair : Expr → Prop
  | op _ _ _ binary _ _ => binary = true
  | _ => False

inductive Paired : Piece → Prop
  | var {v : Var} : Paired (.one (.var v))
  | assign {pos : Pos} {name : String} {nt : Option Ty} {x : Expr} :
      Paired (.one (.assign pos name nt x))
  | ret {pos : Pos} {x : Expr} : Paired (.one (.ret pos x))
  | expr {pos : Pos} {x : Expr} : Paired (.one (.expr pos x))
  | cond {pos : Pos} {test : Expr} {body : Block} {more : Option Block} : test.IsPair →
      Paired (.all body) → Paired (.all (elseStmts more)) → Paired (.one (.cond pos test body more))
  | other {kind : NodeKind} {pos : Pos} : Paired (.one (.other kind pos))
  | nil : Paired (.all [])
  | cons {x : Stmt} {rest : Block} : Paired (.one x) → Paired (.all rest) →
      Paired (.all (x :: rest))

theorem Paired.concat {xs : List Stmt} {x : Stmt} (h : Paired (.all xs)) (hx : Paired (.one x)) :
    Paired (.all (xs ++ [x])) := by
  induction xs with
  | nil => exact .cons hx .nil
  | cons y ys ih =>
    cases h with
    | cons hy hys => exact .cons hy (ih hys)

mutual

/-- No operand and no argument is missing, except the one that an operator with one operand has not,
and floats are neither infinite nor no number. -/
def Expr.isWhole : Expr → Bool
  | .missing => false
  | .op _ _ _ binary left right =>
    (if binary then left.isWhole else left.isMissing) && right.isWhole
  | .call _ _ _ _ args => argsWhole args
  | .float _ _ bits => Format.single.biased bits.toNat ≠ Format.single.top
  | .double _ _ bits => Format.double.biased bits.toNat ≠ Format.double.top
  | .ident .. | .int .. | .char .. | .string .. => true
termination_by structural x => x

def argsWhole : List Expr → Bool
  | [] => true
  | a :: rest => a.isWhole && argsWhole rest
termination_by structural x => x

end

theorem argsWhole_iff {args : List Expr} :
    argsWhole args = true ↔ ∀ a ∈ args, a.isWhole = true := by
  induction args with
  | nil => simp [argsWhole]
  | cons a rest ih => simp [argsWhole, ih]

/-- Statements in which only the initial value of a variable and the value of a `return` may be
missing. -/
inductive Whole : Piece → Prop
  | var {v : Var} : v.init.isMissing = true ∨ v.init.isWhole = true → Whole (.one (.var v))
  | assign {pos : Pos} {name : String} {nt : Option Ty} {x : Expr} : x.isWhole = true →
      Whole (.one (.assign pos name nt x))
  | ret {pos : Pos} {x : Expr} : x.isMissing = true ∨ x.isWhole = true → Whole (.one (.ret pos x))
  | expr {pos : Pos} {x : Expr} : x.isWhole = true → Whole (.one (.expr pos x))
  | cond {pos : Pos} {test : Expr} {body : Block} {more : Option Block} : test.IsPair →
      test.isWhole = true → Whole (.all body) → Whole (.all (elseStmts more)) →
      Whole (.one (.cond pos test body more))
  | nil : Whole (.all [])
  | cons {x : Stmt} {rest : Block} : Whole (.one x) → Whole (.all rest) → Whole (.all (x :: rest))

theorem Whole.concat {xs : List Stmt} {x : Stmt} (h : Whole (.all xs)) (hx : Whole (.one x)) :
    Whole (.all (xs ++ [x])) := by
  induction xs with
  | nil => exact .cons hx .nil
  | cons y ys ih =>
    cases h with
    | cons hy hys => exact .cons hy (ih hys)

mutual

/-- Initial values, assigned values and returned values have the type of what they are for. -/
def Stmt.targetsTyped (ret : Option Ty) : Stmt → Bool
  | .var v => v.init.isMissing || v.init.type = v.type
  | .assign _ _ nt x => x.type = nt
  | .ret _ x => x.isMissing || x.type = ret
  | .cond _ _ body none => blockTargetsTyped ret body
  | .cond _ _ body (some more) => blockTargetsTyped ret body && blockTargetsTyped ret more
  | .expr .. | .other .. => true
termination_by structural x => x

def blockTargetsTyped (ret : Option Ty) : List Stmt → Bool
  | [] => true
  | x :: rest => x.targetsTyped ret && blockTargetsTyped ret rest
termination_by structural x => x

end

def Function.targetsTyped (f : Function) : Bool := blockTargetsTyped f.ret f.body

def File.targetsTyped (file : File) : Bool := file.functions.all Function.targetsTyped

end RegisterLang
