import RegisterLang.Tree

/-!
# Types of expressions

Checking annotates every expression with its type. A number takes the type that its context expects;
where nothing is expected of a pair of operands, a number on one side follows the other side. Names
have the type of their latest declaration, and calls that of the first function of the name. What
does not fit is reported, and checking goes on.
-/
namespace RegisterLang.Typing

/-- The variables in scope with their types, the latest declaration first, and what was reported. -/
structure State where
  vars : List (String × Option Ty) := []
  diagnostics : Array Diagnostic := #[]

abbrev Check (α : Type) := StateM State α

def report (d : Diagnostic) : Check Unit :=
  modify fun s => { s with diagnostics := s.diagnostics.push d }

def declare (name : String) (type : Option Ty) : Check Unit :=
  modify fun s => { s with vars := (name, type) :: s.vars }

/-- The type of a whole number: what the context expects of a number, or else the first of `s32`,
`s64` and `u64` that holds it. -/
def intType (value : UInt64) (negative : Bool) (want : Option Ty) : Ty :=
  match want.filter Ty.isNumeric with
  | some t => t
  | none =>
    if value ≤ (if negative then 0x80000000 else 0x7FFFFFFF) then .s32
    else if value ≤ (if negative then 0x8000000000000000 else 0x7FFFFFFFFFFFFFFF) then .s64
    else .u64

/-- The type of a float: the one of the two float types that the context expects. -/
def floatType (own : Ty) (want : Option Ty) : Ty :=
  if want = some .float then .float else if want = some .double then .double else own

/-- The type of a variable, which is reported if there is none. -/
def checkName (pos : Pos) (name : String) : Check (Option (Option Ty)) := do
  match (← get).vars.lookup name with
  | some t => return some t
  | none =>
    report ⟨"undeclared identifier", pos, "declared variable", name⟩
    return none

mutual

/-- The annotated expression and its type, where the context expects `want`. -/
def checkExpr (functions : List Function) (want : Option Ty) : Expr → Check (Expr × Option Ty)
  | .missing => return (.missing, none)
  | .ident pos t name => do
    match ← checkName pos name with
    | some t => return (.ident pos t name, t)
    | none => return (.ident pos t name, none)
  | .int pos _ value negative =>
    let t := some (intType value negative want)
    return (.int pos t value negative, t)
  | .float pos _ bits =>
    let t := some (floatType .float want)
    return (.float pos t bits, t)
  | .double pos _ bits =>
    let t := some (floatType .double want)
    return (.double pos t bits, t)
  | .char pos _ value => return (.char pos (some .char) value, some .char)
  | .string pos _ value => return (.string pos (some .string) value, some .string)
  | .op pos _ op false left right => do
    let (right, t) ← checkExpr functions want right
    return (.op pos t op false left right, t)
  | .op pos _ op true left right => do
    let operand := if op.isComparison then none else want
    let (left', lt, right', rt) ←
      if operand.isNone && left.isNumber && !right.isNumber then do
        let (right', rt) ← checkExpr functions none right
        let (left', lt) ← checkExpr functions rt left
        pure (left', lt, right', rt)
      else do
        let (left', lt) ← checkExpr functions operand left
        let (right', rt) ← checkExpr functions (operand.or lt) right
        pure (left', lt, right', rt)
    match lt, rt with
    | some l, some r =>
      if l ≠ r then report ⟨"mismatched operand types", pos, l.name, r.name⟩
    | _, _ => pure ()
    let t := lt.or rt
    return (.op pos t op true left' right', t)
  | .call pos t name nt args => do
    match functions.find? fun f => f.name = name with
    | none =>
      report ⟨"undeclared function", pos, "declared function", name⟩
      let args ← checkArgs functions #[] [] args
      return (.call pos t name nt args, none)
    | some f =>
      if args.length ≠ f.params.length then
        report
          { message := "function " ++ Text.quote f.name ++ " takes " ++ toString f.params.length ++
              " arguments, got " ++ toString args.length
            pos }
      let args ← checkArgs functions #[] (f.params.map Var.type) args
      return (.call pos f.ret name f.ret args, f.ret)
termination_by structural x => x

/-- The annotated arguments after those in `done`, where parameters of the types `want` are left. -/
def checkArgs (functions : List Function) (done : Array Expr) (want : List (Option Ty)) :
    List Expr → Check (List Expr)
  | [] => return done.toList
  | a :: rest => do
    let expected := want.headD none
    let (a', t) ← checkExpr functions expected a
    match expected, t with
    | some w, some t =>
      if t ≠ w then report ⟨"mismatched argument type", a.pos, w.name, t.name⟩
    | _, _ => pure ()
    checkArgs functions (done.push a') want.tail rest
termination_by structural x => x

end

mutual

/-- The annotated statement of a function that returns `ret`. -/
def checkStmt (functions : List Function) (ret : Option Ty) : Stmt → Check Stmt
  | .var v => do
    let (init, t) ← if v.init.isMissing then pure (v.init, v.type) else do
      let (init, t) ← checkExpr functions v.type v.init
      pure (init, v.type.or t)
    let t := t.or (some .s32)
    declare v.name t
    return .var { v with init, type := t, nameType := t }
  | .assign pos name nt x => do
    let t ← checkName pos name
    let (x, _) ← checkExpr functions (t.getD none) x
    return .assign pos name (t.getD nt) x
  | .ret pos x => do
    if x.isMissing then return .ret pos x
    if ret = some .void then
      report ⟨"unexpected return value", x.pos, "no value", "expression"⟩
    let (x, _) ← checkExpr functions ret x
    return .ret pos x
  | .expr pos x => do
    let (x, _) ← checkExpr functions none x
    return .expr pos x
  | .cond pos test body none => do
    let (test, _) ← checkExpr functions none test
    let body ← checkBlock functions ret body
    return .cond pos test body none
  | .cond pos test body (some more) => do
    let (test, _) ← checkExpr functions none test
    let body ← checkBlock functions ret body
    let more ← checkBlock functions ret more
    return .cond pos test body (some more)
  | .other kind pos => return .other kind pos
termination_by structural x => x

def checkBlock (functions : List Function) (ret : Option Ty) : List Stmt → Check (List Stmt)
  | [] => return []
  | s :: rest => do
    let s ← checkStmt functions ret s
    let rest ← checkBlock functions ret rest
    return s :: rest
termination_by structural x => x

end

/-- The annotated function; its parameters are in scope, a later one of a name before an earlier. -/
def checkFunction (functions : List Function) (f : Function) : Check Function := do
  modify fun s => { s with vars := (f.params.map fun p => (p.name, p.type)).reverse }
  let body ← checkBlock functions f.ret f.body
  return { f with body }

/-- The first function of a name is annotated with what it returns. -/
def annotateNames (seen : List String) : List Function → List Function
  | [] => []
  | f :: rest =>
    (if seen.contains f.name then f else { f with nameType := f.ret }) ::
      annotateNames (f.name :: seen) rest

/-- The annotated file, and what was reported after `ds`. -/
def check (f : File) (ds : Array Diagnostic) : File × Array Diagnostic :=
  let functions := annotateNames [] f.functions
  let (functions, s) := (functions.mapM (checkFunction functions)).run { diagnostics := ds }
  ({ f with functions }, s.diagnostics)

end RegisterLang.Typing
