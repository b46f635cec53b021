import RegisterLang.Tree
import RegisterLang.Code.RegType

/-!
# The layout of functions

Before any instruction is written every function gets an index, registers for its variables, room for
temporaries and for the arguments of its widest call, and a range of labels. The function `main` comes
first and the others follow in the order of their definition.
-/
namespace RegisterLang.Lowering

/-- How a register holds a value of a type, for the types that fit in one. -/
def regType? : Option Ty → Option RegType
  | some .s8 => some .s8
  | some .u8 => some .u8
  | some .s16 => some .s16
  | some .u16 | some .char => some .u16
  | some .s32 => some .s32
  | some .u32 => some .u32
  | some .s64 => some .s64
  | some .u64 => some .u64
  | some .float => some .float
  | some .double => some .double
  | some .string => some .pointer
  | some .void | some (.record _) | none => none

/-- What is said of a type that fits in no register. -/
def unfit (pos : Pos) (t : Option Ty) : Diagnostic :=
  ⟨"type does not fit a register", pos, "primitive type", Ty.nameOf t⟩

structure Variable where
  reg : UInt16 := 0
  type : RegType := .s8
  ty : Option Ty := none

abbrev Variables := List (String × Variable)

/-- The first function of a name. -/
def function? (functions : List Function) (name : String) : Option Function :=
  functions.find? fun f => f.name = name

/-- A number without a type of its own. -/
def isUntyped (x : Expr) : Bool := x.isNumber && x.type.isNone

/-- The type that an expression is annotated with. Without one it is inferred: a number takes the
type that is expected, an operator that of an operand, and the rest that of what they name. -/
def typeOf (functions : List Function) (vars : Variables) (want : Option Ty) : Expr → Option Ty
  | .missing => none
  | .ident _ t name => t.or ((vars.lookup name).bind Variable.ty)
  | .int _ t value _ =>
    t.or <| (want.filter Ty.isNumeric).or <| some (if value > 0x7FFFFFFF then .s64 else .s32)
  | .float _ t _ => t.or (some (if want = some .double then .double else .float))
  | .double _ t _ => t.or (some (if want = some .float then .float else .double))
  | .char _ t _ => t.or (some .char)
  | .string _ t _ => t.or (some .string)
  | .op _ t op _ left right =>
    let want := if op.isComparison then none else want
    t.or <|
      if left.isMissing || isUntyped left && !isUntyped right then typeOf functions vars want right
      else typeOf functions vars want left
  | .call _ t name _ _ => t.or ((function? functions name).bind Function.ret)

/-- Whether a call is made on the way to the value; the arguments of a call do not count. -/
def makesCall : Expr → Bool
  | .call .. => true
  | .op _ _ _ _ left right => makesCall left || makesCall right
  | _ => false

def isIdent : Expr → Bool
  | .ident .. => true
  | _ => false

mutual

/-- How many temporaries an expression takes beside the register of its value. -/
def temporaries : Expr → Nat
  | .op _ _ _ binary left right =>
    let r := if isIdent right then 0 else 1 + temporaries right
    let l := if isIdent left then 0 else 1 + temporaries left
    if binary then max l (1 + r) else 1 + r
  | .call _ _ _ _ args => argTemporaries (args.any makesCall) 0 0 args
  | _ => 0
termination_by structural x => x

/-- The temporaries of arguments from the one at `index` on, at least `most`. Arguments that have to
wait for a call are temporaries themselves. -/
def argTemporaries (waiting : Bool) (index most : Nat) : List Expr → Nat
  | [] => most
  | a :: rest =>
    let n := temporaries a
    argTemporaries waiting (index + 1) (max most (if waiting then index + 1 + n else n)) rest
termination_by structural x => x

end

mutual

/-- The number of arguments of the widest call. -/
def widestCall : Expr → Nat
  | .op _ _ _ _ left right => max (widestCall left) (widestCall right)
  | .call _ _ _ _ args => widestArg args.length args
  | _ => 0
termination_by structural x => x

def widestArg (most : Nat) : List Expr → Nat
  | [] => most
  | a :: rest => widestArg (max most (widestCall a)) rest
termination_by structural x => x

end

/-- The registers and labels of a function. -/
structure Layout where
  function : Function
  index : Nat := 0
  labelBase : Nat := 0
  vars : Variables := []
  /-- the number of variables -/
  locals : Nat := 0
  temps : Nat := 0
  /-- registers for the arguments of a call -/
  staging : Nat := 0
  labels : Nat := 0

namespace Layout

def args (l : Layout) : Nat := l.function.params.length

/-- The size of the window. -/
def regs (l : Layout) : Nat := max 1 (l.locals + l.temps + l.staging)

/-- The first register after the variables. -/
def free (l : Layout) : UInt16 := l.locals.toUInt16

def var? (l : Layout) (name : String) : Option Variable := l.vars.lookup name

/-- Room for the value of an expression. -/
def reserve (l : Layout) (x : Expr) : Layout :=
  { l with temps := max l.temps (temporaries x), staging := max l.staging (widestCall x) }

/-- The number of labels of several functions. -/
def labelCount : List Layout → Nat
  | [] => 0
  | l :: rest => l.labels + labelCount rest

end Layout

/-- The largest window that an instruction can name. -/
def maxRegs : Nat := 65535

/-- How many labels a branch takes. -/
def branchLabels : Nat := 3

abbrev Planning (α : Type) := StateM (Layout × Array Diagnostic) α

def Planning.report (d : Diagnostic) : Planning Unit :=
  modify fun (l, ds) => (l, ds.push d)

def Planning.update (f : Layout → Layout) : Planning Unit :=
  modify fun (l, ds) => (f l, ds)

/-- Gives a variable the next register, unless its name has one. -/
def declare (functions : List Function) (v : Var) : Planning Unit := do
  let (l, _) ← get
  if (l.var? v.name).isSome then
    Planning.report
      { message := "variable " ++ Text.quote v.name ++ " is already defined", pos := v.pos }
  else
    let ty := if v.type.isNone && !v.init.isMissing then typeOf functions l.vars none v.init
      else v.type
    let type := regType? ty
    if type.isNone then Planning.report (unfit v.pos ty)
    let var : Variable := ⟨l.locals.toUInt16, type.getD .s32, ty⟩
    Planning.update fun l => { l with vars := l.vars ++ [(v.name, var)], locals := l.locals + 1 }

mutual

def planStmt (functions : List Function) : Stmt → Planning Unit
  | .var v => do
    declare functions v
    Planning.update (·.reserve v.init)
  | .assign _ _ _ x => Planning.update (·.reserve x)
  | .ret _ x => Planning.update (·.reserve x)
  | .expr _ x => Planning.update (·.reserve x)
  | .cond _ test body none => do
    Planning.update fun l => { l.reserve test with labels := l.labels + branchLabels }
    planBlock functions body
  | .cond _ test body (some more) => do
    Planning.update fun l => { l.reserve test with labels := l.labels + branchLabels }
    planBlock functions body
    planBlock functions more
  | .other .. => return
termination_by structural x => x

def planBlock (functions : List Function) : List Stmt → Planning Unit
  | [] => return
  | s :: rest => do
    planStmt functions s
    planBlock functions rest
termination_by structural x => x

end

/-- The layout of one function. -/
def planFunction (functions : List Function) : Planning Unit := do
  let f := (← get).1.function
  f.params.forM (declare functions)
  planBlock functions f.body
  let (l, _) ← get
  if maxRegs < l.regs then
    Planning.report
      { message := "function " ++ Text.quote f.name ++ " needs " ++ toString l.regs ++
          " registers, max " ++ toString maxRegs
        pos := f.pos }

/-- The functions without those whose name was defined before, and a report of these. -/
def distinct (seen : List String) (ds : Array Diagnostic) :
    List Function → List Function × Array Diagnostic
  | [] => ([], ds)
  | f :: rest =>
    if seen.contains f.name then
      distinct seen
        (ds.push { message := "function " ++ Text.quote f.name ++ " is already defined", pos := f.pos })
        rest
    else
      let (kept, ds) := distinct (f.name :: seen) ds rest
      (f :: kept, ds)

def mainName : String := "main"

/-- The functions of a file in the order of their indexes. -/
def order (file : File) (ds : Array Diagnostic) : List Function × Array Diagnostic :=
  let (functions, ds) := distinct [] ds file.functions
  let (main, others) := functions.partition fun f => f.name = mainName
  let ds := if main.isEmpty
    then ds.push { message := "function " ++ Text.quote mainName ++ " is not defined" } else ds
  (main ++ others, ds)

/-- The layouts of functions, of which the first has the given index and label, after those in
`done`. -/
def planAll (functions : List Function) (index label : Nat) (done : Array Layout)
    (ds : Array Diagnostic) : List Function → List Layout × Array Diagnostic
  | [] => (done.toList, ds)
  | f :: rest =>
    let start : Layout := { function := f, index, labelBase := label }
    let ((), l, ds) := (planFunction functions).run (start, ds)
    planAll functions (index + 1) (label + l.labels) (done.push l) ds rest

/-- The layouts of the functions of a file by index, and what was reported after `ds`. -/
def plan (file : File) (ds : Array Diagnostic) : List Layout × Array Diagnostic :=
  let (functions, ds) := order file ds
  planAll functions 0 0 #[] ds functions

end RegisterLang.Lowering
