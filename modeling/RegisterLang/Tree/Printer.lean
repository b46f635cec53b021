import RegisterLang.Tree
import RegisterLang.Number.FloatText

/-!
# Printing syntax trees

A tree is printed as source text with one tab for each level of nesting and with the fewest
parentheses that keep its shape. Blocks nest up to fifteen levels deep. Nodes without a written form
are refused, and the error says where they stand.
-/
namespace RegisterLang.Printer
open Text Number

/-- The construct in which an error was met. -/
inductive Context where
  | func (name : String)
  | body
  | ret
  | var (name : String)
  | assign (name : String)
  | expr
  | cond
  | thenBlock
  | elseBlock
  | arg (index : Nat)
  | left
  | right
  deriving DecidableEq, Repr

def Context.text : Context → String
  | func name => "func " ++ name
  | body => "body"
  | ret => "return"
  | var name => "var " ++ name
  | assign name => "assign " ++ name
  | expr => "expr"
  | cond => "cond"
  | thenBlock => "then block"
  | elseBlock => "else block"
  | arg i => "arg " ++ toString i
  | left => "left"
  | right => "right"

/-- The role in which a node cannot be printed. -/
inductive Role where
  | node
  | stmt
  | expr
  deriving DecidableEq, Repr

inductive PrintError where
  | unsupported (context : List Context) (role : Role) (kind : NodeKind)
  /-- blocks nest too deep to be indented -/
  | tooDeep (depth : Nat)
  deriving DecidableEq, Repr

def PrintError.message : PrintError → String
  | unsupported context role kind =>
    let what := match role with
      | .node => "unsupported type: "
      | .stmt => "unsupported stmt: "
      | .expr => "unsupported expr: "
    ": ".intercalate (context.map Context.text ++ [what ++ kind.name])
  | tooDeep depth =>
    "runtime error: slice bounds out of range [:" ++ toString depth ++ "] with length 15"

abbrev Result := Except PrintError String

def Result.inside (c : Context) : Result → Result
  | .error (.unsupported context role kind) => .error (.unsupported (c :: context) role kind)
  | r => r

/-- The deepest level that is printed. -/
def maxDepth : Nat := 15

/-- The tabs at a level of nesting. -/
def indent (depth : Nat) : Result :=
  if maxDepth < depth then .error (.tooDeep depth)
  else .ok (String.ofList (List.replicate depth '\t'))

/-- How tightly a binary operator binds. -/
def precedence : Op → Nat
  | .mul | .div | .mod => 20
  | .add | .sub => 10
  | _ => 5

/-- How tightly a sign binds. -/
def signPrecedence : Nat := 30

def showsDouble (c : Char) : Bool := c = '.' || c = 'e' || c = 'I' || c = 'N'

/-- A double always shows that it is one. -/
def doubleText (bits : UInt64) : String :=
  let s := Format.double.text bits.toNat
  if s.toList.any showsDouble then s else s ++ ".0"

mutual

/-- An expression, in parentheses if it binds less tightly than `prec`. -/
def printExpr (prec : Nat) : Expr → Result
  | .missing => .error (.unsupported [] .expr .missing)
  | .ident _ _ name => .ok name
  | .int _ _ value negative => .ok ((if negative then "-" else "") ++ toString value)
  | .float _ _ bits => .ok (Format.single.text bits.toNat ++ "f")
  | .double _ _ bits => .ok (doubleText bits)
  | .char _ _ value => .ok (quoteChar value.toInt)
  | .string _ _ value => .ok (quoteBytes value)
  | .call _ _ name _ args => printArgs (name ++ "(") 0 args
  | .op _ _ op false _ right => do
    let r ← printExpr signPrecedence right
    return op.symbol ++ r
  | .op _ _ op true left right => do
    let p := precedence op
    let l ← Result.inside .left (printExpr p left)
    let r ← Result.inside .right (printExpr (p + 1) right)
    let s := l ++ " " ++ op.symbol ++ " " ++ r
    return if p < prec then "(" ++ s ++ ")" else s
termination_by structural x => x

/-- The arguments of a call from number `index` on after what is in `done`, and its end. -/
def printArgs (done : String) (index : Nat) : List Expr → Result
  | [] => .ok (done ++ ")")
  | a :: rest => do
    let s ← Result.inside (.arg index) (printExpr 0 a)
    printArgs (done ++ (if index = 0 then "" else ", ") ++ s) (index + 1) rest
termination_by structural x => x

end

/-- A declaration: its type, if it has one, and its initial value. -/
def printVar (depth : Nat) (v : Var) : Result := do
  let tabs ← indent depth
  let head := match v.type with
    | none => tabs ++ v.name ++ " :="
    | some t => tabs ++ v.name ++ ": " ++ t.name ++ (if v.init.isMissing then "" else " =")
  if v.init.isMissing then return head ++ ";\n"
  else
    let x ← Result.inside (.var v.name) (printExpr 0 v.init)
    return head ++ " " ++ x ++ ";\n"

mutual

/-- A statement on lines of its own. An `if` that goes on in the line of an `else` has neither tabs
before nor a newline after it. -/
def printStmt (goesOn : Bool) (depth : Nat) : Stmt → Result
  | .ret _ x => do
    let tabs ← indent depth
    if x.isMissing then return tabs ++ "return;\n"
    else
      let x ← Result.inside .ret (printExpr 0 x)
      return tabs ++ "return " ++ x ++ ";\n"
  | .var v => printVar depth v
  | .assign _ name _ x => do
    let tabs ← indent depth
    let x ← Result.inside (.assign name) (printExpr 0 x)
    return tabs ++ name ++ " = " ++ x ++ ";\n"
  | .expr _ x => do
    let tabs ← indent depth
    let x ← Result.inside .expr (printExpr 0 x)
    return tabs ++ x ++ ";\n"
  | .cond _ test body more => do
    let before ← if goesOn then pure "" else indent depth
    let after := if goesOn then "" else "\n"
    let test ← Result.inside .cond (printExpr 0 test)
    let body ← Result.inside .thenBlock (printBlock (depth + 1) body)
    let tabs ← indent depth
    let head := before ++ "if " ++ test ++ " \x7b\n" ++ body ++ tabs ++ "\x7d"
    match more with
    | none | some [] => return head ++ after
    | some [.cond pos test body more] => do
      let s ← printStmt true depth (.cond pos test body more)
      return head ++ " else " ++ s ++ after
    | some more => do
      let more ← Result.inside .elseBlock (printBlock (depth + 1) more)
      return head ++ " else \x7b\n" ++ more ++ tabs ++ "\x7d" ++ after
  | .other kind _ => .error (.unsupported [] .stmt kind)
termination_by structural s => s

def printBlock (depth : Nat) : List Stmt → Result
  | [] => .ok ""
  | s :: rest => do
    let s ← printStmt false depth s
    let rest ← printBlock depth rest
    return s ++ rest
termination_by structural s => s

end

def printTypedef (t : Typedef) : String :=
  "struct " ++ t.record.name ++ " \x7b\n" ++
    String.join (t.record.fields.map fun f => "\t" ++ f.1 ++ ": " ++ f.2.name ++ ";\n") ++ "\x7d\n"

def printFunction (f : Function) : Result := do
  let params := ", ".intercalate (f.params.map fun p => p.name ++ ": " ++ Ty.nameOf p.type)
  let ret := match f.ret with
    | none | some .void => ""
    | some t => " -> " ++ t.name
  let body ← Result.inside .body (printBlock 1 f.body)
  return f.name ++ " :: (" ++ params ++ ")" ++ ret ++ " \x7b\n" ++ body ++ "\x7d\n"

/-- Records and functions with an empty line between them. -/
def printFile (f : File) : Result := do
  let functions ← f.functions.mapM fun g => Result.inside (.func g.name) (printFunction g)
  return "\n".intercalate (f.typedefs.map printTypedef ++ functions)

/-- The source text of a node. -/
def print : Node → Result
  | .file f => printFile f
  | .function f => printFunction f
  | .stmt s => printBlock 0 [s]
  | .missing => .error (.unsupported [] .node .missing)

end RegisterLang.Printer
