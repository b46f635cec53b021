import RegisterLang.Diagnostic
import RegisterLang.Ty

/-!
# Syntax trees

Expressions carry their position and the type that checking gives them. The position of a name inside
a declaration, an assignment, a function or a call is that of the node itself. Trees need not come
from a source text: an expression may be missing, an operator may be one that nothing prints, and a
node of another kind may stand where a statement is expected.
-/
namespace RegisterLang
open Text

inductive Op where
  | none
  | add
  | sub
  | mul
  | div
  | mod
  | neg
  | lt
  | gt
  | le
  | ge
  | eq
  | ne
  | unknown (code : Int)
  deriving DecidableEq, Repr, Inhabited

namespace Op

def symbol : Op → String
  | add => "+"
  | sub | neg => "-"
  | mul => "*"
  | div => "/"
  | mod => "%"
  | lt => "<"
  | gt => ">"
  | le => "<="
  | ge => ">="
  | eq => "=="
  | ne => "!="
  | none | unknown _ => "?"

def isComparison : Op → Bool
  | lt | gt | le | ge | eq | ne => true
  | _ => false

def known : List Op :=
  [none, add, sub, mul, div, mod, neg, lt, gt, le, ge, eq, ne]

/-- The operator of a number; the known ones are counted from zero. -/
def ofCode (n : Int) : Op :=
  if n < 0 then unknown n else known.getD n.toNat (unknown n)

def code : Op → Int
  | unknown n => n
  | op => known.idxOf op

end Op

/-- An expression; `missing` stands where a tree has none. -/
inductive Expr where
  | missing
  | ident (pos : Pos) (type : Option Ty) (name : String)
  | int (pos : Pos) (type : Option Ty) (value : UInt64) (negative : Bool)
  | float (pos : Pos) (type : Option Ty) (bits : UInt32)
  | double (pos : Pos) (type : Option Ty) (bits : UInt64)
  | char (pos : Pos) (type : Option Ty) (value : Int32)
  | string (pos : Pos) (type : Option Ty) (value : Bytes)
  /-- a unary operator has no left operand -/
  | op (pos : Pos) (type : Option Ty) (op : Op) (binary : Bool) (left right : Expr)
  | call (pos : Pos) (type : Option Ty) (name : String) (nameType : Option Ty) (args : List Expr)
  deriving Repr, Inhabited

namespace Expr

def pos : Expr → Pos
  | missing => .nowhere
  | ident p .. | int p .. | float p .. | double p .. | char p .. | string p .. | op p .. | call p .. => p

/-- The type that the expression is annotated with. -/
def type : Expr → Option Ty
  | missing => .none
  | ident _ t .. | int _ t .. | float _ t .. | double _ t .. | char _ t .. | string _ t ..
  | op _ t .. | call _ t .. => t

def isMissing : Expr → Bool
  | missing => true
  | _ => false

/-- A literal whose type may follow its context. -/
def isNumber : Expr → Bool
  | int .. | float .. | double .. => true
  | _ => false

end Expr

/-- A variable with its declared type, if it has one, and its initial value. -/
structure Var where
  pos : Pos
  name : String
  nameType : Option Ty := none
  type : Option Ty := none
  init : Expr := .missing
  deriving Repr, Inhabited

/-- Nodes by the name they have in messages. -/
inductive NodeKind where
  | missing
  | file
  | typedef
  | function
  | var
  | assign
  | ret
  | expr
  | cond
  | ident
  | int
  | float
  | double
  | char
  | string
  | op
  | call
  deriving DecidableEq, Repr, Inhabited

def NodeKind.name : NodeKind → String
  | missing => "<nil>"
  | file => "*ast.File"
  | typedef => "*ast.Typedef"
  | function => "*ast.Fundef"
  | var => "*ast.VarDecl"
  | assign => "*ast.Assign"
  | ret => "*ast.Return"
  | expr => "*ast.ExprStmt"
  | cond => "*ast.If"
  | ident => "*ast.Ident"
  | int => "*ast.IntLiteral"
  | float => "*ast.FloatLiteral"
  | double => "*ast.DoubleLiteral"
  | char => "*ast.CharLiteral"
  | string => "*ast.StringLiteral"
  | op => "*ast.Operator"
  | call => "*ast.Funcall"

def Expr.kind : Expr → NodeKind
  | missing => .missing
  | ident .. => .ident
  | int .. => .int
  | float .. => .float
  | double .. => .double
  | char .. => .char
  | string .. => .string
  | op .. => .op
  | call .. => .call

inductive Stmt where
  | var (v : Var)
  | assign (pos : Pos) (name : String) (nameType : Option Ty) (expr : Expr)
  | ret (pos : Pos) (expr : Expr)
  | expr (pos : Pos) (expr : Expr)
  | cond (pos : Pos) (test : Expr) (thenBody : List Stmt) (elseBody : Option (List Stmt))
  /-- a node that is no statement -/
  | other (kind : NodeKind) (pos : Pos)
  deriving Repr, Inhabited

abbrev Block := List Stmt

/-- The statements of an `else`, none if it is absent. -/
def elseStmts (b : Option Block) : Block := b.getD []

structure Function where
  pos : Pos
  name : String
  nameType : Option Ty := none
  params : List Var := []
  ret : Option Ty := some .void
  body : Block := []
  deriving Repr, Inhabited

structure Typedef where
  pos : Pos
  record : Record
  deriving Repr

structure File where
  name : String
  typedefs : List Typedef := []
  functions : List Function := []
  deriving Repr, Inhabited

/-- Any node that can be printed. -/
inductive Node where
  | file (f : File)
  | function (f : Function)
  | stmt (s : Stmt)
  | missing
  deriving Repr

end RegisterLang
