import RegisterLang.Tree
import RegisterLang.Token
import RegisterLang.Source.LineTable
import RegisterLang.Number.FloatText

/-!
# Reading syntax trees

The parser goes over the tokens of a text by recursive descent, with precedence climbing for binary
operators. Every rule returns the tokens that are left together with the fact that there are fewer of
them, which is why it ends. A token that no rule accepts stops the parser; a type name that is not
defined or is defined twice is reported and parsing goes on.
-/
namespace RegisterLang.Parser
open Text Number Source

/-- The construct in which an error was met. -/
inductive Context where
  | typedef
  | func (name : String)
  | ret
  | condition
  | init (name : String)
  | assign (name : String)
  | rhs (op : Op)
  | arg (index : Nat)
  | intLiteral
  | floatLiteral
  | doubleLiteral
  deriving DecidableEq, Repr

def Context.text : Context → String
  | typedef => "typedef"
  | func name => "func " ++ name
  | ret => "return"
  | condition => "condition"
  | init name => "init " ++ name
  | assign name => "assign " ++ name
  | rhs op => op.symbol ++ " rhs"
  | arg i => "arg " ++ toString i
  | intLiteral => "int literal"
  | floatLiteral => "float literal"
  | doubleLiteral => "double literal"

inductive Cause where
  | unexpected (got : Token) (want : List Wanted) (offset : Nat)
  | whole (text : Bytes) (why : NumberError)
  | fractional (text : Bytes) (why : NumberError)
  deriving DecidableEq, Repr

/-- The alternatives of a list of wishes. -/
def wishes (want : List Wanted) : String :=
  " or ".intercalate (want.map Wanted.describe)

def numberFault (reader : String) (text : Bytes) (why : NumberError) : String :=
  "strconv." ++ reader ++ ": parsing " ++ quoteBytes text ++
    (match why with
      | .malformed => ": invalid syntax"
      | .outOfRange => ": value out of range")

def Cause.text : Cause → String
  | unexpected got want _ =>
    "unexpected token: " ++ got.describe ++ ", want: " ++ wishes want
  | whole text why => numberFault "ParseUint" text why
  | fractional text why => numberFault "ParseFloat" text why

/-- What stopped the parser, in which constructs, the outermost first. -/
structure ParseError where
  context : List Context
  cause : Cause
  deriving DecidableEq, Repr

def ParseError.message (e : ParseError) : String :=
  ": ".intercalate (e.context.map Context.text ++ [e.cause.text])

/-- The same error inside one more construct. -/
def ParseError.within (c : Context) (e : ParseError) : ParseError :=
  { e with context := c :: e.context }

/-- The tokens that are left, and the offset where the last one that was taken ends. -/
structure Cursor where
  stop : Nat
  rest : List Lexeme
  deriving Repr

/-- How many tokens are left. -/
abbrev Cursor.size (c : Cursor) : Nat := c.rest.length

/-- A cursor with fewer than `n` tokens left. -/
abbrev Cursor.Below (n : Nat) := { d : Cursor // d.size < n }

/-- A cursor with fewer tokens left. -/
abbrev Cursor.After (c : Cursor) := Cursor.Below c.size

/-- Taking a token leaves one fewer. -/
theorem Cursor.size_tail {c : Cursor} {l : Lexeme} {rest : List Lexeme} {stop : Nat}
    (h : c.rest = l :: rest) : Cursor.size ⟨stop, rest⟩ < c.size := by
  change rest.length < c.rest.length
  rw [h]
  exact Nat.lt_succ_self _

/-- The next token; after the last one the text is at its end. -/
def Cursor.peek (c : Cursor) : Lexeme :=
  c.rest.headD ⟨.eof, c.stop, c.stop⟩

abbrev Result (α : Type) := Except ParseError α

def Result.inside {α : Type} (c : Context) : Result α → Result α
  | .ok a => .ok a
  | .error e => .error (e.within c)

def unexpected {α : Type} (l : Lexeme) (want : List Wanted) : Result α :=
  .error ⟨[], .unexpected l.token want l.start⟩

/-- Takes one token that is exactly the symbol `p`. -/
def expect (p : Punct) (c : Cursor) : Result c.After :=
  match h : c.rest with
  | [] => unexpected c.peek [.punct p]
  | l :: rest =>
    if l.token = .punct p then .ok ⟨⟨l.stop, rest⟩, Cursor.size_tail h⟩
    else unexpected l [.punct p]

/-- Takes one identifier. -/
def expectIdent (c : Cursor) : Result (String × Lexeme × c.After) :=
  match h : c.rest with
  | [] => unexpected c.peek [.identifier]
  | l :: rest =>
    match l.token with
    | .ident name => .ok (name, l, ⟨⟨l.stop, rest⟩, Cursor.size_tail h⟩)
    | _ => unexpected l [.identifier]

/-- A number as a literal. A text that starts like a hexadecimal number is whole; otherwise a final
`f` or `d`, or a point or an exponent, makes it a float or a double. -/
def readNumber (pos : Pos) (text : Bytes) : Result Expr :=
  let whole : Result Expr :=
    match readUInt64 text with
    | .ok v => .ok (.int pos none v false)
    | .error e => .error ⟨[.intLiteral], .whole text e⟩
  let double (text : Bytes) : Result Expr :=
    match Format.double.read text with
    | .ok bits => .ok (.double pos none bits.toUInt64)
    | .error e => .error ⟨[.doubleLiteral], .fractional text e⟩
  let last := (text.getLast?.map lower).getD 0
  if (text.take 2).map lower = [48, 120] then whole
  else if last = 102 then
    match Format.single.read text.dropLast with
    | .ok bits => .ok (.float pos none bits.toUInt32)
    | .error e => .error ⟨[.floatLiteral], .fractional text.dropLast e⟩
  else if last = 100 then double text.dropLast
  else if text.any (fun b => b = 46 || lower b = 101) then double text
  else whole

/-- The binary operator of a symbol and how tightly it binds. -/
def binaryOp? : Punct → Option (Op × Nat)
  | .lt => some (.lt, 5)
  | .gt => some (.gt, 5)
  | .le => some (.le, 5)
  | .ge => some (.ge, 5)
  | .eq => some (.eq, 5)
  | .ne => some (.ne, 5)
  | .plus => some (.add, 10)
  | .minus => some (.sub, 10)
  | .star => some (.mul, 20)
  | .slash => some (.div, 20)
  | .percent => some (.mod, 20)
  | _ => none

/-- The operator that a token is, if it binds more tightly than `prec`. -/
def tighterOp? (prec : Nat) : Token → Option (Op × Nat)
  | .punct p => (binaryOp? p).filter fun o => prec < o.2
  | _ => none

/-- The literal that a token is, if it is one. A character stands for its code point. -/
def literal? (pos : Pos) : Token → Option (Result Expr)
  | .number text => some (readNumber pos text)
  | .string value => some (.ok (.string pos none value))
  | .char value => some (.ok (.char pos none (Int32.ofNat value.toNat)))
  | _ => none

/-- A minus in front of an expression: a number takes it as its sign. -/
def negate (pos : Pos) : Expr → Expr
  | .int _ t v negative => .int pos t v (!negative)
  | .float _ t bits => .float pos t (bits ^^^ 0x80000000)
  | .double _ t bits => .double pos t (bits ^^^ 0x8000000000000000)
  | x => .op pos none .neg false .missing x

mutual

/-- An expression of operators that bind more tightly than `prec`. -/
def parseExpr (lines : LineTable) (prec : Nat) (c : Cursor) : Result (Expr × c.After) := do
  let (x, ⟨d, hd⟩) ← parseUnary lines c
  parseOperators lines prec x c.size d hd
termination_by 5 * c.size + 3

/-- The operators after the operand `x`. -/
def parseOperators (lines : LineTable) (prec : Nat) (x : Expr) (bound : Nat) (c : Cursor)
    (hc : c.size < bound) : Result (Expr × Cursor.Below bound) :=
  match h : c.rest with
  | [] => .ok (x, ⟨c, hc⟩)
  | l :: rest =>
    match tighterOp? prec l.token with
    | none => .ok (x, ⟨c, hc⟩)
    | some (op, oprec) => do
      have hl : Cursor.size ⟨l.stop, rest⟩ < c.size := Cursor.size_tail h
      let (r, ⟨d, hd⟩) ← Result.inside (.rhs op) (parseExpr lines oprec ⟨l.stop, rest⟩)
      have hd : d.size < c.size := Nat.lt_trans hd hl
      parseOperators lines prec (.op (lines.locate l.start) none op true x r) bound d
        (Nat.lt_trans hd hc)
termination_by 5 * c.size

/-- An operand with the minuses in front of it. -/
def parseUnary (lines : LineTable) (c : Cursor) : Result (Expr × c.After) :=
  match h : c.rest with
  | [] => parsePrimary lines c
  | l :: rest =>
    if l.token = .punct .minus then do
      have hl : Cursor.size ⟨l.stop, rest⟩ < c.size := Cursor.size_tail h
      let (x, ⟨d, hd⟩) ← parseUnary lines ⟨l.stop, rest⟩
      return (negate (lines.locate l.start) x, ⟨d, Nat.lt_trans hd hl⟩)
    else parsePrimary lines c
termination_by 5 * c.size + 2

/-- A literal, a variable, a call or an expression in parentheses. -/
def parsePrimary (lines : LineTable) (c : Cursor) : Result (Expr × c.After) :=
  match h : c.rest with
  | [] => unexpected c.peek [.number, .identifier, .punct .lparen]
  | l :: rest =>
    have hl : Cursor.size ⟨l.stop, rest⟩ < c.size := Cursor.size_tail h
    let pos := lines.locate l.start
    match literal? pos l.token with
    | some literal => do
      let x ← literal
      return (x, ⟨⟨l.stop, rest⟩, hl⟩)
    | none =>
      match l.token with
      | .ident name =>
        match h' : rest with
        | [] => .ok (.ident pos none name, ⟨⟨l.stop, rest⟩, h' ▸ hl⟩)
        | l' :: rest' =>
          if l'.token = .punct .lparen then do
            have hl' : Cursor.size ⟨l'.stop, rest'⟩ < c.size := Nat.lt_of_succ_lt hl
            let (args, d) ← parseArgs lines #[] c.size ⟨l'.stop, rest'⟩ hl'
            return (.call pos none name none args.toList, d)
          else .ok (.ident pos none name, ⟨⟨l.stop, rest⟩, h' ▸ hl⟩)
      | .punct .lparen => do
        let (x, ⟨d, hd⟩) ← parseExpr lines 0 ⟨l.stop, rest⟩
        let ⟨d', hd'⟩ ← expect .rparen d
        return (x, ⟨d', Nat.lt_trans hd' (Nat.lt_trans hd hl)⟩)
      | _ => unexpected l [.number, .identifier, .punct .lparen]
termination_by 5 * c.size + 1

/-- The arguments of a call after those in `args`, up to and with the closing parenthesis. -/
def parseArgs (lines : LineTable) (args : Array Expr) (bound : Nat) (c : Cursor)
    (hc : c.size < bound) : Result (Array Expr × Cursor.Below bound) :=
  match h : c.rest with
  | [] => unexpected c.peek [.punct .comma, .punct .rparen]
  | l :: rest =>
    have hl : Cursor.size ⟨l.stop, rest⟩ < c.size := Cursor.size_tail h
    if l.token = .punct .rparen then .ok (args, ⟨⟨l.stop, rest⟩, Nat.lt_trans hl hc⟩)
    else if args.isEmpty then do
      let (x, ⟨d, hd⟩) ← Result.inside (.arg 0) (parseExpr lines 0 c)
      parseArgs lines #[x] bound d (Nat.lt_trans hd hc)
    else if l.token = .punct .comma then do
      let (x, ⟨d, hd⟩) ← Result.inside (.arg args.size) (parseExpr lines 0 ⟨l.stop, rest⟩)
      have hd : d.size < c.size := Nat.lt_trans hd hl
      parseArgs lines (args.push x) bound d (Nat.lt_trans hd hc)
    else unexpected l [.punct .comma, .punct .rparen]
termination_by 5 * c.size + 4

end

/-- Statements also report type names that are not defined, and go on. -/
abbrev Reporting (α : Type) := ExceptT ParseError (StateM (Array Diagnostic)) α

def report (d : Diagnostic) : Reporting Unit :=
  modify fun ds => ds.push d

/-- A rule that reports nothing. -/
def quietly {α : Type} (r : Result α) : Reporting α :=
  ExceptT.mk (pure r)

/-- What the rules for statements look up. -/
structure Scope where
  lines : LineTable
  types : Registry

/-- The type of a name, `none` if it is not defined. -/
def parseType (s : Scope) (c : Cursor) : Reporting (Option Ty × c.After) := do
  let (name, l, d) ← quietly (expectIdent c)
  match s.types.get? name with
  | some t => return (some t, d)
  | none =>
    report ⟨"unknown type", s.lines.locate l.start, "type name", name⟩
    return (none, d)

/-- A `return` at `pos` after its keyword. -/
def parseReturn (s : Scope) (pos : Pos) (c : Cursor) : Result (Stmt × c.After) :=
  match h : c.rest with
  | [] => unexpected c.peek [.number, .identifier, .punct .lparen]
  | l :: rest =>
    if l.token = .punct .semicolon then
      .ok (.ret pos .missing, ⟨⟨l.stop, rest⟩, Cursor.size_tail h⟩)
    else do
      let (x, ⟨d, hd⟩) ← Result.inside .ret (parseExpr s.lines 0 c)
      let ⟨e, he⟩ ← expect .semicolon d
      return (.ret pos x, ⟨e, Nat.lt_trans he hd⟩)

/-- The initial value of a declaration with a type. -/
def parseInit (s : Scope) (name : String) (bound : Nat) (c : Cursor) (hc : c.size < bound) :
    Result (Expr × Cursor.Below bound) :=
  match h : c.rest with
  | [] => .ok (.missing, ⟨c, hc⟩)
  | l :: rest =>
    if l.token = .punct .assign then do
      have hl : Cursor.size ⟨l.stop, rest⟩ < c.size := Cursor.size_tail h
      let (x, ⟨d, hd⟩) ← Result.inside (.init name) (parseExpr s.lines 0 ⟨l.stop, rest⟩)
      return (x, ⟨d, Nat.lt_trans hd (Nat.lt_trans hl hc)⟩)
    else .ok (.missing, ⟨c, hc⟩)

/-- A statement that begins with a name, without its semicolon. -/
def parseNamed (s : Scope) (pos : Pos) (name : String) (c : Cursor) : Reporting (Stmt × c.After) :=
  match h : c.rest with
  | [] => quietly (unexpected c.peek
      [.punct .colon, .punct .declare, .punct .assign, .punct .lparen])
  | l :: rest =>
    have hl : Cursor.size ⟨l.stop, rest⟩ < c.size := Cursor.size_tail h
    match l.token with
    | .punct .colon => do
      let (type, ⟨d, hd⟩) ← parseType s ⟨l.stop, rest⟩
      let (init, e) ← quietly (parseInit s name c.size d (Nat.lt_trans hd hl))
      return (.var { pos, name, type, init }, e)
    | .punct .declare => do
      let (init, ⟨d, hd⟩) ← quietly
        (Result.inside (.init name) (parseExpr s.lines 0 ⟨l.stop, rest⟩))
      return (.var { pos, name, init }, ⟨d, Nat.lt_trans hd hl⟩)
    | .punct .assign => do
      let (x, ⟨d, hd⟩) ← quietly
        (Result.inside (.assign name) (parseExpr s.lines 0 ⟨l.stop, rest⟩))
      return (.assign pos name none x, ⟨d, Nat.lt_trans hd hl⟩)
    | .punct .lparen => do
      let (args, d) ← quietly (parseArgs s.lines #[] c.size ⟨l.stop, rest⟩ hl)
      return (.expr pos (.call pos none name none args.toList), d)
    | _ => quietly (unexpected l
        [.punct .colon, .punct .declare, .punct .assign, .punct .lparen])

/-- A condition has to be a comparison. -/
def isCondition : Expr → Bool
  | .op _ _ op .. => op.isComparison
  | _ => false

/-- What is missing at the end of an expression that is no comparison. -/
def notCondition {α : Type} (offset : Nat) : Result α :=
  .error ⟨[], .unexpected (.ident "condition")
    [.punct .lt, .punct .gt, .punct .le, .punct .ge, .punct .eq, .punct .ne] offset⟩

mutual

/-- Statements in braces. -/
def parseBlock (s : Scope) (c : Cursor) : Reporting (Block × c.After) := do
  let ⟨d, hd⟩ ← quietly (expect .lbrace c)
  let (body, e) ← parseStmts s #[] c.size d hd
  return (body.toList, e)
termination_by 3 * c.size

/-- The statements after those in `body`, up to and with the closing brace. -/
def parseStmts (s : Scope) (body : Array Stmt) (bound : Nat) (c : Cursor) (hc : c.size < bound) :
    Reporting (Array Stmt × Cursor.Below bound) :=
  match h : c.rest with
  | [] => quietly (unexpected c.peek [.punct .rbrace])
  | l :: rest =>
    have hl : Cursor.size ⟨l.stop, rest⟩ < c.size := Cursor.size_tail h
    if l.token = .punct .rbrace then pure (body, ⟨⟨l.stop, rest⟩, Nat.lt_trans hl hc⟩)
    else if l.token = .punct .semicolon then
      parseStmts s body bound ⟨l.stop, rest⟩ (Nat.lt_trans hl hc)
    else if l.token = .eof then quietly (unexpected l [.punct .rbrace])
    else do
      let (x, ⟨d, hd⟩) ← parseStmt s c
      parseStmts s (body.push x) bound d (Nat.lt_trans hd hc)
termination_by 3 * c.size + 2

def parseStmt (s : Scope) (c : Cursor) : Reporting (Stmt × c.After) :=
  match h : c.rest with
  | [] => quietly (unexpected c.peek [.keyword .ret, .keyword .cond, .identifier])
  | l :: rest =>
    have hl : Cursor.size ⟨l.stop, rest⟩ < c.size := Cursor.size_tail h
    match l.token with
    | .keyword .ret => do
      let (x, ⟨d, hd⟩) ← quietly (parseReturn s (s.lines.locate l.start) ⟨l.stop, rest⟩)
      return (x, ⟨d, Nat.lt_trans hd hl⟩)
    | .keyword .cond => parseCond s (s.lines.locate l.start) c.size ⟨l.stop, rest⟩ hl
    | .ident name => do
      let (x, ⟨d, hd⟩) ← parseNamed s (s.lines.locate l.start) name ⟨l.stop, rest⟩
      let ⟨e, he⟩ ← quietly (expect .semicolon d)
      return (x, ⟨e, Nat.lt_trans he (Nat.lt_trans hd hl)⟩)
    | _ => quietly (unexpected l [.keyword .ret, .keyword .cond, .identifier])
termination_by 3 * c.size + 1

/-- An `if` at `pos` after its keyword. -/
def parseCond (s : Scope) (pos : Pos) (bound : Nat) (c : Cursor) (hc : c.size < bound) :
    Reporting (Stmt × Cursor.Below bound) := do
  let (test, ⟨d, hd⟩) ← quietly (Result.inside .condition (parseExpr s.lines 0 c))
  if !isCondition test then
    quietly (notCondition d.stop)
  else
    let (body, ⟨e, he⟩) ← parseBlock s d
    have he : e.size < c.size := Nat.lt_trans he hd
    let (more, g) ← parseElse s bound e (Nat.lt_trans he hc)
    return (.cond pos test body more, g)
termination_by 3 * c.size

/-- The `else` after a block, if there is one: a block, or another `if` as its only statement. -/
def parseElse (s : Scope) (bound : Nat) (c : Cursor) (hc : c.size < bound) :
    Reporting (Option Block × Cursor.Below bound) :=
  match h : c.rest with
  | l :: l' :: rest =>
    have hl : Cursor.size ⟨l.stop, l' :: rest⟩ < c.size := Cursor.size_tail h
    have hl' : Cursor.size ⟨l'.stop, rest⟩ < c.size := Nat.lt_of_succ_lt hl
    if l.token ≠ .keyword .otherwise then pure (none, ⟨c, hc⟩)
    else if l'.token = .keyword .cond then do
      let (more, g) ← parseCond s (s.lines.locate l'.start) bound ⟨l'.stop, rest⟩
        (Nat.lt_trans hl' hc)
      return (some [more], g)
    else do
      let (more, ⟨g, hg⟩) ← parseBlock s ⟨l.stop, l' :: rest⟩
      return (some more, ⟨g, Nat.lt_trans hg (Nat.lt_trans hl hc)⟩)
  | _ => pure (none, ⟨c, hc⟩)
termination_by 3 * c.size

end

/-- The parameters of a function after those in `params`, up to and with the closing parenthesis. -/
def parseParams (s : Scope) (params : Array Var) (bound : Nat) (c : Cursor) (hc : c.size < bound) :
    Reporting (Array Var × Cursor.Below bound) :=
  match h : c.rest with
  | [] => quietly (unexpected c.peek [.punct .comma, .punct .rparen])
  | l :: rest =>
    have hl : Cursor.size ⟨l.stop, rest⟩ < c.size := Cursor.size_tail h
    if l.token = .punct .rparen then pure (params, ⟨⟨l.stop, rest⟩, Nat.lt_trans hl hc⟩)
    else if !params.isEmpty && l.token ≠ .punct .comma then
      quietly (unexpected l [.punct .comma, .punct .rparen])
    else
      let start : { d : Cursor // d.size ≤ c.size } :=
        if params.isEmpty then ⟨c, Nat.le_refl _⟩ else ⟨⟨l.stop, rest⟩, Nat.le_of_lt hl⟩
      do
        let (name, at', ⟨d, hd⟩) ← quietly (expectIdent start.val)
        let ⟨e, he⟩ ← quietly (expect .colon d)
        let (type, ⟨g, hg⟩) ← parseType s e
        let pos := s.lines.locate at'.start
        have hg : g.size < c.size :=
          Nat.lt_of_lt_of_le (Nat.lt_trans hg (Nat.lt_trans he hd)) start.property
        parseParams s (params.push { pos, name, nameType := type, type }) bound g
          (Nat.lt_trans hg hc)
termination_by c.size

/-- The type after an arrow; without an arrow, or where the type is not defined, it is `void`. -/
def parseRet (s : Scope) (bound : Nat) (c : Cursor) (hc : c.size < bound) :
    Reporting (Ty × Cursor.Below bound) :=
  match h : c.rest with
  | [] => pure (.void, ⟨c, hc⟩)
  | l :: rest =>
    if l.token = .punct .arrow then do
      have hl : Cursor.size ⟨l.stop, rest⟩ < c.size := Cursor.size_tail h
      let (type, ⟨d, hd⟩) ← parseType s ⟨l.stop, rest⟩
      return (type.getD .void, ⟨d, Nat.lt_trans hd (Nat.lt_trans hl hc)⟩)
    else pure (.void, ⟨c, hc⟩)

/-- A function at `pos` after its name. -/
def parseFunction (s : Scope) (pos : Pos) (name : String) (c : Cursor) :
    Reporting (Function × c.After) := do
  let ⟨d, hd⟩ ← quietly (expect .define c)
  let ⟨e, he⟩ ← quietly (expect .lparen d)
  let (params, ⟨g, hg⟩) ← parseParams s #[] d.size e he
  let (ret, ⟨r, hr⟩) ← parseRet s c.size g (Nat.lt_trans hg hd)
  let (body, ⟨b, hb⟩) ← parseBlock s r
  return ({ pos, name, params := params.toList, ret := some ret, body },
    ⟨b, Nat.lt_trans hb hr⟩)

/-- The fields of a record after those in `fields`, up to and with the closing brace. A field whose
type is not defined is left out. -/
def parseFields (s : Scope) (fields : Array (String × Ty)) (bound : Nat) (c : Cursor)
    (hc : c.size < bound) : Reporting (Array (String × Ty) × Cursor.Below bound) :=
  match h : c.rest with
  | [] => quietly (unexpected c.peek [.identifier, .punct .rbrace])
  | l :: rest =>
    have hl : Cursor.size ⟨l.stop, rest⟩ < c.size := Cursor.size_tail h
    match l.token with
    | .punct .rbrace => pure (fields, ⟨⟨l.stop, rest⟩, Nat.lt_trans hl hc⟩)
    | .ident name => do
      let ⟨d, hd⟩ ← quietly (expect .colon ⟨l.stop, rest⟩)
      let (type, ⟨e, he⟩) ← parseType s d
      let ⟨g, hg⟩ ← quietly (expect .semicolon e)
      have hg : g.size < c.size := Nat.lt_trans hg (Nat.lt_trans he (Nat.lt_trans hd hl))
      let fields := match type with
        | some t => fields.push (name, t)
        | none => fields
      parseFields s fields bound g (Nat.lt_trans hg hc)
    | _ => quietly (unexpected l [.identifier, .punct .rbrace])
termination_by c.size

/-- The name and the fields of a record after its keyword. -/
def parseRecord (s : Scope) (c : Cursor) : Reporting (String × List (String × Ty) × c.After) := do
  let (name, _, ⟨d, hd⟩) ← quietly (expectIdent c)
  let ⟨e, he⟩ ← quietly (expect .lbrace d)
  let (fields, g) ← parseFields s #[] c.size e (Nat.lt_trans he hd)
  return (name, fields.toList, g)

/-- What was parsed: complete records and functions, the types they define, what was reported, and
the error that stopped the parser. -/
structure Parsed where
  file : File
  types : Registry
  diagnostics : Array Diagnostic
  error : Option ParseError

/-- The diagnostic of an error: where the token stands, or the message without a position. -/
def ParseError.diagnostic (lines : LineTable) (e : ParseError) : Diagnostic :=
  match e.cause with
  | .unexpected got want offset =>
    ⟨"unexpected symbol", lines.locate offset, wishes want, got.describe⟩
  | _ => { message := e.message }

def Parsed.stop (lines : LineTable) (p : Parsed) (e : ParseError) : Parsed :=
  { p with error := some e, diagnostics := p.diagnostics.push (e.diagnostic lines) }

/-- The record `struct` at `pos` is defined, unless its name is taken. -/
def Parsed.define (p : Parsed) (pos : Pos) (name : String) (fields : List (String × Ty)) : Parsed :=
  let record := p.types.makeRecord name fields
  match p.types.register? record with
  | some types =>
    { p with
      types
      file := { p.file with typedefs := p.file.typedefs ++ [⟨pos, record⟩] } }
  | none =>
    let d : Diagnostic := { message := "type " ++ quote name ++ " is already defined", pos }
    { p with diagnostics := p.diagnostics.push d }

/-- The records and functions from `c` on, after those in `p`. -/
def parseItems (lines : LineTable) (p : Parsed) (c : Cursor) : Parsed :=
  match h : c.rest with
  | [] => p
  | l :: rest =>
    have hl : Cursor.size ⟨l.stop, rest⟩ < c.size := Cursor.size_tail h
    let pos := lines.locate l.start
    match l.token with
    | .eof => p
    | .keyword .struct =>
      match (parseRecord ⟨lines, p.types⟩ ⟨l.stop, rest⟩).run.run p.diagnostics with
      | (.ok (name, fields, ⟨d, hd⟩), diagnostics) =>
        have : d.size < c.size := Nat.lt_trans hd hl
        parseItems lines ({ p with diagnostics }.define pos name fields) d
      | (.error e, diagnostics) => { p with diagnostics }.stop lines (e.within .typedef)
    | .ident name =>
      match (parseFunction ⟨lines, p.types⟩ pos name ⟨l.stop, rest⟩).run.run p.diagnostics with
      | (.ok (f, ⟨d, hd⟩), diagnostics) =>
        have : d.size < c.size := Nat.lt_trans hd hl
        parseItems lines
          { p with diagnostics, file := { p.file with functions := p.file.functions ++ [f] } } d
      | (.error e, diagnostics) => { p with diagnostics }.stop lines (e.within (.func name))
    | _ =>
      p.stop lines ⟨[], .unexpected l.token [.keyword .struct, .identifier] l.start⟩
termination_by c.size

/-- The tree of a source text. -/
def parse (name : String) (text : Bytes) : Parsed :=
  parseItems (LineTable.ofText text) ⟨{ name }, {}, #[], none⟩ ⟨0, Lexeme.scan text⟩

end RegisterLang.Parser
