import RegisterLang.Proofs.Plain

/-!
# The grammar by tokens

Which tokens spell an expression, a statement and a file, said without the parser. Trees are compared by
what they are without their positions, where an empty `else` is none.
-/
namespace RegisterLang
open RegisterLang.Parser

mutual

/-- An expression without its positions. -/
def Expr.erase : Expr → Expr
  | .missing => .missing
  | .ident _ t name => .ident .nowhere t name
  | .int _ t value negative => .int .nowhere t value negative
  | .float _ t bits => .float .nowhere t bits
  | .double _ t bits => .double .nowhere t bits
  | .char _ t value => .char .nowhere t value
  | .string _ t value => .string .nowhere t value
  | .op _ t op binary left right => .op .nowhere t op binary left.erase right.erase
  | .call _ t name nt args => .call .nowhere t name nt (eraseArgs args)
termination_by structural x => x

def eraseArgs : List Expr → List Expr
  | [] => []
  | a :: rest => a.erase :: eraseArgs rest
termination_by structural x => x

end

mutual

/-- A statement without its positions, an empty `else` left out. -/
def Stmt.erase : Stmt → Stmt
  | .var v => .var { v with pos := .nowhere, init := v.init.erase }
  | .assign _ name nt x => .assign .nowhere name nt x.erase
  | .ret _ x => .ret .nowhere x.erase
  | .expr _ x => .expr .nowhere x.erase
  | .cond _ test body more => .cond .nowhere test.erase (eraseBlock body) (eraseElse more)
  | .other kind _ => .other kind .nowhere
termination_by structural x => x

def eraseBlock : List Stmt → List Stmt
  | [] => []
  | x :: rest => x.erase :: eraseBlock rest
termination_by structural x => x

def eraseElse : Option (List Stmt) → Option (List Stmt)
  | none => none
  | some [] => none
  | some (x :: rest) => some (x.erase :: eraseBlock rest)
termination_by structural x => x

end

def Var.erase (v : Var) : Var := { v with pos := .nowhere, init := v.init.erase }

def Function.erase (f : Function) : Function :=
  { f with pos := .nowhere, params := f.params.map Var.erase, body := eraseBlock f.body }

def Typedef.erase (t : Typedef) : Typedef := { t with pos := .nowhere }

def File.erase (f : File) : File :=
  { f with typedefs := f.typedefs.map Typedef.erase, functions := f.functions.map Function.erase }

theorem eraseArgs_eq (xs : List Expr) : eraseArgs xs = xs.map Expr.erase := by
  induction xs with
  | nil => rfl
  | cons x xs ih => rw [eraseArgs, ih, List.map_cons]

theorem eraseBlock_eq (xs : List Stmt) : eraseBlock xs = xs.map Stmt.erase := by
  induction xs with
  | nil => rfl
  | cons x xs ih => rw [eraseBlock, ih, List.map_cons]

theorem erase_negate (pos : Pos) (x : Expr) : (negate pos x).erase = negate .nowhere x.erase := by
  cases x <;> rfl

inductive Part where
  /-- a literal, a name, a call or an expression in parentheses, with minuses before it -/
  | operand (x : Expr)
  /-- operators that bind at least as tightly as `n` -/
  | level (n : Nat) (x : Expr)
  /-- arguments and the parenthesis after them, the first behind `sep` -/
  | args (sep : List Token) (xs : List Expr)

inductive Phrase : Part → List Token → Prop
  | literal {pos : Pos} {t : Token} {x : Expr} : literal? pos t = some (.ok x) →
      Phrase (.operand x) [t]
  | name {pos : Pos} {name : String} : Phrase (.operand (.ident pos none name)) [.ident name]
  | call {pos : Pos} {name : String} {xs : List Expr} {ts : List Token} : Phrase (.args [] xs) ts →
      Phrase (.operand (.call pos none name none xs)) (.ident name :: .punct .lparen :: ts)
  | group {x : Expr} {ts : List Token} : Phrase (.level 1 x) ts →
      Phrase (.operand x) (.punct .lparen :: ts ++ [.punct .rparen])
  | minus {pos : Pos} {x : Expr} {ts : List Token} : Phrase (.operand x) ts →
      Phrase (.operand (negate pos x)) (.punct .minus :: ts)
  | operand {n : Nat} {x : Expr} {ts : List Token} : Phrase (.operand x) ts → Phrase (.level n x) ts
  | pair {pos : Pos} {p : Punct} {op : Op} {k n : Nat} {x y : Expr} {ts us : List Token} :
      binaryOp? p = some (op, k) → n ≤ k → Phrase (.level k x) ts → Phrase (.level (k + 1) y) us →
      Phrase (.level n (.op pos none op true x y)) (ts ++ .punct p :: us)
  | nil {sep : List Token} : Phrase (.args sep []) [.punct .rparen]
  | cons {sep : List Token} {x : Expr} {xs : List Expr} {ts us : List Token} :
      Phrase (.level 1 x) ts → Phrase (.args [.punct .comma] xs) us →
      Phrase (.args sep (x :: xs)) (sep ++ ts ++ us)

def Token.BeginsExpr : Token → Prop
  | .ident _ | .number _ | .string _ | .char _ | .punct .lparen | .punct .minus => True
  | _ => False

def Part.Opened : Part → List Token → Prop
  | .args _ _, _ => True
  | _, ts => ∃ t us, ts = t :: us ∧ t.BeginsExpr

namespace Phrase
variable {x : Expr} {n : Nat} {ts : List Token}

theorem opened {p : Part} (h : Phrase p ts) : p.Opened ts := by
  induction h with
  | @literal pos t x h =>
    refine ⟨t, [], rfl, ?_⟩
    unfold literal? at h
    split at h
    · trivial
    · trivial
    · trivial
    · cases h
  | name => exact ⟨_, _, rfl, trivial⟩
  | call _ _ => exact ⟨_, _, rfl, trivial⟩
  | group _ _ => exact ⟨_, _, rfl, trivial⟩
  | minus _ _ => exact ⟨_, _, rfl, trivial⟩
  | operand _ ih => exact ih
  | pair _ _ _ _ ih _ =>
    obtain ⟨t, us, rfl, ht⟩ := ih
    exact ⟨t, _, rfl, ht⟩
  | nil => trivial
  | cons _ _ _ _ => trivial

theorem binaryOp?_bounds {p : Punct} {op : Op} {k : Nat} (h : binaryOp? p = some (op, k)) :
    5 ≤ k ∧ k ≤ 20 := by
  cases p <;> cases h <;> decide

/-- No operator binds as loosely as zero. -/
theorem level_one (h : Phrase (.level 0 x) ts) : Phrase (.level 1 x) ts := by
  cases h with
  | operand h => exact .operand h
  | pair hop _ hx hy =>
    have := (binaryOp?_bounds hop).1
    exact .pair hop (by omega) hx hy

/-- No operator binds as tightly as a sign. -/
theorem operand_of_level (h : Phrase (.level n x) ts) (hn : 20 < n) : Phrase (.operand x) ts := by
  cases h with
  | operand h => exact h
  | pair hop hk _ _ =>
    have := (binaryOp?_bounds hop).2
    omega

end Phrase

inductive Construct where
  | stmt (x : Stmt)
  /-- an `if` after its keyword -/
  | branch (x : Stmt)
  /-- statements and the brace after them -/
  | block (xs : Block)
  /-- what stands behind the block of an `if` -/
  | otherwise (more : Option Block)

inductive Clause (g : Registry) : Construct → List Token → Prop
  | declared {pos : Pos} {name : String} {t : Ty} : g.get? t.name = some t →
      Clause g (.stmt (.var { pos, name, type := some t }))
        [.ident name, .punct .colon, .ident t.name, .punct .semicolon]
  | typed {pos : Pos} {name : String} {t : Ty} {x : Expr} {ts : List Token} :
      g.get? t.name = some t → Phrase (.level 1 x) ts →
      Clause g (.stmt (.var { pos, name, type := some t, init := x }))
        (.ident name :: .punct .colon :: .ident t.name :: .punct .assign :: ts ++ [.punct .semicolon])
  | inferred {pos : Pos} {name : String} {x : Expr} {ts : List Token} : Phrase (.level 1 x) ts →
      Clause g (.stmt (.var { pos, name, init := x }))
        (.ident name :: .punct .declare :: ts ++ [.punct .semicolon])
  | assign {pos : Pos} {name : String} {x : Expr} {ts : List Token} : Phrase (.level 1 x) ts →
      Clause g (.stmt (.assign pos name none x))
        (.ident name :: .punct .assign :: ts ++ [.punct .semicolon])
  | leave {pos : Pos} : Clause g (.stmt (.ret pos .missing)) [.keyword .ret, .punct .semicolon]
  | ret {pos : Pos} {x : Expr} {ts : List Token} : Phrase (.level 1 x) ts →
      Clause g (.stmt (.ret pos x)) (.keyword .ret :: ts ++ [.punct .semicolon])
  | call {pos : Pos} {name : String} {xs : List Expr} {ts : List Token} : Phrase (.args [] xs) ts →
      Clause g (.stmt (.expr pos (.call pos none name none xs)))
        (.ident name :: .punct .lparen :: ts ++ [.punct .semicolon])
  | cond {x : Stmt} {ts : List Token} : Clause g (.branch x) ts →
      Clause g (.stmt x) (.keyword .cond :: ts)
  | branch {pos : Pos} {test : Expr} {body : Block} {more : Option Block} {ts us vs : List Token} :
      isCondition test = true → Phrase (.level 1 test) ts → Clause g (.block body) us →
      Clause g (.otherwise more) vs →
      Clause g (.branch (.cond pos test body more)) (ts ++ .punct .lbrace :: us ++ vs)
  | nil : Clause g (.block []) [.punct .rbrace]
  | cons {x : Stmt} {xs : Block} {ts us : List Token} : Clause g (.stmt x) ts →
      Clause g (.block xs) us → Clause g (.block (x :: xs)) (ts ++ us)
  | absent {more : Option Block} : elseStmts more = [] → Clause g (.otherwise more) []
  | chain {x : Stmt} {ts : List Token} : Clause g (.branch x) ts →
      Clause g (.otherwise (some [x])) (.keyword .otherwise :: .keyword .cond :: ts)
  | otherwise {xs : Block} {ts : List Token} : Clause g (.block xs) ts →
      Clause g (.otherwise (some xs)) (.keyword .otherwise :: .punct .lbrace :: ts)

def Token.BeginsStmt : Token → Prop
  | .ident _ | .keyword .ret | .keyword .cond => True
  | _ => False

theorem Clause.beginsStmt {g : Registry} {x : Stmt} {ts : List Token} (h : Clause g (.stmt x) ts) :
    ∃ t us, ts = t :: us ∧ t.BeginsStmt := by
  cases h with
  | _ => exact ⟨_, _, rfl, trivial⟩

/-- No `else` follows a statement of a block. -/
theorem Clause.head_ne_otherwise {g : Registry} {xs : Block} {ts : List Token}
    (h : Clause g (.block xs) ts) (more : List Token) :
    (ts ++ more).head? ≠ some (.keyword .otherwise) := by
  cases h with
  | nil => nofun
  | cons hx _ =>
    obtain ⟨t, us, rfl, ht⟩ := hx.beginsStmt
    intro heq
    cases heq
    exact ht

/-- The tokens of parameters and of the parenthesis after them, the first behind `sep`. -/
def paramTokens (sep : List Token) : List Var → List Token
  | [] => [.punct .rparen]
  | p :: rest => sep ++ [.ident p.name, .punct .colon, .ident (Ty.nameOf p.type)] ++
      paramTokens [.punct .comma] rest

def retTokens : Option Ty → List Token
  | none | some .void => []
  | some t => [.punct .arrow, .ident t.name]

def FunctionTokens (g : Registry) (f : Function) (ts : List Token) : Prop :=
  ∃ us, Clause g (.block f.body) us ∧
    ts = .ident f.name :: .punct .define :: .punct .lparen :: paramTokens [] f.params ++
      retTokens f.ret ++ .punct .lbrace :: us

def fieldTokens : List (String × Ty) → List Token
  | [] => [.punct .rbrace]
  | f :: rest => .ident f.1 :: .punct .colon :: .ident f.2.name :: .punct .semicolon :: fieldTokens rest

def recordTokens (r : Record) : List Token :=
  .keyword .struct :: .ident r.name :: .punct .lbrace :: fieldTokens r.fields

end RegisterLang
