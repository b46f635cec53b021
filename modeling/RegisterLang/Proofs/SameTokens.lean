import RegisterLang.Proofs.Reading

/-!
# Texts with the same tokens

What is parsed depends on the tokens of a text only: blanks and comments between them change nothing
but positions. Two runs of a rule on the same tokens go the same way, so their results are alike, that
is equal up to positions, and so are the errors that stop them and what they report.
-/
namespace RegisterLang

/-! ### Trees without positions -/

def Diagnostic.unplaced (d : Diagnostic) : Diagnostic := { d with pos := .nowhere }

mutual

def Stmt.unplaced : Stmt → Stmt
  | .var v => .var v.erase
  | .assign _ name nt x => .assign .nowhere name nt x.erase
  | .ret _ x => .ret .nowhere x.erase
  | .expr _ x => .expr .nowhere x.erase
  | .cond _ test body none => .cond .nowhere test.erase (unplacedBlock body) none
  | .cond _ test body (some more) =>
    .cond .nowhere test.erase (unplacedBlock body) (some (unplacedBlock more))
  | .other kind _ => .other kind .nowhere
termination_by structural x => x

def unplacedBlock : Block → Block
  | [] => []
  | x :: rest => x.unplaced :: unplacedBlock rest
termination_by structural x => x

end

theorem unplacedBlock_eq (xs : Block) : unplacedBlock xs = xs.map Stmt.unplaced := by
  induction xs with
  | nil => rfl
  | cons x rest ih => rw [unplacedBlock, ih, List.map_cons]

def Function.unplaced (f : Function) : Function :=
  { f with pos := .nowhere, params := f.params.map Var.erase, body := unplacedBlock f.body }

def File.unplaced (f : File) : File :=
  { f with typedefs := f.typedefs.map Typedef.erase, functions := f.functions.map Function.unplaced }

namespace Parser
open Text Number Source

def Cause.unplaced : Cause → Cause
  | .unexpected got want _ => .unexpected got want 0
  | cause => cause

def ParseError.unplaced (e : ParseError) : ParseError := { e with cause := e.cause.unplaced }

theorem ParseError.within_unplaced {e e' : ParseError} (h : e.unplaced = e'.unplaced) (c : Context) :
    (e.within c).unplaced = (e'.within c).unplaced := by
  obtain ⟨hcontext, hcause⟩ := ParseError.mk.inj h
  change ParseError.mk (c :: e.context) e.cause.unplaced = ⟨c :: e'.context, e'.cause.unplaced⟩
  rw [hcontext, hcause]

/-! ### Two runs -/

/-- Results of two runs: both are values that `R` relates, or both are errors that differ at most in
the offset of the token. -/
inductive Result.Alike {α β : Type} (R : α → β → Prop) : Result α → Result β → Prop
  | ok {a : α} {b : β} : R a b → Alike R (.ok a) (.ok b)
  | error {e e' : ParseError} : e.unplaced = e'.unplaced → Alike R (.error e) (.error e')

namespace Result.Alike
variable {α α' β β' : Type} {R : α → α' → Prop} {Q : β → β' → Prop} {r : Result α} {r' : Result α'}

theorem bind {f : α → Result β} {f' : α' → Result β'} (h : Alike R r r')
    (hf : ∀ a a', R a a' → Alike Q (f a) (f' a')) : Alike Q (r >>= f) (r' >>= f') := by
  cases h with
  | ok h => exact hf _ _ h
  | error h => exact .error h

theorem inside (h : Alike R r r') (c : Context) : Alike R (r.inside c) (r'.inside c) := by
  cases h with
  | ok h => exact .ok h
  | error h => exact .error (ParseError.within_unplaced h c)

end Result.Alike

/-- What two runs give: values that `P` relates, and the same tokens left. -/
def Both {α β : Type} (P : α → β → Prop) {m n : Nat} (r : α × Cursor.Below m)
    (r' : β × Cursor.Below n) : Prop :=
  P r.1 r'.1 ∧ r.2.val.tokens = r'.2.val.tokens

theorem lexemes_cases {ls ls' : List Lexeme} (h : ls.map (·.token) = ls'.map (·.token)) :
    (ls = [] ∧ ls' = []) ∨ ∃ t a b a' b' rest rest', ls = ⟨t, a, b⟩ :: rest ∧
      ls' = ⟨t, a', b'⟩ :: rest' ∧ rest.map (·.token) = rest'.map (·.token) := by
  cases ls with
  | nil => exact .inl ⟨rfl, List.map_eq_nil_iff.mp h.symm⟩
  | cons l rest =>
    obtain ⟨l', rest', rfl, hl, hrest⟩ := List.map_eq_cons_iff.mp h.symm
    obtain ⟨t, a, b⟩ := l
    obtain ⟨t', a', b'⟩ := l'
    obtain rfl : t' = t := hl
    exact .inr ⟨t', a, b, a', b', rest, rest', rfl, rfl, hrest.symm⟩

section
variable {c c' : Cursor} (h : c.tokens = c'.tokens)
include h

theorem expect_alike (p : Punct) :
    Result.Alike (fun d d' => d.val.tokens = d'.val.tokens) (expect p c) (expect p c') := by
  obtain ⟨stop, ls⟩ := c
  obtain ⟨stop', ls'⟩ := c'
  unfold expect
  rcases lexemes_cases h with ⟨rfl, rfl⟩ | ⟨t, a, b, a', b', rest, rest', rfl, rfl, hrest⟩
  · exact .error rfl
  · dsimp only
    split
    · exact .ok hrest
    · exact .error rfl

theorem expectIdent_alike :
    Result.Alike (fun r r' => r.1 = r'.1 ∧ r.2.2.val.tokens = r'.2.2.val.tokens) (expectIdent c)
      (expectIdent c') := by
  obtain ⟨stop, ls⟩ := c
  obtain ⟨stop', ls'⟩ := c'
  unfold expectIdent
  rcases lexemes_cases h with ⟨rfl, rfl⟩ | ⟨t, a, b, a', b', rest, rest', rfl, rfl, hrest⟩
  · exact .error rfl
  · dsimp only
    cases t with
    | ident name => exact .ok ⟨rfl, hrest⟩
    | _ => exact .error rfl

end

/-! ### Expressions -/

abbrev SameExpr (x y : Expr) : Prop := x.erase = y.erase

theorem readNumber_alike (pos pos' : Pos) (text : Bytes) :
    Result.Alike SameExpr (readNumber pos text) (readNumber pos' text) := by
  unfold readNumber
  dsimp only
  split
  · cases readUInt64 text <;> constructor <;> rfl
  · split
    · cases Format.single.read text.dropLast <;> constructor <;> rfl
    · split
      · cases Format.double.read text.dropLast <;> constructor <;> rfl
      · split
        · cases Format.double.read text <;> constructor <;> rfl
        · cases readUInt64 text <;> constructor <;> rfl

/-- Whether a token is a literal does not depend on its position. -/
theorem literal?_alike (pos pos' : Pos) (t : Token) :
    (literal? pos t = none ∧ literal? pos' t = none) ∨ ∃ r r', literal? pos t = some r ∧
      literal? pos' t = some r' ∧ Result.Alike SameExpr r r' := by
  cases t with
  | number text => exact .inr ⟨_, _, rfl, rfl, readNumber_alike pos pos' text⟩
  | string value => exact .inr ⟨_, _, rfl, rfl, .ok rfl⟩
  | char value => exact .inr ⟨_, _, rfl, rfl, .ok rfl⟩
  | _ => exact .inl ⟨rfl, rfl⟩

theorem negate_same {x y : Expr} (h : SameExpr x y) (pos pos' : Pos) :
    SameExpr (negate pos x) (negate pos' y) := by
  rw [SameExpr, erase_negate, erase_negate, h]

theorem op_same {x x' y y' : Expr} (hx : SameExpr x x') (hy : SameExpr y y') (pos pos' : Pos)
    (op : Op) : SameExpr (.op pos none op true x y) (.op pos' none op true x' y') := by
  rw [SameExpr, Expr.erase, Expr.erase, hx, hy]

theorem call_same {args args' : List Expr} (h : args.map Expr.erase = args'.map Expr.erase)
    (pos pos' : Pos) (name : String) :
    SameExpr (.call pos none name none args) (.call pos' none name none args') := by
  rw [SameExpr, Expr.erase, Expr.erase, eraseArgs_eq, eraseArgs_eq, h]

abbrev SameArgs (args args' : Array Expr) : Prop := args.map Expr.erase = args'.map Expr.erase

variable {lines lines' : LineTable}

structure ExprsAlike (lines lines' : LineTable) (c c' : Cursor) : Prop where
  primary : Result.Alike (Both SameExpr) (parsePrimary lines c) (parsePrimary lines' c')
  unary : Result.Alike (Both SameExpr) (parseUnary lines c) (parseUnary lines' c')
  operators : ∀ prec x x' bound bound' hc hc', SameExpr x x' → Result.Alike (Both SameExpr)
    (parseOperators lines prec x bound c hc) (parseOperators lines' prec x' bound' c' hc')
  expr : ∀ prec, Result.Alike (Both SameExpr) (parseExpr lines prec c) (parseExpr lines' prec c')
  args : ∀ args args' bound bound' hc hc', SameArgs args args' → Result.Alike (Both SameArgs)
    (parseArgs lines args bound c hc) (parseArgs lines' args' bound' c' hc')

section
variable {c c' : Cursor} (h : c.tokens = c'.tokens)
  (ih : ∀ d d' : Cursor, d.size < c.size → d.tokens = d'.tokens → ExprsAlike lines lines' d d')
include h ih

theorem parsePrimary_alike :
    Result.Alike (Both SameExpr) (parsePrimary lines c) (parsePrimary lines' c') := by
  obtain ⟨stop, ls⟩ := c
  obtain ⟨stop', ls'⟩ := c'
  unfold parsePrimary
  rcases lexemes_cases h with ⟨rfl, rfl⟩ | ⟨t, a, b, a', b', rest, rest', rfl, rfl, hrest⟩
  · exact .error rfl
  dsimp only
  rcases literal?_alike (lines.locate a) (lines'.locate a') t with ⟨h₁, h₂⟩ | ⟨r, r', h₁, h₂, hr⟩
  · rw [h₁, h₂]
    cases t with
    | ident name =>
      rcases lexemes_cases hrest with ⟨rfl, rfl⟩ | ⟨t, a₁, b₁, a₁', b₁', more, more', rfl, rfl, hmore⟩
      · exact .ok ⟨rfl, rfl⟩
      · dsimp only
        split
        · have hnext := ih ⟨b₁, more⟩ ⟨b₁', more'⟩ (Nat.lt_succ_of_lt (Nat.lt_succ_self _)) hmore
          refine (hnext.args #[] #[] _ _ _ _ rfl).bind ?_
          rintro ⟨args, d⟩ ⟨args', d'⟩ ⟨hargs, hd⟩
          exact .ok ⟨call_same (by simpa using congrArg Array.toList hargs) _ _ _, hd⟩
        · exact .ok ⟨rfl, hrest⟩
    | punct p =>
      cases p with
      | lparen =>
        refine ((ih ⟨b, rest⟩ ⟨b', rest'⟩ (Nat.lt_succ_self _) hrest).expr 0).bind ?_
        rintro ⟨x, d, hd⟩ ⟨x', d', hd'⟩ ⟨hx, hsame⟩
        exact (expect_alike hsame .rparen).bind fun e e' he => .ok ⟨hx, he⟩
      | _ => exact .error rfl
    | _ => exact .error rfl
  · rw [h₁, h₂]
    exact hr.bind fun x x' hx => .ok ⟨hx, hrest⟩

theorem parseUnary_alike :
    Result.Alike (Both SameExpr) (parseUnary lines c) (parseUnary lines' c') := by
  have hprimary := parsePrimary_alike h ih
  obtain ⟨stop, ls⟩ := c
  obtain ⟨stop', ls'⟩ := c'
  unfold parseUnary
  rcases lexemes_cases h with ⟨rfl, rfl⟩ | ⟨t, a, b, a', b', rest, rest', rfl, rfl, hrest⟩
  · exact hprimary
  dsimp only
  split
  · refine (ih ⟨b, rest⟩ ⟨b', rest'⟩ (Nat.lt_succ_self _) hrest).unary.bind ?_
    rintro ⟨x, d, hd⟩ ⟨x', d', hd'⟩ ⟨hx, hsame⟩
    exact .ok ⟨negate_same hx _ _, hsame⟩
  · exact hprimary

theorem parseOperators_alike {prec : Nat} {x x' : Expr} {bound bound' : Nat} (hc : c.size < bound)
    (hc' : c'.size < bound') (hx : SameExpr x x') : Result.Alike (Both SameExpr)
      (parseOperators lines prec x bound c hc) (parseOperators lines' prec x' bound' c' hc') := by
  obtain ⟨stop, ls⟩ := c
  obtain ⟨stop', ls'⟩ := c'
  unfold parseOperators
  rcases lexemes_cases h with ⟨rfl, rfl⟩ | ⟨t, a, b, a', b', rest, rest', rfl, rfl, hrest⟩
  · exact .ok ⟨hx, rfl⟩
  dsimp only
  split
  · exact .ok ⟨hx, h⟩
  next op oprec hop =>
    refine (((ih ⟨b, rest⟩ ⟨b', rest'⟩ (Nat.lt_succ_self _) hrest).expr oprec).inside _).bind ?_
    rintro ⟨r, d, hd⟩ ⟨r', d', hd'⟩ ⟨hr, hsame⟩
    exact (ih d d' (Nat.lt_succ_of_lt hd) hsame).operators prec _ _ _ _ _ _ (op_same hx hr _ _ op)

theorem parseExpr_alike (prec : Nat) :
    Result.Alike (Both SameExpr) (parseExpr lines prec c) (parseExpr lines' prec c') := by
  unfold parseExpr
  refine (parseUnary_alike h ih).bind ?_
  rintro ⟨x, d, hd⟩ ⟨x', d', hd'⟩ ⟨hx, hsame⟩
  exact (ih d d' hd hsame).operators prec _ _ _ _ _ _ hx

theorem parseArgs_alike {args args' : Array Expr} {bound bound' : Nat} (hc : c.size < bound)
    (hc' : c'.size < bound') (hargs : SameArgs args args') : Result.Alike (Both SameArgs)
      (parseArgs lines args bound c hc) (parseArgs lines' args' bound' c' hc') := by
  have hexpr := parseExpr_alike h ih 0
  have hsize : args.size = args'.size := by simpa using congrArg Array.size hargs
  obtain ⟨stop, ls⟩ := c
  obtain ⟨stop', ls'⟩ := c'
  unfold parseArgs
  rcases lexemes_cases h with ⟨rfl, rfl⟩ | ⟨t, a, b, a', b', rest, rest', rfl, rfl, hrest⟩
  · exact .error rfl
  dsimp only
  rw [Array.isEmpty, Array.isEmpty, hsize]
  split
  · exact .ok ⟨hargs, hrest⟩
  split
  · refine (hexpr.inside _).bind ?_
    rintro ⟨x, d, hd⟩ ⟨x', d', hd'⟩ ⟨hx, hsame⟩
    refine (ih d d' hd hsame).args _ _ _ _ _ _ ?_
    simpa [SameArgs] using hx
  split
  · refine (((ih ⟨b, rest⟩ ⟨b', rest'⟩ (Nat.lt_succ_self _) hrest).expr 0).inside _).bind ?_
    rintro ⟨x, d, hd⟩ ⟨x', d', hd'⟩ ⟨hx, hsame⟩
    refine (ih d d' (Nat.lt_succ_of_lt hd) hsame).args _ _ _ _ _ _ ?_
    rw [SameArgs, Array.map_push, Array.map_push, hargs, hx]
  · exact .error rfl

end

/-- Two runs of the rules for expressions on the same tokens go the same way. -/
theorem exprsAlike (lines lines' : LineTable) {c c' : Cursor} (h : c.tokens = c'.tokens) :
    ExprsAlike lines lines' c c' := by
  induction hn : c.size using Nat.strongRecOn generalizing c c' with
  | ind n ih =>
    have hnext : ∀ d d' : Cursor, d.size < c.size → d.tokens = d'.tokens →
        ExprsAlike lines lines' d d' := fun d d' hd hsame => ih d.size (by omega) hsame rfl
    exact ⟨parsePrimary_alike h hnext, parseUnary_alike h hnext,
      fun prec x x' bound bound' hc hc' hx => parseOperators_alike h hnext hc hc' hx,
      parseExpr_alike h hnext,
      fun args args' bound bound' hc hc' hargs => parseArgs_alike h hnext hc hc' hargs⟩

/-! ### Statements -/

abbrev SameReports (ds ds' : Array Diagnostic) : Prop :=
  ds.map Diagnostic.unplaced = ds'.map Diagnostic.unplaced

def Reporting.Alike {α β : Type} (R : α → β → Prop) (m : Reporting α) (m' : Reporting β) : Prop :=
  ∀ ds ds', SameReports ds ds' → Result.Alike R (m.run.run ds).1 (m'.run.run ds').1 ∧
    SameReports (m.run.run ds).2 (m'.run.run ds').2

namespace Reporting.Alike
variable {α α' β β' : Type} {R : α → α' → Prop} {Q : β → β' → Prop} {m : Reporting α}
  {m' : Reporting α'}

/-- What two runs do: both go on, or both stop. -/
theorem run_cases (h : Reporting.Alike R m m') {ds ds' : Array Diagnostic} (hds : SameReports ds ds') :
    ∃ es es', SameReports es es' ∧
      ((∃ a a', m.run.run ds = (.ok a, es) ∧ m'.run.run ds' = (.ok a', es') ∧ R a a') ∨
        ∃ e e', m.run.run ds = (.error e, es) ∧ m'.run.run ds' = (.error e', es') ∧
          e.unplaced = e'.unplaced) := by
  have hm := h ds ds' hds
  generalize m.run.run ds = r at hm
  generalize m'.run.run ds' = r' at hm
  obtain ⟨x, es⟩ := r
  obtain ⟨x', es'⟩ := r'
  obtain ⟨hx, hes⟩ := hm
  refine ⟨es, es', hes, ?_⟩
  cases hx with
  | ok hx => exact .inl ⟨_, _, rfl, rfl, hx⟩
  | error he => exact .inr ⟨_, _, rfl, rfl, he⟩

theorem bind {f : α → Reporting β} {f' : α' → Reporting β'} (h : Reporting.Alike R m m')
    (hf : ∀ a a', R a a' → Reporting.Alike Q (f a) (f' a')) :
    Reporting.Alike Q (m >>= f) (m' >>= f') := by
  intro ds ds' hds
  rw [ExceptT.run_bind, ExceptT.run_bind, StateT.run_bind, StateT.run_bind]
  obtain ⟨es, es', hes, ⟨a, a', hr, hr', ha⟩ | ⟨e, e', hr, hr', he⟩⟩ := h.run_cases hds
  · rw [hr, hr']
    exact hf a a' ha es es' hes
  · rw [hr, hr']
    exact ⟨.error he, hes⟩

theorem ofPure {a : α} {a' : α'} (h : R a a') : Reporting.Alike R (pure a) (pure a') :=
  fun _ _ hds => ⟨.ok h, hds⟩

theorem quietly {r : Result α} {r' : Result α'} (h : Result.Alike R r r') :
    Reporting.Alike R (Parser.quietly r) (Parser.quietly r') :=
  fun _ _ hds => ⟨h, hds⟩

theorem report {d d' : Diagnostic} (h : d.unplaced = d'.unplaced) :
    Reporting.Alike (fun _ _ => True) (Parser.report d) (Parser.report d') := by
  intro ds ds' hds
  refine ⟨.ok trivial, ?_⟩
  change (ds.push d).map _ = (ds'.push d').map _
  rw [Array.map_push, Array.map_push, hds, h]

end Reporting.Alike

abbrev SameStmt (x y : Stmt) : Prop := x.unplaced = y.unplaced

abbrev SameBlock (xs ys : Block) : Prop := xs.map Stmt.unplaced = ys.map Stmt.unplaced

abbrev SameElse (more more' : Option Block) : Prop :=
  more.map (List.map Stmt.unplaced) = more'.map (List.map Stmt.unplaced)

theorem cond_same {test test' : Expr} {body body' : Block} {more more' : Option Block}
    (htest : SameExpr test test') (hbody : SameBlock body body') (hmore : SameElse more more')
    (pos pos' : Pos) : SameStmt (.cond pos test body more) (.cond pos' test' body' more') := by
  cases more with
  | none =>
    cases more' with
    | none =>
      rw [SameStmt, Stmt.unplaced, Stmt.unplaced, unplacedBlock_eq, unplacedBlock_eq, htest, hbody]
    | some more' => cases hmore
  | some more =>
    cases more' with
    | none => cases hmore
    | some more' =>
      have hmore : SameBlock more more' := Option.some.inj hmore
      rw [SameStmt, Stmt.unplaced, Stmt.unplaced, unplacedBlock_eq, unplacedBlock_eq, unplacedBlock_eq,
        unplacedBlock_eq, htest, hbody, hmore]

theorem isCondition_eq {x y : Expr} (h : SameExpr x y) : isCondition x = isCondition y := by
  have herase : ∀ x : Expr, isCondition x.erase = isCondition x := by
    intro x
    cases x <;> rfl
  rw [← herase x, h, herase]

variable {types : Registry} {c c' : Cursor}

section
variable (h : c.tokens = c'.tokens)
include h

theorem parseType_alike : Reporting.Alike (Both Eq) (parseType ⟨lines, types⟩ c)
    (parseType ⟨lines', types⟩ c') := by
  unfold parseType
  refine (Reporting.Alike.quietly (expectIdent_alike h)).bind ?_
  rintro ⟨name, l, d⟩ ⟨name', l', d'⟩ ⟨hname, hd⟩
  obtain rfl : name = name' := hname
  dsimp only
  split
  · exact .ofPure ⟨rfl, hd⟩
  · refine Reporting.Alike.bind (Reporting.Alike.report ?_) fun _ _ _ => .ofPure ⟨rfl, hd⟩
    rfl

theorem parseReturn_alike (pos pos' : Pos) : Result.Alike (Both SameStmt)
    (parseReturn ⟨lines, types⟩ pos c) (parseReturn ⟨lines', types⟩ pos' c') := by
  have hexpr := (exprsAlike lines lines' h).expr 0
  obtain ⟨stop, ls⟩ := c
  obtain ⟨stop', ls'⟩ := c'
  unfold parseReturn
  rcases lexemes_cases h with ⟨rfl, rfl⟩ | ⟨t, a, b, a', b', rest, rest', rfl, rfl, hrest⟩
  · exact .error rfl
  dsimp only
  split
  · exact .ok ⟨rfl, hrest⟩
  · refine (hexpr.inside _).bind ?_
    rintro ⟨x, d, hd⟩ ⟨x', d', hd'⟩ ⟨hx, hsame⟩
    exact (expect_alike hsame .semicolon).bind fun e e' he => .ok ⟨congrArg (Stmt.ret .nowhere) hx, he⟩

theorem parseInit_alike (name : String) {bound bound' : Nat} (hc : c.size < bound)
    (hc' : c'.size < bound') : Result.Alike (Both SameExpr)
      (parseInit ⟨lines, types⟩ name bound c hc) (parseInit ⟨lines', types⟩ name bound' c' hc') := by
  obtain ⟨stop, ls⟩ := c
  obtain ⟨stop', ls'⟩ := c'
  unfold parseInit
  rcases lexemes_cases h with ⟨rfl, rfl⟩ | ⟨t, a, b, a', b', rest, rest', rfl, rfl, hrest⟩
  · exact .ok ⟨rfl, rfl⟩
  dsimp only
  split
  · have hnext : Cursor.tokens ⟨b, rest⟩ = Cursor.tokens ⟨b', rest'⟩ := hrest
    refine (((exprsAlike lines lines' hnext).expr 0).inside _).bind ?_
    rintro ⟨x, d, hd⟩ ⟨x', d', hd'⟩ ⟨hx, hsame⟩
    exact .ok ⟨hx, hsame⟩
  · exact .ok ⟨rfl, h⟩

theorem parseNamed_alike (pos pos' : Pos) (name : String) : Reporting.Alike (Both SameStmt)
    (parseNamed ⟨lines, types⟩ pos name c) (parseNamed ⟨lines', types⟩ pos' name c') := by
  obtain ⟨stop, ls⟩ := c
  obtain ⟨stop', ls'⟩ := c'
  unfold parseNamed
  rcases lexemes_cases h with ⟨rfl, rfl⟩ | ⟨t, a, b, a', b', rest, rest', rfl, rfl, hrest⟩
  · exact .quietly (.error rfl)
  have hnext : Cursor.tokens ⟨b, rest⟩ = Cursor.tokens ⟨b', rest'⟩ := hrest
  have hexprs := exprsAlike lines lines' hnext
  dsimp only
  cases t with
  | punct p =>
    cases p with
    | colon =>
      refine (parseType_alike hnext).bind ?_
      rintro ⟨type, d, hd⟩ ⟨type', d', hd'⟩ ⟨htype, hsame⟩
      obtain rfl : type = type' := htype
      refine (Reporting.Alike.quietly (parseInit_alike hsame name _ _)).bind ?_
      rintro ⟨x, e⟩ ⟨x', e'⟩ ⟨hx, he⟩
      exact .ofPure ⟨by rw [SameStmt, Stmt.unplaced, Stmt.unplaced, Var.erase, Var.erase, hx], he⟩
    | declare =>
      refine (Reporting.Alike.quietly ((hexprs.expr 0).inside _)).bind ?_
      rintro ⟨x, d, hd⟩ ⟨x', d', hd'⟩ ⟨hx, hsame⟩
      exact .ofPure ⟨by rw [SameStmt, Stmt.unplaced, Stmt.unplaced, Var.erase, Var.erase, hx], hsame⟩
    | assign =>
      refine (Reporting.Alike.quietly ((hexprs.expr 0).inside _)).bind ?_
      rintro ⟨x, d, hd⟩ ⟨x', d', hd'⟩ ⟨hx, hsame⟩
      exact .ofPure ⟨by rw [SameStmt, Stmt.unplaced, Stmt.unplaced, hx], hsame⟩
    | lparen =>
      refine (Reporting.Alike.quietly (hexprs.args #[] #[] _ _ _ _ rfl)).bind ?_
      rintro ⟨args, d⟩ ⟨args', d'⟩ ⟨hargs, hd⟩
      have hcall := call_same (by simpa using congrArg Array.toList hargs) pos pos' name
      exact .ofPure ⟨congrArg (Stmt.expr .nowhere) hcall, hd⟩
    | _ => exact .quietly (.error rfl)
  | _ => exact .quietly (.error rfl)

end

structure StmtsAlike (lines lines' : LineTable) (types : Registry) (c c' : Cursor) : Prop where
  block : Reporting.Alike (Both SameBlock) (parseBlock ⟨lines, types⟩ c) (parseBlock ⟨lines', types⟩ c')
  stmts : ∀ body body' bound bound' hc hc', SameBlock body.toList body'.toList →
    Reporting.Alike (Both fun body body' => SameBlock body.toList body'.toList)
      (parseStmts ⟨lines, types⟩ body bound c hc) (parseStmts ⟨lines', types⟩ body' bound' c' hc')
  stmt : Reporting.Alike (Both SameStmt) (parseStmt ⟨lines, types⟩ c) (parseStmt ⟨lines', types⟩ c')
  cond : ∀ pos pos' bound bound' hc hc', Reporting.Alike (Both SameStmt)
    (parseCond ⟨lines, types⟩ pos bound c hc) (parseCond ⟨lines', types⟩ pos' bound' c' hc')
  more : ∀ bound bound' hc hc', Reporting.Alike (Both SameElse)
    (parseElse ⟨lines, types⟩ bound c hc) (parseElse ⟨lines', types⟩ bound' c' hc')

section
variable (h : c.tokens = c'.tokens) (ih : ∀ d d' : Cursor, d.size < c.size → d.tokens = d'.tokens →
  StmtsAlike lines lines' types d d')
include h ih

theorem parseBlock_alike : Reporting.Alike (Both SameBlock) (parseBlock ⟨lines, types⟩ c)
    (parseBlock ⟨lines', types⟩ c') := by
  unfold parseBlock
  refine (Reporting.Alike.quietly (expect_alike h .lbrace)).bind ?_
  rintro ⟨d, hd⟩ ⟨d', hd'⟩ hsame
  refine ((ih d d' hd hsame).stmts #[] #[] _ _ _ _ rfl).bind ?_
  rintro ⟨body, e⟩ ⟨body', e'⟩ hbody
  exact .ofPure hbody

theorem parseCond_alike (pos pos' : Pos) {bound bound' : Nat} (hc : c.size < bound)
    (hc' : c'.size < bound') : Reporting.Alike (Both SameStmt)
      (parseCond ⟨lines, types⟩ pos bound c hc) (parseCond ⟨lines', types⟩ pos' bound' c' hc') := by
  unfold parseCond
  refine (Reporting.Alike.quietly (((exprsAlike lines lines' h).expr 0).inside _)).bind ?_
  rintro ⟨test, d, hd⟩ ⟨test', d', hd'⟩ ⟨htest, hsame⟩
  dsimp only
  rw [isCondition_eq htest]
  split
  · exact .quietly (.error rfl)
  · refine (ih d d' hd hsame).block.bind ?_
    rintro ⟨body, e, he⟩ ⟨body', e', he'⟩ ⟨hbody, hsame'⟩
    refine ((ih e e' (Nat.lt_trans he hd) hsame').more _ _ _ _).bind ?_
    rintro ⟨more, g⟩ ⟨more', g'⟩ ⟨hmore, hg⟩
    exact .ofPure ⟨cond_same htest hbody hmore pos pos', hg⟩

theorem parseElse_alike {bound bound' : Nat} (hc : c.size < bound) (hc' : c'.size < bound') :
    Reporting.Alike (Both SameElse) (parseElse ⟨lines, types⟩ bound c hc)
      (parseElse ⟨lines', types⟩ bound' c' hc') := by
  obtain ⟨stop, ls⟩ := c
  obtain ⟨stop', ls'⟩ := c'
  unfold parseElse
  rcases lexemes_cases h with ⟨rfl, rfl⟩ | ⟨t, a, b, a', b', rest, rest', rfl, rfl, hrest⟩
  · exact .ofPure ⟨rfl, rfl⟩
  rcases lexemes_cases hrest with ⟨rfl, rfl⟩ | ⟨t₁, a₁, b₁, a₁', b₁', more, more', rfl, rfl, hmore⟩
  · exact .ofPure ⟨rfl, rfl⟩
  dsimp only
  split
  · exact .ofPure ⟨rfl, h⟩
  split
  · have hnext := ih ⟨b₁, more⟩ ⟨b₁', more'⟩ (Nat.lt_succ_of_lt (Nat.lt_succ_self _)) hmore
    refine (hnext.cond _ _ _ _ _ _).bind ?_
    rintro ⟨x, g⟩ ⟨x', g'⟩ ⟨hx, hg⟩
    refine .ofPure ⟨?_, hg⟩
    rw [SameElse, Option.map_some, Option.map_some, List.map_singleton, List.map_singleton, hx]
  · refine (ih ⟨b, _ :: more⟩ ⟨b', _ :: more'⟩ (Nat.lt_succ_self _) hrest).block.bind ?_
    rintro ⟨xs, g, hg⟩ ⟨xs', g', hg'⟩ ⟨hxs, hsame⟩
    exact .ofPure ⟨congrArg some hxs, hsame⟩

theorem parseStmt_alike : Reporting.Alike (Both SameStmt) (parseStmt ⟨lines, types⟩ c)
    (parseStmt ⟨lines', types⟩ c') := by
  obtain ⟨stop, ls⟩ := c
  obtain ⟨stop', ls'⟩ := c'
  unfold parseStmt
  rcases lexemes_cases h with ⟨rfl, rfl⟩ | ⟨t, a, b, a', b', rest, rest', rfl, rfl, hrest⟩
  · exact .quietly (.error rfl)
  have hnext : Cursor.tokens ⟨b, rest⟩ = Cursor.tokens ⟨b', rest'⟩ := hrest
  dsimp only
  cases t with
  | keyword k =>
    cases k with
    | ret =>
      refine (Reporting.Alike.quietly (parseReturn_alike hnext _ _)).bind ?_
      rintro ⟨x, d, hd⟩ ⟨x', d', hd'⟩ hx
      exact .ofPure hx
    | cond => exact (ih ⟨b, rest⟩ ⟨b', rest'⟩ (Nat.lt_succ_self _) hrest).cond _ _ _ _ _ _
    | _ => exact .quietly (.error rfl)
  | ident name =>
    refine (parseNamed_alike hnext _ _ name).bind ?_
    rintro ⟨x, d, hd⟩ ⟨x', d', hd'⟩ ⟨hx, hsame⟩
    refine (Reporting.Alike.quietly (expect_alike hsame .semicolon)).bind ?_
    rintro ⟨e, he⟩ ⟨e', he'⟩ hsame'
    exact .ofPure ⟨hx, hsame'⟩
  | _ => exact .quietly (.error rfl)

theorem parseStmts_alike {body body' : Array Stmt} {bound bound' : Nat} (hc : c.size < bound)
    (hc' : c'.size < bound') (hbody : SameBlock body.toList body'.toList) :
    Reporting.Alike (Both fun body body' => SameBlock body.toList body'.toList)
      (parseStmts ⟨lines, types⟩ body bound c hc) (parseStmts ⟨lines', types⟩ body' bound' c' hc') := by
  have hstmt := parseStmt_alike h ih
  obtain ⟨stop, ls⟩ := c
  obtain ⟨stop', ls'⟩ := c'
  unfold parseStmts
  rcases lexemes_cases h with ⟨rfl, rfl⟩ | ⟨t, a, b, a', b', rest, rest', rfl, rfl, hrest⟩
  · exact .quietly (.error rfl)
  dsimp only
  split
  · exact .ofPure ⟨hbody, hrest⟩
  split
  · exact (ih ⟨b, rest⟩ ⟨b', rest'⟩ (Nat.lt_succ_self _) hrest).stmts _ _ _ _ _ _ hbody
  split
  · exact .quietly (.error rfl)
  · refine hstmt.bind ?_
    rintro ⟨x, d, hd⟩ ⟨x', d', hd'⟩ ⟨hx, hsame⟩
    refine (ih d d' hd hsame).stmts _ _ _ _ _ _ ?_
    rw [SameBlock, Array.toList_push, Array.toList_push, List.map_append, List.map_append, hbody,
      List.map_singleton, List.map_singleton, hx]

end

/-- Two runs of the rules for statements on the same tokens go the same way. -/
theorem stmtsAlike (lines lines' : LineTable) (types : Registry) {c c' : Cursor}
    (h : c.tokens = c'.tokens) : StmtsAlike lines lines' types c c' := by
  induction hn : c.size using Nat.strongRecOn generalizing c c' with
  | ind n ih =>
    have hnext : ∀ d d' : Cursor, d.size < c.size → d.tokens = d'.tokens →
        StmtsAlike lines lines' types d d' := fun d d' hd hsame => ih d.size (by omega) hsame rfl
    exact ⟨parseBlock_alike h hnext,
      fun body body' bound bound' hc hc' hbody => parseStmts_alike h hnext hc hc' hbody,
      parseStmt_alike h hnext,
      fun pos pos' bound bound' hc hc' => parseCond_alike h hnext pos pos' hc hc',
      fun bound bound' hc hc' => parseElse_alike h hnext hc hc'⟩

/-! ### Functions and records -/

abbrev SameParams (params params' : Array Var) : Prop :=
  params.map Var.erase = params'.map Var.erase

theorem parseParams_alike (h : c.tokens = c'.tokens) {params params' : Array Var} {bound bound' : Nat}
    (hc : c.size < bound) (hc' : c'.size < bound') (hparams : SameParams params params') :
    Reporting.Alike (Both SameParams) (parseParams ⟨lines, types⟩ params bound c hc)
      (parseParams ⟨lines', types⟩ params' bound' c' hc') := by
  induction hn : c.size using Nat.strongRecOn generalizing c c' params params' with
  | ind n ih =>
    have hsize : params.size = params'.size := by simpa using congrArg Array.size hparams
    have hempty : params.isEmpty = params'.isEmpty := by rw [Array.isEmpty, Array.isEmpty, hsize]
    obtain ⟨stop, ls⟩ := c
    obtain ⟨stop', ls'⟩ := c'
    unfold parseParams
    rcases lexemes_cases h with ⟨rfl, rfl⟩ | ⟨t, a, b, a', b', rest, rest', rfl, rfl, hrest⟩
    · exact .quietly (.error rfl)
    dsimp only
    split
    · exact .ofPure ⟨hparams, hrest⟩
    have hcomma : (!params.isEmpty && decide (t ≠ .punct .comma)) =
      (!params'.isEmpty && decide (t ≠ .punct .comma)) := by rw [hempty]
    by_cases hnone : (!params'.isEmpty && decide (t ≠ .punct .comma)) = true
    · rw [if_pos (hcomma.trans hnone), if_pos hnone]
      exact .quietly (.error rfl)
    rw [if_neg (hcomma ▸ hnone), if_neg hnone]
    refine (Reporting.Alike.quietly (expectIdent_alike ?_)).bind fun x x' hx => ?_
    · rw [hempty]
      split
      · exact h
      · exact hrest
    refine (Reporting.Alike.quietly (expect_alike hx.2 .colon)).bind fun y y' hy => ?_
    refine (parseType_alike hy).bind fun z z' hz => ?_
    have hsize : z.2.val.size < n := by
      rw [← hn]
      refine Nat.lt_of_lt_of_le
        (Nat.lt_trans z.2.property (Nat.lt_trans y.property x.2.2.property)) ?_
      split
      · exact Nat.le_refl _
      · exact Nat.le_succ _
    refine ih z.2.val.size hsize hz.2 _ _ ?_ rfl
    rw [SameParams, Array.map_push, Array.map_push, hparams, Var.erase, Var.erase]
    dsimp only
    rw [hx.1, hz.1]

theorem parseRet_alike (h : c.tokens = c'.tokens) {bound bound' : Nat} (hc : c.size < bound)
    (hc' : c'.size < bound') : Reporting.Alike (Both Eq) (parseRet ⟨lines, types⟩ bound c hc)
      (parseRet ⟨lines', types⟩ bound' c' hc') := by
  obtain ⟨stop, ls⟩ := c
  obtain ⟨stop', ls'⟩ := c'
  unfold parseRet
  rcases lexemes_cases h with ⟨rfl, rfl⟩ | ⟨t, a, b, a', b', rest, rest', rfl, rfl, hrest⟩
  · exact .ofPure ⟨rfl, rfl⟩
  have hnext : Cursor.tokens ⟨b, rest⟩ = Cursor.tokens ⟨b', rest'⟩ := hrest
  dsimp only
  split
  · refine (parseType_alike hnext).bind ?_
    rintro ⟨type, d, hd⟩ ⟨type', d', hd'⟩ ⟨htype, hsame⟩
    exact .ofPure ⟨congrArg (·.getD .void) htype, hsame⟩
  · exact .ofPure ⟨rfl, h⟩

abbrev SameFunction (f f' : Function) : Prop := f.unplaced = f'.unplaced

theorem parseFunction_alike (h : c.tokens = c'.tokens) (pos pos' : Pos) (name : String) :
    Reporting.Alike (Both SameFunction) (parseFunction ⟨lines, types⟩ pos name c)
      (parseFunction ⟨lines', types⟩ pos' name c') := by
  unfold parseFunction
  refine (Reporting.Alike.quietly (expect_alike h .define)).bind ?_
  rintro ⟨d, hd⟩ ⟨d', hd'⟩ hd''
  refine (Reporting.Alike.quietly (expect_alike hd'' .lparen)).bind ?_
  rintro ⟨e, he⟩ ⟨e', he'⟩ he''
  refine (parseParams_alike he'' _ _ rfl).bind ?_
  rintro ⟨params, g, hg⟩ ⟨params', g', hg'⟩ ⟨hparams, hg''⟩
  refine (parseRet_alike hg'' _ _).bind ?_
  rintro ⟨ret, r, hr⟩ ⟨ret', r', hr'⟩ ⟨hret, hr''⟩
  refine (stmtsAlike lines lines' types hr'').block.bind ?_
  rintro ⟨body, b, hb⟩ ⟨body', b', hb'⟩ ⟨hbody, hb''⟩
  refine .ofPure ⟨?_, hb''⟩
  obtain rfl : ret = ret' := hret
  have hparams : params.toList.map Var.erase = params'.toList.map Var.erase := by
    simpa using congrArg Array.toList hparams
  rw [SameFunction, Function.unplaced, Function.unplaced]
  dsimp only
  rw [unplacedBlock_eq, unplacedBlock_eq, hbody, hparams]

theorem parseFields_alike (h : c.tokens = c'.tokens) (fields : Array (String × Ty))
    {bound bound' : Nat} (hc : c.size < bound) (hc' : c'.size < bound') :
    Reporting.Alike (Both Eq) (parseFields ⟨lines, types⟩ fields bound c hc)
      (parseFields ⟨lines', types⟩ fields bound' c' hc') := by
  induction hn : c.size using Nat.strongRecOn generalizing c c' fields with
  | ind n ih =>
    obtain ⟨stop, ls⟩ := c
    obtain ⟨stop', ls'⟩ := c'
    unfold parseFields
    rcases lexemes_cases h with ⟨rfl, rfl⟩ | ⟨t, a, b, a', b', rest, rest', rfl, rfl, hrest⟩
    · exact .quietly (.error rfl)
    have hnext : Cursor.tokens ⟨b, rest⟩ = Cursor.tokens ⟨b', rest'⟩ := hrest
    dsimp only
    cases t with
    | punct p =>
      cases p with
      | rbrace => exact .ofPure ⟨rfl, hrest⟩
      | _ => exact .quietly (.error rfl)
    | ident name =>
      refine (Reporting.Alike.quietly (expect_alike hnext .colon)).bind ?_
      rintro ⟨d, hd⟩ ⟨d', hd'⟩ hd''
      refine (parseType_alike hd'').bind ?_
      rintro ⟨type, e, he⟩ ⟨type', e', he'⟩ ⟨htype, he''⟩
      obtain rfl : type = type' := htype
      refine (Reporting.Alike.quietly (expect_alike he'' .semicolon)).bind ?_
      rintro ⟨g, hg⟩ ⟨g', hg'⟩ hg''
      have hsize : g.size < n := by
        rw [← hn]
        exact Nat.lt_trans hg (Nat.lt_trans he (Nat.lt_trans hd (Nat.lt_succ_self _)))
      exact ih g.size hsize hg'' _ _ _ rfl
    | _ => exact .quietly (.error rfl)

theorem parseRecord_alike (h : c.tokens = c'.tokens) : Reporting.Alike
    (fun r r' => r.1 = r'.1 ∧ r.2.1 = r'.2.1 ∧ r.2.2.val.tokens = r'.2.2.val.tokens)
    (parseRecord ⟨lines, types⟩ c) (parseRecord ⟨lines', types⟩ c') := by
  unfold parseRecord
  refine (Reporting.Alike.quietly (expectIdent_alike h)).bind ?_
  rintro ⟨name, l, d, hd⟩ ⟨name', l', d', hd'⟩ ⟨hname, hd''⟩
  refine (Reporting.Alike.quietly (expect_alike hd'' .lbrace)).bind ?_
  rintro ⟨e, he⟩ ⟨e', he'⟩ he''
  refine (parseFields_alike he'' #[] _ _).bind ?_
  rintro ⟨fields, g⟩ ⟨fields', g'⟩ ⟨hfields, hg⟩
  exact .ofPure ⟨hname, congrArg Array.toList hfields, hg⟩

/-! ### Files -/

structure Parsed.Alike (p p' : Parsed) : Prop where
  file : p.file.unplaced = p'.file.unplaced
  types : p.types = p'.types
  diagnostics : SameReports p.diagnostics p'.diagnostics
  error : p.error.map ParseError.unplaced = p'.error.map ParseError.unplaced

/-- The message of an error does not mention the offset. -/
theorem ParseError.message_unplaced (e : ParseError) : e.unplaced.message = e.message := by
  obtain ⟨context, cause⟩ := e
  cases cause <;> rfl

theorem ParseError.diagnostic_same {e e' : ParseError} (h : e.unplaced = e'.unplaced)
    (lines lines' : LineTable) :
    (e.diagnostic lines).unplaced = (e'.diagnostic lines').unplaced := by
  have hmessage : e.message = e'.message := by
    rw [← e.message_unplaced, h, e'.message_unplaced]
  obtain ⟨context, cause⟩ := e
  obtain ⟨context', cause'⟩ := e'
  have hcause : cause.unplaced = cause'.unplaced := (ParseError.mk.inj h).2
  cases cause with
  | unexpected got want offset =>
    cases cause' with
    | unexpected got' want' offset' =>
      cases hcause
      rfl
    | _ => cases hcause
  | _ =>
    cases cause' with
    | unexpected => cases hcause
    | _ => exact congrArg (fun message => ({ message } : Diagnostic)) hmessage

section
variable {p p' : Parsed} (hp : p.Alike p')
include hp

theorem Parsed.Alike.stop {e e' : ParseError} (h : e.unplaced = e'.unplaced)
    (lines lines' : LineTable) : (p.stop lines e).Alike (p'.stop lines' e') := by
  refine ⟨hp.file, hp.types, ?_, congrArg some h⟩
  change (p.diagnostics.push _).map _ = (p'.diagnostics.push _).map _
  rw [Array.map_push, Array.map_push, hp.diagnostics, ParseError.diagnostic_same h lines lines']

theorem Parsed.Alike.define (pos pos' : Pos) (name : String) (fields : List (String × Ty)) :
    (p.define pos name fields).Alike (p'.define pos' name fields) := by
  obtain ⟨hname, htypedefs, hfunctions⟩ := File.mk.inj hp.file
  have htypes := hp.types
  unfold Parsed.define
  rw [htypes]
  dsimp only
  split
  · refine ⟨?_, rfl, hp.diagnostics, hp.error⟩
    rw [File.unplaced, File.unplaced]
    dsimp only
    rw [List.map_append, List.map_append, hname, htypedefs, hfunctions]
    rfl
  · refine ⟨hp.file, rfl, ?_, hp.error⟩
    change (p.diagnostics.push _).map _ = (p'.diagnostics.push _).map _
    rw [Array.map_push, Array.map_push, hp.diagnostics]
    rfl

theorem Parsed.Alike.function {f f' : Function} (h : SameFunction f f') :
    Parsed.Alike { p with file := { p.file with functions := p.file.functions ++ [f] } }
      { p' with file := { p'.file with functions := p'.file.functions ++ [f'] } } := by
  obtain ⟨hname, htypedefs, hfunctions⟩ := File.mk.inj hp.file
  refine ⟨?_, hp.types, hp.diagnostics, hp.error⟩
  rw [File.unplaced, File.unplaced]
  dsimp only
  rw [List.map_append, List.map_append, hname, htypedefs, hfunctions, List.map_singleton,
    List.map_singleton, h]

end

theorem parseItems_alike {p p' : Parsed} (h : c.tokens = c'.tokens) (hp : p.Alike p') :
    (parseItems lines p c).Alike (parseItems lines' p' c') := by
  induction hn : c.size using Nat.strongRecOn generalizing c c' p p' with
  | ind n ih =>
    obtain ⟨stop, ls⟩ := c
    obtain ⟨stop', ls'⟩ := c'
    unfold parseItems
    rcases lexemes_cases h with ⟨rfl, rfl⟩ | ⟨t, a, b, a', b', rest, rest', rfl, rfl, hrest⟩
    · exact hp
    have hnext : Cursor.tokens ⟨b, rest⟩ = Cursor.tokens ⟨b', rest'⟩ := hrest
    have hstop : (p.stop lines ⟨[], .unexpected t [.keyword .struct, .identifier] a⟩).Alike
        (p'.stop lines' ⟨[], .unexpected t [.keyword .struct, .identifier] a'⟩) := by
      refine hp.stop ?_ lines lines'
      rfl
    obtain ⟨file, types, ds, error⟩ := p
    obtain ⟨file', types', ds', error'⟩ := p'
    obtain rfl : types = types' := hp.types
    have hgone : ∀ {es es'}, SameReports es es' →
        Parsed.Alike ⟨file, types, es, error⟩ ⟨file', types, es', error'⟩ :=
      fun hes => ⟨hp.file, rfl, hes, hp.error⟩
    dsimp only
    cases t with
    | eof => exact hp
    | keyword k =>
      cases k with
      | struct =>
        have hrecord := @parseRecord_alike lines lines' types _ _ hnext
        obtain ⟨es, es', hes, ⟨r, r', hr, hr', hsame⟩ | ⟨e, e', hr, hr', he⟩⟩ :=
          hrecord.run_cases hp.diagnostics
        · dsimp only
          rw [hr, hr']
          obtain ⟨name, fields, d, hd⟩ := r
          obtain ⟨name', fields', d', hd'⟩ := r'
          obtain ⟨hname, hfields, hleft⟩ := hsame
          obtain rfl : name = name' := hname
          obtain rfl : fields = fields' := hfields
          have hlt : d.size < n := hn ▸ Nat.lt_succ_of_lt hd
          exact ih d.size hlt hleft ((hgone hes).define _ _ name fields) rfl
        · dsimp only
          rw [hr, hr']
          exact (hgone hes).stop (ParseError.within_unplaced he _) lines lines'
      | _ => exact hstop
    | ident name =>
      have hfunction := @parseFunction_alike lines lines' types _ _ hnext (lines.locate a)
        (lines'.locate a') name
      obtain ⟨es, es', hes, ⟨r, r', hr, hr', hsame⟩ | ⟨e, e', hr, hr', he⟩⟩ :=
        hfunction.run_cases hp.diagnostics
      · dsimp only
        rw [hr, hr']
        obtain ⟨f, d, hd⟩ := r
        obtain ⟨f', d', hd'⟩ := r'
        have hlt : d.size < n := hn ▸ Nat.lt_succ_of_lt hd
        exact ih d.size hlt hsame.2 ((hgone hes).function hsame.1) rfl
      · dsimp only
        rw [hr, hr']
        exact (hgone hes).stop (ParseError.within_unplaced he _) lines lines'
    | _ => exact hstop

/-- Texts with the same tokens are parsed alike: both or neither with an error, which is the same up to
its offset, and with the same tree, types and reports up to positions. -/
theorem parse_same_tokens {text text' : Bytes}
    (h : (Lexeme.scan text).map Lexeme.token = (Lexeme.scan text').map Lexeme.token) (name : String) :
    (parse name text).Alike (parse name text') :=
  parseItems_alike h ⟨rfl, rfl, rfl, rfl⟩

/-- A text with an unknown type and a value that is missing. -/
def crammed : Bytes := "f::()->t{x=;}".toList.map fun c => c.toNat.toUInt8

def airy : Bytes := "f :: ( ) -> t //c\n{ x = ; }".toList.map fun c => c.toNat.toUInt8

theorem parse_same_tokens_airy :
    (Lexeme.scan crammed).map Lexeme.token = (Lexeme.scan airy).map Lexeme.token ∧
    (parse "p" crammed).error.isSome ∧ (parse "p" crammed).diagnostics.size = 2 ∧
    (parse "p" crammed).diagnostics ≠ (parse "p" airy).diagnostics ∧
    (parse "p" crammed).Alike (parse "p" airy) := by
  have htokens : decide ((Lexeme.scan crammed).map Lexeme.token =
      (Lexeme.scan airy).map Lexeme.token) = true := by
    decide +kernel
  have hfails : ((parse "p" crammed).error.isSome &&
      (parse "p" crammed).diagnostics.size == 2) = true := by
    decide +kernel
  have hplaces : ((parse "p" crammed).diagnostics == (parse "p" airy).diagnostics) = false := by
    decide +kernel
  obtain ⟨herror, hsize⟩ := Bool.and_eq_true_iff.mp hfails
  exact ⟨of_decide_eq_true htokens, herror, beq_iff_eq.mp hsize, beq_eq_false_iff_ne.mp hplaces,
    parse_same_tokens (of_decide_eq_true htokens) "p"⟩

end Parser

end RegisterLang
