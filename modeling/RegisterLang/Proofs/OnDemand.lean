import RegisterLang.Proofs.Offsets
import RegisterLang.Proofs.Positions
import RegisterLang.Proofs.ReadingFiles

/-!
# The parser on demand

The parser asks for the next token from an offset whenever it needs one, and goes back to an offset
where it has only looked ahead. Here every rule does so by itself, with no list of tokens that gets
shorter: a rule has no result where the lexer has none, where it looks for a line that is not in the
table, and where it calls itself without an end. Every text has a result all the same, and it is the one
that is parsed from the list of its tokens. The token that an error names starts in the text or at
its end.
-/
namespace RegisterLang

namespace Source

/-- The number of lines that start up to `i`, by a search that looks at entries of the table only. -/
def LineTable.countUpTo? (t : LineTable) (i : Int) (lo hi : Nat) : Option Nat := do
  if lo < hi then
    let entry ← t.starts[(lo + hi) / 2]?
    if i < entry then t |>.countUpTo? i lo ((lo + hi) / 2)
    else t |>.countUpTo? i ((lo + hi) / 2 + 1) hi
  else return lo
partial_fixpoint

def LineTable.locate? (t : LineTable) (offset : Int) : Option Pos := do
  let line := (← t.countUpTo? offset 0 t.starts.size) - 1
  let start ← t.starts[line]?
  return ⟨line + 1, offset - start + 1⟩

theorem getElem?_eq_getD {table : Array Nat} {k : Nat} (h : k < table.size) :
    table[k]? = some (table.getD k 0) := by
  simp [h]

theorem countUpTo?_eq {t : LineTable} (i : Int) {lo hi : Nat} (h : hi ≤ t.starts.size) :
    t.countUpTo? i lo hi = some (countUpTo t.starts i lo hi) := by
  fun_induction countUpTo t.starts i lo hi with
  | case1 lo hi hlt mid hentry ih =>
    rw [LineTable.countUpTo?, if_pos hlt, getElem?_eq_getD (by omega)]
    exact (if_pos hentry).trans (ih (by omega))
  | case2 lo hi hlt mid hentry ih =>
    rw [LineTable.countUpTo?, if_pos hlt, getElem?_eq_getD (by omega)]
    exact (if_neg hentry).trans (ih h)
  | case3 lo hi hlt =>
    rw [LineTable.countUpTo?, if_neg hlt]
    rfl

theorem countUpTo_le (table : Array Nat) (i : Int) {lo hi : Nat} (h : lo ≤ hi) :
    countUpTo table i lo hi ≤ hi := by
  fun_induction countUpTo table i lo hi with
  | case1 lo hi hlt mid hentry ih => exact Nat.le_trans (ih (by omega)) (by omega)
  | case2 lo hi hlt mid hentry ih => exact ih (by omega)
  | case3 lo hi hlt => exact h

/-- A table that holds a line has the line of every offset. -/
theorem locate?_eq {t : LineTable} (h : 0 < t.starts.size) (offset : Int) :
    t.locate? offset = some (t.locate offset) := by
  have hcount := countUpTo_le t.starts offset (Nat.zero_le t.starts.size)
  rw [LineTable.locate?, countUpTo?_eq offset (Nat.le_refl _), LineTable.locate]
  dsimp only [Option.bind_eq_bind, Option.bind_some]
  rw [getElem?_eq_getD (by omega)]
  rfl

end Source

namespace Parser
open Text Number Source

/-- What a rule gives if it has a result: a value or an error, and the reports. -/
abbrev Demand (α : Type) := ExceptT ParseError (StateT (Array Diagnostic) Option) α

namespace Demand

def ofOption {α : Type} (o : Option α) : Demand α := ExceptT.lift (StateT.lift o)

def ofResult {α : Type} (r : Result α) : Demand α := ExceptT.mk (pure r)

def token (text : Bytes) (i : Nat) : Demand Lexeme := ofOption (Lexeme.next? text i)

def locate (lines : LineTable) (offset : Nat) : Demand Pos := ofOption (lines.locate? offset)

def record (d : Diagnostic) : Demand Unit := modify fun ds => ds.push d

abbrev within {α : Type} (c : Context) (m : Demand α) : Demand α :=
  bind (m := StateT (Array Diagnostic) Option) m.run fun r => pure (Result.inside c r)

end Demand

def ParseError.diagnostic? (lines : LineTable) (e : ParseError) : Option Diagnostic :=
  match e.cause with
  | .unexpected got want offset => do
    let pos ← lines.locate? offset
    return ⟨"unexpected symbol", pos, wishes want, got.describe⟩
  | _ => some { message := e.message }

def Parsed.stop? (lines : LineTable) (p : Parsed) (e : ParseError) : Option Parsed := do
  let d ← e.diagnostic? lines
  return { p with error := some e, diagnostics := p.diagnostics.push d }

end Parser

namespace Text.Bytes
open RegisterLang.Parser Demand Source

def expect? (text : Bytes) (p : Punct) (i : Nat) : Demand Nat := do
  let l ← token text i
  if l.token = .punct p then return l.stop else ofResult (unexpected l [.punct p])

def expectIdent? (text : Bytes) (i : Nat) : Demand (String × Lexeme) := do
  let l ← token text i
  match l.token with
  | .ident name => return (name, l)
  | _ => ofResult (unexpected l [.identifier])

mutual

def parseExpr? (text : Bytes) (lines : LineTable) (prec : Nat) (i : Nat) : Demand (Expr × Nat) := do
  let (x, j) ← text |>.parseUnary? lines i
  text |>.parseOperators? lines prec x j
partial_fixpoint

def parseOperators? (text : Bytes) (lines : LineTable) (prec : Nat) (x : Expr) (i : Nat) :
    Demand (Expr × Nat) := do
  let l ← token text i
  match tighterOp? prec l.token with
  | none => return (x, i)
  | some (op, oprec) =>
    let (y, j) ← within (.rhs op) (text |>.parseExpr? lines oprec l.stop)
    let pos ← locate lines l.start
    text |>.parseOperators? lines prec (.op pos none op true x y) j
partial_fixpoint

def parseUnary? (text : Bytes) (lines : LineTable) (i : Nat) : Demand (Expr × Nat) := do
  let l ← token text i
  if l.token = .punct .minus then
    let (x, j) ← text |>.parseUnary? lines l.stop
    let pos ← locate lines l.start
    return (negate pos x, j)
  else text |>.parsePrimary? lines i
partial_fixpoint

def parsePrimary? (text : Bytes) (lines : LineTable) (i : Nat) : Demand (Expr × Nat) := do
  let l ← token text i
  let pos ← locate lines l.start
  match literal? pos l.token with
  | some literal =>
    let x ← ofResult literal
    return (x, l.stop)
  | none =>
    match l.token with
    | .ident name =>
      let l' ← token text l.stop
      if l'.token = .punct .lparen then
        let (args, j) ← text |>.parseArgs? lines #[] l'.stop
        return (.call pos none name none args.toList, j)
      else return (.ident pos none name, l.stop)
    | .punct .lparen =>
      let (x, j) ← text |>.parseExpr? lines 0 l.stop
      let k ← expect? text .rparen j
      return (x, k)
    | _ => ofResult (unexpected l [.number, .identifier, .punct .lparen])
partial_fixpoint

def parseArgs? (text : Bytes) (lines : LineTable) (args : Array Expr) (i : Nat) :
    Demand (Array Expr × Nat) := do
  let l ← token text i
  if l.token = .punct .rparen then return (args, l.stop)
  else if args.isEmpty then
    let (x, j) ← within (.arg 0) (text |>.parseExpr? lines 0 i)
    text |>.parseArgs? lines #[x] j
  else if l.token = .punct .comma then
    let (x, j) ← within (.arg args.size) (text |>.parseExpr? lines 0 l.stop)
    text |>.parseArgs? lines (args.push x) j
  else ofResult (unexpected l [.punct .comma, .punct .rparen])
partial_fixpoint

end

def parseType? (text : Bytes) (s : Scope) (i : Nat) : Demand (Option Ty × Nat) := do
  let (name, l) ← expectIdent? text i
  match s.types.get? name with
  | some t => return (some t, l.stop)
  | none =>
    let pos ← locate s.lines l.start
    record ⟨"unknown type", pos, "type name", name⟩
    return (none, l.stop)

def parseReturn? (text : Bytes) (s : Scope) (pos : Pos) (i : Nat) : Demand (Stmt × Nat) := do
  let l ← token text i
  if l.token = .punct .semicolon then return (.ret pos .missing, l.stop)
  else
    let (x, j) ← within .ret (parseExpr? text s.lines 0 i)
    let k ← expect? text .semicolon j
    return (.ret pos x, k)

def parseInit? (text : Bytes) (s : Scope) (name : String) (i : Nat) : Demand (Expr × Nat) := do
  let l ← token text i
  if l.token = .punct .assign then within (.init name) (parseExpr? text s.lines 0 l.stop)
  else return (.missing, i)

def parseNamed? (text : Bytes) (s : Scope) (pos : Pos) (name : String) (i : Nat) :
    Demand (Stmt × Nat) := do
  let l ← token text i
  match l.token with
  | .punct .colon =>
    let (type, j) ← parseType? text s l.stop
    let (init, k) ← parseInit? text s name j
    return (.var { pos, name, type, init }, k)
  | .punct .declare =>
    let (init, j) ← within (.init name) (parseExpr? text s.lines 0 l.stop)
    return (.var { pos, name, init }, j)
  | .punct .assign =>
    let (x, j) ← within (.assign name) (parseExpr? text s.lines 0 l.stop)
    return (.assign pos name none x, j)
  | .punct .lparen =>
    let (args, j) ← parseArgs? text s.lines #[] l.stop
    return (.expr pos (.call pos none name none args.toList), j)
  | _ => ofResult (unexpected l [.punct .colon, .punct .declare, .punct .assign, .punct .lparen])

mutual

def parseBlock? (text : Bytes) (s : Scope) (i : Nat) : Demand (Block × Nat) := do
  let j ← expect? text .lbrace i
  let (body, k) ← text |>.parseStmts? s #[] j
  return (body.toList, k)
partial_fixpoint

def parseStmts? (text : Bytes) (s : Scope) (body : Array Stmt) (i : Nat) :
    Demand (Array Stmt × Nat) := do
  let l ← token text i
  if l.token = .punct .rbrace then return (body, l.stop)
  else if l.token = .punct .semicolon then text |>.parseStmts? s body l.stop
  else if l.token = .eof then ofResult (unexpected l [.punct .rbrace])
  else
    let (x, j) ← text |>.parseStmt? s i
    text |>.parseStmts? s (body.push x) j
partial_fixpoint

def parseStmt? (text : Bytes) (s : Scope) (i : Nat) : Demand (Stmt × Nat) := do
  let l ← token text i
  match l.token with
  | .keyword .ret =>
    let pos ← locate s.lines l.start
    parseReturn? text s pos l.stop
  | .keyword .cond =>
    let pos ← locate s.lines l.start
    text |>.parseCond? s pos l.stop
  | .ident name =>
    let pos ← locate s.lines l.start
    let (x, j) ← parseNamed? text s pos name l.stop
    let k ← expect? text .semicolon j
    return (x, k)
  | _ => ofResult (unexpected l [.keyword .ret, .keyword .cond, .identifier])
partial_fixpoint

def parseCond? (text : Bytes) (s : Scope) (pos : Pos) (i : Nat) : Demand (Stmt × Nat) := do
  let (test, j) ← within .condition (parseExpr? text s.lines 0 i)
  if !isCondition test then ofResult (notCondition j)
  else
    let (body, k) ← text |>.parseBlock? s j
    let (more, m) ← text |>.parseElse? s k
    return (.cond pos test body more, m)
partial_fixpoint

def parseElse? (text : Bytes) (s : Scope) (i : Nat) : Demand (Option Block × Nat) := do
  let l ← token text i
  if l.token ≠ .keyword .otherwise then return (none, i)
  else
    let l' ← token text l.stop
    if l'.token = .keyword .cond then
      let pos ← locate s.lines l'.start
      let (more, j) ← text |>.parseCond? s pos l'.stop
      return (some [more], j)
    else
      let (more, j) ← text |>.parseBlock? s l.stop
      return (some more, j)
partial_fixpoint

end

def parseParams? (text : Bytes) (s : Scope) (params : Array Var) (i : Nat) :
    Demand (Array Var × Nat) := do
  let l ← token text i
  if l.token = .punct .rparen then return (params, l.stop)
  else if !params.isEmpty && l.token ≠ .punct .comma then
    ofResult (unexpected l [.punct .comma, .punct .rparen])
  else
    let (name, l') ← expectIdent? text (if params.isEmpty then i else l.stop)
    let j ← expect? text .colon l'.stop
    let (type, k) ← parseType? text s j
    let pos ← locate s.lines l'.start
    text |>.parseParams? s (params.push { pos, name, nameType := type, type }) k
partial_fixpoint

def parseRet? (text : Bytes) (s : Scope) (i : Nat) : Demand (Ty × Nat) := do
  let l ← token text i
  if l.token = .punct .arrow then
    let (type, j) ← parseType? text s l.stop
    return (type.getD .void, j)
  else return (.void, i)

def parseFunction? (text : Bytes) (s : Scope) (pos : Pos) (name : String) (i : Nat) :
    Demand (Function × Nat) := do
  let d ← expect? text .define i
  let e ← expect? text .lparen d
  let (params, g) ← parseParams? text s #[] e
  let (ret, r) ← parseRet? text s g
  let (body, b) ← parseBlock? text s r
  return ({ pos, name, params := params.toList, ret := some ret, body }, b)

def parseFields? (text : Bytes) (s : Scope) (fields : Array (String × Ty)) (i : Nat) :
    Demand (Array (String × Ty) × Nat) := do
  let l ← token text i
  match l.token with
  | .punct .rbrace => return (fields, l.stop)
  | .ident name =>
    let d ← expect? text .colon l.stop
    let (type, e) ← parseType? text s d
    let g ← expect? text .semicolon e
    text |>.parseFields? s (match type with
      | some t => fields.push (name, t)
      | none => fields) g
  | _ => ofResult (unexpected l [.identifier, .punct .rbrace])
partial_fixpoint

def parseRecord? (text : Bytes) (s : Scope) (i : Nat) :
    Demand (String × List (String × Ty) × Nat) := do
  let (name, l) ← expectIdent? text i
  let e ← expect? text .lbrace l.stop
  let (fields, g) ← parseFields? text s #[] e
  return (name, fields.toList, g)

def parseItems? (text : Bytes) (lines : LineTable) (p : Parsed) (i : Nat) : Option Parsed := do
  let l ← Lexeme.next? text i
  match l.token with
  | .eof => return p
  | .keyword .struct =>
    let pos ← lines.locate? l.start
    match ← (parseRecord? text ⟨lines, p.types⟩ l.stop).run.run p.diagnostics with
    | (.ok (name, fields, j), diagnostics) =>
      text |>.parseItems? lines ({ p with diagnostics }.define pos name fields) j
    | (.error e, diagnostics) => ({ p with diagnostics } : Parsed).stop? lines (e.within .typedef)
  | .ident name =>
    let pos ← lines.locate? l.start
    match ← (parseFunction? text ⟨lines, p.types⟩ pos name l.stop).run.run p.diagnostics with
    | (.ok (f, j), diagnostics) =>
      text |>.parseItems? lines
        { p with diagnostics, file := { p.file with functions := p.file.functions ++ [f] } } j
    | (.error e, diagnostics) => ({ p with diagnostics } : Parsed).stop? lines (e.within (.func name))
  | _ => p.stop? lines ⟨[], .unexpected l.token [.keyword .struct, .identifier] l.start⟩
partial_fixpoint

end Text.Bytes

namespace Parser
open Text Bytes Number Source Demand

def parse? (name : String) (text : Bytes) : Option Parsed :=
  parseItems? text (LineTable.ofText text) ⟨{ name }, {}, #[], none⟩ 0

/-! ### Both parsers -/

variable {text : Bytes}

def ParseError.StartsWithin (text : Bytes) (e : ParseError) : Prop :=
  ∀ got want offset, e.cause = .unexpected got want offset → offset ≤ text.length

/-- What comes of a rule on demand and of the same rule on a list of tokens: values that `R` relates,
or the same error, and the same reports. -/
inductive Coincide (text : Bytes) {α β : Type} (R : α → β → Prop) :
    Option (Except ParseError α × Array Diagnostic) → Except ParseError β × Array Diagnostic → Prop
  | ok {a : α} {b : β} {ds : Array Diagnostic} : R a b → Coincide text R (some (.ok a, ds)) (.ok b, ds)
  | error {e : ParseError} {ds : Array Diagnostic} : e.StartsWithin text →
      Coincide text R (some (.error e, ds)) (.error e, ds)

/-- A rule on demand has a result, the one of the rule on a list of tokens. -/
def Runs (text : Bytes) {α β : Type} (R : α → β → Prop) (m : Demand α) (r : Reporting β) : Prop :=
  ∀ ds, Coincide text R (m.run.run ds) (r.run.run ds)

namespace Runs
variable {α α' β β' : Type} {R : α → α' → Prop} {Q : β → β' → Prop} {m : Demand α} {r : Reporting α'}

theorem bind {f : α → Demand β} {g : α' → Reporting β'} (h : Runs text R m r)
    (hf : ∀ a b, R a b → Runs text Q (f a) (g b)) : Runs text Q (m >>= f) (r >>= g) := by
  intro ds
  have hm := h ds
  rw [ExceptT.run_bind, StateT.run_bind, ExceptT.run_bind, StateT.run_bind]
  generalize m.run.run ds = o at hm
  generalize r.run.run ds = q at hm
  cases hm with
  | ok hab => exact hf _ _ hab _
  | error he => exact .error he

theorem ofPure {a : α} {b : α'} (h : R a b) : Runs text R (pure a) (pure b) := fun _ => .ok h

theorem ofOk {a : α} {b : α'} (h : R a b) : Runs text R (pure a) (quietly (.ok b)) := fun _ => .ok h

/-- A rule that reports nothing goes on as one that may. -/
theorem bindQuiet {q : Result α'} {f : α → Demand β} {g : α' → Result β'}
    (h : Runs text R m (quietly q)) (hf : ∀ a b, R a b → Runs text Q (f a) (quietly (g b))) :
    Runs text Q (m >>= f) (quietly (q >>= g)) := by
  have hquietly : quietly (q >>= g) = quietly q >>= fun b => quietly (g b) := by
    cases q <;> rfl
  rw [hquietly]
  exact h.bind hf

theorem within {q : Result α'} (h : Runs text R m (quietly q)) (c : Context) :
    Runs text R (Demand.within c m) (quietly (q.inside c)) := by
  intro ds
  have hm := h ds
  change Coincide text R (m.run.run ds >>= fun o => some (Result.inside c o.1, o.2)) (q.inside c, ds)
  generalize m.run.run ds = o at hm
  cases hq : q with
  | ok b =>
    rw [hq] at hm
    cases hm with
    | ok hab => exact .ok hab
  | error e =>
    rw [hq] at hm
    cases hm with
    | error he => exact .error he

theorem unexpected {l : Lexeme} (h : l.start ≤ text.length) (want : List Wanted) :
    Runs text R (ofResult (Parser.unexpected l want)) (quietly (Parser.unexpected l want)) := by
  intro ds
  refine .error fun got want offset hcause => ?_
  cases hcause
  exact h

theorem ofResult {q : Result α} (h : ∀ e, q = .error e → e.StartsWithin text) :
    Runs text (· = ·) (Demand.ofResult q) (quietly q) := by
  intro ds
  cases hq : q with
  | ok a => exact .ok rfl
  | error e => exact .error (h e hq)

theorem record (d : Diagnostic) : Runs text (fun _ _ => True) (Demand.record d) (report d) :=
  fun _ => .ok trivial

end Runs

def lexemesFrom (text : Bytes) (i : Nat) : List Lexeme :=
  (Lexeme.scanFrom #[] i (text.drop i)).toList

/-- A cursor whose tokens are those from an offset on. -/
structure Stands (text : Bytes) (i : Nat) (c : Cursor) : Prop where
  le : i ≤ text.length
  stop : c.stop = i
  rest : c.rest = lexemesFrom text i

theorem toList_scanFrom (acc : Array Lexeme) (offset : Nat) (bs : Bytes) :
    (Lexeme.scanFrom acc offset bs).toList =
      acc.toList ++ (Lexeme.scanFrom #[] offset bs).toList := by
  induction hn : bs.length using Nat.strongRecOn generalizing acc offset bs with
  | ind n ih =>
    rw [Lexeme.scanFrom_eq, Lexeme.scanFrom_eq #[]]
    by_cases heof : (Lexeme.next offset bs).1.token = .eof
    · rw [if_pos heof, if_pos heof]
      simp
    · have hlength := Lexeme.next_length offset bs heof
      rw [if_neg heof, if_neg heof, ih _ (by omega) _ _ _ rfl, ih _ (by omega) (#[].push _) _ _ rfl]
      simp

theorem locate_eq {lines : LineTable} (h : 0 < lines.starts.size) (offset : Nat) :
    locate lines offset = pure (lines.locate offset) := by
  rw [locate, locate?_eq h]
  rfl

/-- The lexer gives the next token of the list, and goes on where that ends. -/
theorem Stands.next {i stop : Nat} {ls : List Lexeme} (h : Stands text i ⟨stop, ls⟩) :
    ∃ l rest, ls = l :: rest ∧ Lexeme.next? text i = some l ∧ l.start ≤ text.length ∧
      (l.token ≠ .eof → Stands text l.stop ⟨l.stop, rest⟩) := by
  obtain ⟨hle, rfl, hrest⟩ := h
  have hspans := Lexeme.next_spans hle
  have hstart := Nat.le_trans hspans.ordered hspans.inside
  change ls = lexemesFrom text stop at hrest
  rw [lexemesFrom, Lexeme.scanFrom_eq] at hrest
  by_cases heof : (Lexeme.next stop (text.drop stop)).1.token = .eof
  · rw [if_pos heof] at hrest
    exact ⟨_, [], hrest, Lexeme.next?_eq hle, hstart, fun hne => absurd heof hne⟩
  · rw [if_neg heof, toList_scanFrom, Lexeme.next_rest hle] at hrest
    exact ⟨_, _, hrest, Lexeme.next?_eq hle, hstart, fun _ => ⟨hspans.inside, rfl, rfl⟩⟩

theorem Stands.token {i stop : Nat} {ls : List Lexeme} (h : Stands text i ⟨stop, ls⟩) :
    ∃ l rest, ls = l :: rest ∧ token text i = pure l ∧ l.start ≤ text.length ∧
      (l.token ≠ .eof → Stands text l.stop ⟨l.stop, rest⟩) := by
  obtain ⟨l, rest, hls, hnext, hafter⟩ := h.next
  refine ⟨l, rest, hls, ?_, hafter⟩
  rw [Demand.token, hnext]
  rfl

theorem Runs.notCondition {α β : Type} {R : α → β → Prop} {i : Nat} {c : Cursor} (h : Stands text i c) :
    Runs text R (Demand.ofResult (Parser.notCondition i)) (quietly (Parser.notCondition c.stop)) := by
  rw [h.stop]
  intro ds
  refine .error fun got want offset hcause => ?_
  cases hcause
  exact h.le

def Lands (text : Bytes) {α : Type} {n : Nat} (p : α × Nat) (q : α × Cursor.Below n) : Prop :=
  p.1 = q.1 ∧ Stands text p.2 q.2.val

section
variable {i : Nat} {c : Cursor} (h : Stands text i c)
include h

theorem expect_runs (p : Punct) :
    Runs text (fun j d => Stands text j d.val) (expect? text p i) (quietly (expect p c)) := by
  obtain ⟨stop, ls⟩ := c
  obtain ⟨l, rest, rfl, htoken, hstart, hnext⟩ := h.token
  rw [expect?, htoken, pure_bind, expect]
  dsimp only
  by_cases hl : l.token = .punct p
  · rw [if_pos hl, if_pos hl]
    exact .ofOk (hnext (by simp [hl]))
  · rw [if_neg hl, if_neg hl]
    exact .unexpected hstart _

theorem expectIdent_runs :
    Runs text (fun a b => a.1 = b.1 ∧ a.2 = b.2.1 ∧ Stands text a.2.stop b.2.2.val)
      (expectIdent? text i) (quietly (expectIdent c)) := by
  obtain ⟨stop, ls⟩ := c
  obtain ⟨l, rest, rfl, htoken, hstart, hnext⟩ := h.token
  rw [expectIdent?, htoken, pure_bind, expectIdent]
  obtain ⟨t, start, stop⟩ := l
  cases t with
  | ident name => exact .ofOk ⟨rfl, rfl, hnext (by simp)⟩
  | _ => exact .unexpected hstart _

end

/-- An error in a number names no token. -/
theorem readNumber_startsWithin (pos : Pos) (n : Bytes) :
    ∀ e, readNumber pos n = .error e → e.StartsWithin text := by
  intro e he got want offset hcause
  unfold readNumber at he
  dsimp only at he
  -- a number is read in one of five ways, each with an error of its own
  split_ifs at he
  all_goals
    split at he
    · cases he
    · cases he
      cases hcause

theorem literal?_inside {pos : Pos} {t : Token} {r : Result Expr} (h : literal? pos t = some r) :
    ∀ e, r = .error e → e.StartsWithin text := by
  cases t with
  | number n =>
    cases h
    exact readNumber_startsWithin pos n
  | string value =>
    cases h
    nofun
  | char value =>
    cases h
    nofun
  | _ => cases h

structure ExprsRun (text : Bytes) (lines : LineTable) (i : Nat) (c : Cursor) : Prop where
  primary : Runs text (Lands text) (parsePrimary? text lines i) (quietly (parsePrimary lines c))
  unary : Runs text (Lands text) (parseUnary? text lines i) (quietly (parseUnary lines c))
  operators : ∀ prec x bound hc, Runs text (Lands text) (parseOperators? text lines prec x i)
    (quietly (parseOperators lines prec x bound c hc))
  expr : ∀ prec, Runs text (Lands text) (parseExpr? text lines prec i)
    (quietly (parseExpr lines prec c))
  args : ∀ args bound hc, Runs text (Lands text) (parseArgs? text lines args i)
    (quietly (parseArgs lines args bound c hc))

section
variable {lines : LineTable} (hlines : 0 < lines.starts.size) {i : Nat} {c : Cursor}
  (h : Stands text i c)
  (ih : ∀ j (d : Cursor), d.size < c.size → Stands text j d → ExprsRun text lines j d)
include hlines h ih

theorem parsePrimary_runs :
    Runs text (Lands text) (parsePrimary? text lines i) (quietly (parsePrimary lines c)) := by
  obtain ⟨stop, ls⟩ := c
  obtain ⟨l, rest, rfl, htoken, hstart, hnext⟩ := h.token
  rw [parsePrimary?, htoken, pure_bind, locate_eq hlines, pure_bind, parsePrimary]
  obtain ⟨t, start, stop'⟩ := l
  dsimp only
  cases hliteral : literal? (lines.locate start) t with
  | some literal =>
    have hne : t ≠ .eof := by
      rintro rfl
      cases hliteral
    exact (Runs.ofResult (literal?_inside hliteral)).bindQuiet fun x y hxy => .ofOk ⟨hxy, hnext hne⟩
  | none =>
    dsimp only
    cases t with
    | ident name =>
      have hafter := hnext (by simp)
      obtain ⟨l', rest', rfl, htoken', -, hnext'⟩ := hafter.token
      dsimp only at htoken' ⊢
      rw [htoken', pure_bind]
      by_cases hl' : l'.token = .punct .lparen
      · rw [if_pos hl', if_pos hl']
        have hargs := (ih l'.stop ⟨l'.stop, rest'⟩ (Nat.lt_succ_of_lt (Nat.lt_succ_self _))
          (hnext' (by simp [hl']))).args #[]
        refine (hargs _ _).bindQuiet ?_
        rintro ⟨args, j⟩ ⟨args', d⟩ ⟨rfl, hstands⟩
        exact .ofOk ⟨rfl, hstands⟩
      · rw [if_neg hl', if_neg hl']
        exact .ofOk ⟨rfl, hafter⟩
    | punct p =>
      cases p with
      | lparen =>
        refine ((ih stop' ⟨stop', rest⟩ (Nat.lt_succ_self _) (hnext (by simp))).expr 0).bindQuiet ?_
        rintro ⟨x, j⟩ ⟨y, d, hd⟩ ⟨rfl, hstands⟩
        exact (expect_runs hstands .rparen).bindQuiet fun k e he => .ofOk ⟨rfl, he⟩
      | _ => exact .unexpected hstart _
    | _ => exact .unexpected hstart _

theorem parseUnary_runs :
    Runs text (Lands text) (parseUnary? text lines i) (quietly (parseUnary lines c)) := by
  have hprimary := parsePrimary_runs hlines h ih
  obtain ⟨stop, ls⟩ := c
  obtain ⟨l, rest, rfl, htoken, hstart, hnext⟩ := h.token
  rw [parseUnary?, htoken, pure_bind, parseUnary]
  dsimp only
  by_cases hl : l.token = .punct .minus
  · rw [if_pos hl, if_pos hl]
    have hafter := hnext (by simp [hl])
    refine (ih l.stop ⟨l.stop, rest⟩ (Nat.lt_succ_self _) hafter).unary.bindQuiet ?_
    rintro ⟨x, j⟩ ⟨y, d, hd⟩ ⟨rfl, hstands⟩
    dsimp only
    rw [locate_eq hlines, pure_bind]
    exact .ofOk ⟨rfl, hstands⟩
  · rw [if_neg hl, if_neg hl]
    exact hprimary

theorem parseOperators_runs (prec : Nat) (x : Expr) (bound : Nat) (hc : c.size < bound) :
    Runs text (Lands text) (parseOperators? text lines prec x i)
      (quietly (parseOperators lines prec x bound c hc)) := by
  obtain ⟨stop, ls⟩ := c
  obtain ⟨l, rest, rfl, htoken, hstart, hnext⟩ := h.token
  rw [parseOperators?, htoken, pure_bind, parseOperators]
  dsimp only
  cases hop : tighterOp? prec l.token with
  | none => exact .ofOk ⟨rfl, h⟩
  | some o =>
    obtain ⟨op, oprec⟩ := o
    obtain ⟨p, hp, -⟩ := tighterOp?_eq_some hop
    have hafter := hnext (by simp [hp])
    dsimp only
    refine (((ih l.stop ⟨l.stop, rest⟩ (Nat.lt_succ_self _) hafter).expr oprec).within _).bindQuiet ?_
    rintro ⟨y, j⟩ ⟨y', d, hd⟩ ⟨rfl, hstands⟩
    dsimp only
    rw [locate_eq hlines, pure_bind]
    exact (ih j d (Nat.lt_succ_of_lt hd) hstands).operators prec _ bound _

theorem parseExpr_runs (prec : Nat) :
    Runs text (Lands text) (parseExpr? text lines prec i) (quietly (parseExpr lines prec c)) := by
  rw [parseExpr?, parseExpr]
  refine (parseUnary_runs hlines h ih).bindQuiet ?_
  rintro ⟨x, j⟩ ⟨x', d, hd⟩ ⟨rfl, hstands⟩
  exact (ih j d hd hstands).operators prec _ c.size hd

theorem parseArgs_runs (args : Array Expr) (bound : Nat) (hc : c.size < bound) :
    Runs text (Lands text) (parseArgs? text lines args i)
      (quietly (parseArgs lines args bound c hc)) := by
  have hexpr := parseExpr_runs hlines h ih 0
  obtain ⟨stop, ls⟩ := c
  obtain ⟨l, rest, rfl, htoken, hstart, hnext⟩ := h.token
  rw [parseArgs?, htoken, pure_bind, parseArgs]
  dsimp only
  by_cases hclose : l.token = .punct .rparen
  · rw [if_pos hclose, if_pos hclose]
    exact .ofOk ⟨rfl, hnext (by simp [hclose])⟩
  rw [if_neg hclose, if_neg hclose]
  by_cases hfirst : args.isEmpty = true
  · rw [if_pos hfirst, if_pos hfirst]
    refine (hexpr.within _).bindQuiet ?_
    rintro ⟨x, j⟩ ⟨x', d, hd⟩ ⟨rfl, hstands⟩
    exact (ih j d hd hstands).args _ bound _
  rw [if_neg hfirst, if_neg hfirst]
  by_cases hcomma : l.token = .punct .comma
  · rw [if_pos hcomma, if_pos hcomma]
    have hafter := hnext (by simp [hcomma])
    refine (((ih l.stop ⟨l.stop, rest⟩ (Nat.lt_succ_self _) hafter).expr 0).within _).bindQuiet ?_
    rintro ⟨x, j⟩ ⟨x', d, hd⟩ ⟨rfl, hstands⟩
    exact (ih j d (Nat.lt_succ_of_lt hd) hstands).args _ bound _
  · rw [if_neg hcomma, if_neg hcomma]
    exact .unexpected hstart _

end

/-- The rules for expressions on demand take the tokens of the list. -/
theorem exprsRun {lines : LineTable} (hlines : 0 < lines.starts.size) {i : Nat} {c : Cursor}
    (h : Stands text i c) : ExprsRun text lines i c := by
  induction hn : c.size using Nat.strongRecOn generalizing i c with
  | ind n ih =>
    have hnext : ∀ j (d : Cursor), d.size < c.size → Stands text j d → ExprsRun text lines j d :=
      fun j d hd hstands => ih d.size (by omega) hstands rfl
    exact ⟨parsePrimary_runs hlines h hnext, parseUnary_runs hlines h hnext,
      parseOperators_runs hlines h hnext, parseExpr_runs hlines h hnext,
      parseArgs_runs hlines h hnext⟩

section
variable {s : Scope} (hlines : 0 < s.lines.starts.size) {i : Nat} {c : Cursor} (h : Stands text i c)
include hlines h

theorem parseType_runs : Runs text (Lands text) (parseType? text s i) (parseType s c) := by
  unfold parseType? parseType
  refine (expectIdent_runs h).bind ?_
  rintro ⟨name, l⟩ ⟨name', l', d⟩ ⟨rfl, rfl, hstands⟩
  dsimp only
  cases s.types.get? name with
  | some t => exact .ofPure ⟨rfl, hstands⟩
  | none =>
    dsimp only
    rw [locate_eq hlines, pure_bind]
    exact (Runs.record _).bind fun _ _ _ => .ofPure ⟨rfl, hstands⟩

theorem parseReturn_runs (pos : Pos) :
    Runs text (Lands text) (parseReturn? text s pos i) (quietly (parseReturn s pos c)) := by
  have hexpr := (exprsRun hlines h).expr 0
  obtain ⟨stop, ls⟩ := c
  obtain ⟨l, rest, rfl, htoken, hstart, hnext⟩ := h.token
  rw [parseReturn?, htoken, pure_bind, parseReturn]
  dsimp only
  by_cases hl : l.token = .punct .semicolon
  · rw [if_pos hl, if_pos hl]
    exact .ofOk ⟨rfl, hnext (by simp [hl])⟩
  · rw [if_neg hl, if_neg hl]
    refine (hexpr.within _).bindQuiet ?_
    rintro ⟨x, j⟩ ⟨x', d, hd⟩ ⟨rfl, hstands⟩
    exact (expect_runs hstands _).bindQuiet fun k e he => .ofOk ⟨rfl, he⟩

theorem parseInit_runs (name : String) (bound : Nat) (hc : c.size < bound) :
    Runs text (Lands text) (parseInit? text s name i) (quietly (parseInit s name bound c hc)) := by
  obtain ⟨stop, ls⟩ := c
  obtain ⟨l, rest, rfl, htoken, hstart, hnext⟩ := h.token
  rw [parseInit?, htoken, pure_bind, parseInit]
  dsimp only
  by_cases hl : l.token = .punct .assign
  · rw [if_pos hl, if_pos hl, ← bind_pure (Demand.within _ _)]
    refine (((exprsRun hlines (hnext (by simp [hl]))).expr 0).within _).bindQuiet ?_
    rintro ⟨x, j⟩ ⟨x', d, hd⟩ ⟨rfl, hstands⟩
    exact .ofOk ⟨rfl, hstands⟩
  · rw [if_neg hl, if_neg hl]
    exact .ofOk ⟨rfl, h⟩

theorem parseNamed_runs (pos : Pos) (name : String) :
    Runs text (Lands text) (parseNamed? text s pos name i) (parseNamed s pos name c) := by
  obtain ⟨stop, ls⟩ := c
  obtain ⟨l, rest, rfl, htoken, hstart, hnext⟩ := h.token
  rw [parseNamed?, htoken, pure_bind, parseNamed]
  obtain ⟨t, start, stop'⟩ := l
  dsimp only
  cases t with
  | punct p =>
    have hafter := hnext (by simp)
    cases p with
    | colon =>
      refine (parseType_runs hlines hafter).bind ?_
      rintro ⟨type, j⟩ ⟨type', d, hd⟩ ⟨rfl, hstands⟩
      refine (parseInit_runs hlines hstands name _ _).bind ?_
      rintro ⟨init, k⟩ ⟨init', e⟩ ⟨rfl, hstands'⟩
      exact .ofPure ⟨rfl, hstands'⟩
    | declare =>
      refine (((exprsRun hlines hafter).expr 0).within _).bind ?_
      rintro ⟨x, j⟩ ⟨x', d, hd⟩ ⟨rfl, hstands⟩
      exact .ofPure ⟨rfl, hstands⟩
    | assign =>
      refine (((exprsRun hlines hafter).expr 0).within _).bind ?_
      rintro ⟨x, j⟩ ⟨x', d, hd⟩ ⟨rfl, hstands⟩
      exact .ofPure ⟨rfl, hstands⟩
    | lparen =>
      refine ((exprsRun hlines hafter).args #[] _ _).bind ?_
      rintro ⟨args, j⟩ ⟨args', d⟩ ⟨rfl, hstands⟩
      exact .ofPure ⟨rfl, hstands⟩
    | _ => exact .unexpected hstart _
  | _ => exact .unexpected hstart _

end

structure StmtsRun (text : Bytes) (s : Scope) (i : Nat) (c : Cursor) : Prop where
  block : Runs text (Lands text) (parseBlock? text s i) (parseBlock s c)
  stmts : ∀ body bound hc, Runs text (Lands text) (parseStmts? text s body i)
    (parseStmts s body bound c hc)
  stmt : Runs text (Lands text) (parseStmt? text s i) (parseStmt s c)
  cond : ∀ pos bound hc, Runs text (Lands text) (parseCond? text s pos i) (parseCond s pos bound c hc)
  otherwise : ∀ bound hc, Runs text (Lands text) (parseElse? text s i) (parseElse s bound c hc)

section
variable {s : Scope} {i : Nat} {c : Cursor} (h : Stands text i c)
  (ih : ∀ j (d : Cursor), d.size < c.size → Stands text j d → StmtsRun text s j d)
include h ih

theorem parseBlock_runs : Runs text (Lands text) (parseBlock? text s i) (parseBlock s c) := by
  rw [parseBlock?, parseBlock]
  refine (expect_runs h .lbrace).bind ?_
  rintro j ⟨d, hd⟩ hstands
  refine ((ih j d hd hstands).stmts #[] c.size hd).bind ?_
  rintro ⟨body, k⟩ ⟨body', e⟩ ⟨rfl, hstands'⟩
  exact .ofPure ⟨rfl, hstands'⟩

variable (hlines : 0 < s.lines.starts.size)
include hlines

theorem parseCond_runs (pos : Pos) (bound : Nat) (hc : c.size < bound) :
    Runs text (Lands text) (parseCond? text s pos i) (parseCond s pos bound c hc) := by
  rw [parseCond?, parseCond]
  refine (((exprsRun hlines h).expr 0).within _).bind ?_
  rintro ⟨test, j⟩ ⟨test', d, hd⟩ ⟨rfl, hstands⟩
  dsimp only
  by_cases htest : (!isCondition test) = true
  · rw [if_pos htest, if_pos htest]
    exact .notCondition hstands
  · rw [if_neg htest, if_neg htest]
    refine (ih j d hd hstands).block.bind ?_
    rintro ⟨body, k⟩ ⟨body', e, he⟩ ⟨rfl, hstands'⟩
    refine ((ih k e (Nat.lt_trans he hd) hstands').otherwise bound _).bind ?_
    rintro ⟨more, m⟩ ⟨more', g⟩ ⟨rfl, hstands''⟩
    exact .ofPure ⟨rfl, hstands''⟩

theorem parseElse_runs (bound : Nat) (hc : c.size < bound) :
    Runs text (Lands text) (parseElse? text s i) (parseElse s bound c hc) := by
  obtain ⟨stop, ls⟩ := c
  obtain ⟨l, rest, rfl, htoken, -, hnext⟩ := h.token
  rw [parseElse?, htoken, pure_bind]
  by_cases hl : l.token = .keyword .otherwise
  · have hafter := hnext (by simp [hl])
    obtain ⟨l', rest, rfl, htoken', -, hnext'⟩ := hafter.token
    rw [parseElse]
    dsimp only
    rw [if_neg (not_not.mpr hl), if_neg (not_not.mpr hl), htoken', pure_bind]
    by_cases hl' : l'.token = .keyword .cond
    · rw [if_pos hl', if_pos hl', locate_eq hlines, pure_bind]
      refine ((ih l'.stop ⟨l'.stop, rest⟩ (Nat.lt_succ_of_lt (Nat.lt_succ_self _))
        (hnext' (by simp [hl']))).cond _ bound _).bind ?_
      rintro ⟨more, j⟩ ⟨more', g⟩ ⟨rfl, hstands⟩
      exact .ofPure ⟨rfl, hstands⟩
    · rw [if_neg hl', if_neg hl']
      refine (ih l.stop ⟨l.stop, l' :: rest⟩ (Nat.lt_succ_self _) hafter).block.bind ?_
      rintro ⟨more, j⟩ ⟨more', g⟩ ⟨rfl, hstands⟩
      exact .ofPure ⟨rfl, hstands⟩
  · have habsent : parseElse s bound ⟨stop, l :: rest⟩ hc = pure (none, ⟨_, hc⟩) :=
      parseElse_absent fun heq => hl (Option.some.inj heq)
    rw [if_pos hl, habsent]
    exact .ofPure ⟨rfl, h⟩

theorem parseStmt_runs : Runs text (Lands text) (parseStmt? text s i) (parseStmt s c) := by
  obtain ⟨stop, ls⟩ := c
  obtain ⟨l, rest, rfl, htoken, hstart, hnext⟩ := h.token
  rw [parseStmt?, htoken, pure_bind, parseStmt]
  obtain ⟨t, start, stop'⟩ := l
  dsimp only
  cases t with
  | keyword k =>
    have hafter := hnext (by simp)
    cases k with
    | ret =>
      dsimp only
      rw [locate_eq hlines, pure_bind, ← bind_pure (parseReturn? _ _ _ _)]
      refine (parseReturn_runs hlines hafter _).bind ?_
      rintro ⟨x, j⟩ ⟨x', d, hd⟩ ⟨rfl, hstands⟩
      exact .ofPure ⟨rfl, hstands⟩
    | cond =>
      dsimp only
      rw [locate_eq hlines, pure_bind]
      exact (ih stop' ⟨stop', rest⟩ (Nat.lt_succ_self _) hafter).cond _ _ _
    | _ => exact .unexpected hstart _
  | ident name =>
    dsimp only
    rw [locate_eq hlines, pure_bind]
    refine (parseNamed_runs hlines (hnext (by simp)) _ name).bind ?_
    rintro ⟨x, j⟩ ⟨x', d, hd⟩ ⟨rfl, hstands⟩
    exact (expect_runs hstands _).bind fun k e he => .ofPure ⟨rfl, he⟩
  | _ => exact .unexpected hstart _

theorem parseStmts_runs (body : Array Stmt) (bound : Nat) (hc : c.size < bound) :
    Runs text (Lands text) (parseStmts? text s body i) (parseStmts s body bound c hc) := by
  have hstmt := parseStmt_runs h ih hlines
  obtain ⟨stop, ls⟩ := c
  obtain ⟨l, rest, rfl, htoken, hstart, hnext⟩ := h.token
  rw [parseStmts?, htoken, pure_bind, parseStmts]
  dsimp only
  by_cases hclose : l.token = .punct .rbrace
  · rw [if_pos hclose, if_pos hclose]
    exact .ofPure ⟨rfl, hnext (by simp [hclose])⟩
  rw [if_neg hclose, if_neg hclose]
  by_cases hempty : l.token = .punct .semicolon
  · rw [if_pos hempty, if_pos hempty]
    exact (ih l.stop ⟨l.stop, rest⟩ (Nat.lt_succ_self _) (hnext (by simp [hempty]))).stmts body
      bound _
  rw [if_neg hempty, if_neg hempty]
  by_cases heof : l.token = .eof
  · rw [if_pos heof, if_pos heof]
    exact .unexpected hstart _
  · rw [if_neg heof, if_neg heof]
    refine hstmt.bind ?_
    rintro ⟨x, j⟩ ⟨x', d, hd⟩ ⟨rfl, hstands⟩
    exact (ih j d hd hstands).stmts _ bound _

end

/-- The rules for statements on demand take the tokens of the list. -/
theorem stmtsRun {s : Scope} (hlines : 0 < s.lines.starts.size) {i : Nat} {c : Cursor}
    (h : Stands text i c) : StmtsRun text s i c := by
  induction hn : c.size using Nat.strongRecOn generalizing i c with
  | ind n ih =>
    have hnext : ∀ j (d : Cursor), d.size < c.size → Stands text j d → StmtsRun text s j d :=
      fun j d hd hstands => ih d.size (by omega) hstands rfl
    exact ⟨parseBlock_runs h hnext, parseStmts_runs h hnext hlines, parseStmt_runs h hnext hlines,
      parseCond_runs h hnext hlines, parseElse_runs h hnext hlines⟩

section
variable {s : Scope} (hlines : 0 < s.lines.starts.size) {i : Nat} {c : Cursor} (h : Stands text i c)
include hlines h

theorem parseParams_runs (params : Array Var) (bound : Nat) (hc : c.size < bound) :
    Runs text (Lands text) (parseParams? text s params i) (parseParams s params bound c hc) := by
  induction hn : c.size using Nat.strongRecOn generalizing i c params with
  | ind n ih =>
    obtain ⟨stop, ls⟩ := c
    obtain ⟨l, rest, rfl, htoken, hstart, hnext⟩ := h.token
    rw [parseParams?, htoken, pure_bind, parseParams]
    dsimp only
    by_cases hclose : l.token = .punct .rparen
    · rw [if_pos hclose, if_pos hclose]
      exact .ofPure ⟨rfl, hnext (by simp [hclose])⟩
    rw [if_neg hclose, if_neg hclose]
    by_cases hnone : (!params.isEmpty && decide (l.token ≠ .punct .comma)) = true
    · rw [if_pos hnone, if_pos hnone]
      exact .unexpected hstart _
    rw [if_neg hnone, if_neg hnone]
    refine (expectIdent_runs ?_).bind fun x x' hx => ?_
    · split
      · exact h
      next hsome =>
        apply hnext
        intro heof
        rw [heof] at hnone
        simp [hsome] at hnone
    obtain ⟨name, l'⟩ := x
    obtain ⟨rfl, rfl, hstands⟩ := hx
    refine (expect_runs hstands .colon).bind fun j y hstands => ?_
    refine (parseType_runs hlines hstands).bind fun z z' hz => ?_
    have hsize : z'.2.val.size < n := by
      rw [← hn]
      refine Nat.lt_of_lt_of_le
        (Nat.lt_trans z'.2.property (Nat.lt_trans y.property x'.2.2.property)) ?_
      split
      · exact Nat.le_refl _
      · exact Nat.le_succ _
    dsimp only
    rw [locate_eq hlines, pure_bind, hz.1]
    exact ih z'.2.val.size hsize hz.2 _ _ rfl

theorem parseRet_runs (bound : Nat) (hc : c.size < bound) :
    Runs text (Lands text) (parseRet? text s i) (parseRet s bound c hc) := by
  obtain ⟨stop, ls⟩ := c
  obtain ⟨l, rest, rfl, htoken, -, hnext⟩ := h.token
  rw [parseRet?, htoken, pure_bind, parseRet]
  dsimp only
  by_cases hl : l.token = .punct .arrow
  · rw [if_pos hl, if_pos hl]
    refine (parseType_runs hlines (hnext (by simp [hl]))).bind ?_
    rintro ⟨type, j⟩ ⟨type', d, hd⟩ ⟨rfl, hstands⟩
    exact .ofPure ⟨rfl, hstands⟩
  · rw [if_neg hl, if_neg hl]
    exact .ofPure ⟨rfl, h⟩

theorem parseFunction_runs (pos : Pos) (name : String) :
    Runs text (Lands text) (parseFunction? text s pos name i) (parseFunction s pos name c) := by
  unfold parseFunction? parseFunction
  refine (expect_runs h .define).bind ?_
  rintro j ⟨d, hd⟩ hstands
  refine (expect_runs hstands .lparen).bind ?_
  rintro k ⟨e, he⟩ hstands
  refine (parseParams_runs hlines hstands #[] _ he).bind ?_
  rintro ⟨params, m⟩ ⟨params', g, hg⟩ ⟨rfl, hstands⟩
  refine (parseRet_runs hlines hstands _ _).bind ?_
  rintro ⟨ret, m⟩ ⟨ret', r, hr⟩ ⟨rfl, hstands⟩
  refine (stmtsRun hlines hstands).block.bind ?_
  rintro ⟨body, m⟩ ⟨body', b, hb⟩ ⟨rfl, hstands⟩
  exact .ofPure ⟨rfl, hstands⟩

theorem parseFields_runs (fields : Array (String × Ty)) (bound : Nat) (hc : c.size < bound) :
    Runs text (Lands text) (parseFields? text s fields i) (parseFields s fields bound c hc) := by
  induction hn : c.size using Nat.strongRecOn generalizing i c fields with
  | ind n ih =>
    obtain ⟨stop, ls⟩ := c
    obtain ⟨l, rest, rfl, htoken, hstart, hnext⟩ := h.token
    rw [parseFields?, htoken, pure_bind, parseFields]
    obtain ⟨t, start, stop'⟩ := l
    dsimp only
    cases t with
    | punct p =>
      cases p with
      | rbrace => exact .ofPure ⟨rfl, hnext (by simp)⟩
      | _ => exact .unexpected hstart _
    | ident name =>
      refine (expect_runs (hnext (by simp)) .colon).bind ?_
      rintro j ⟨d, hd⟩ hstands
      refine (parseType_runs hlines hstands).bind ?_
      rintro ⟨type, k⟩ ⟨type', e, he⟩ ⟨rfl, hstands⟩
      refine (expect_runs hstands .semicolon).bind ?_
      rintro m ⟨g, hg⟩ hstands
      have hsize : g.size < n := by
        rw [← hn]
        exact Nat.lt_trans hg (Nat.lt_trans he (Nat.lt_trans hd (Nat.lt_succ_self _)))
      exact ih g.size hsize hstands _ _ rfl
    | _ => exact .unexpected hstart _

theorem parseRecord_runs :
    Runs text (fun a b => a.1 = b.1 ∧ a.2.1 = b.2.1 ∧ Stands text a.2.2 b.2.2.val)
      (parseRecord? text s i) (parseRecord s c) := by
  unfold parseRecord? parseRecord
  refine (expectIdent_runs h).bind ?_
  rintro ⟨name, l⟩ ⟨name', l', d, hd⟩ ⟨rfl, rfl, hstands⟩
  refine (expect_runs hstands .lbrace).bind ?_
  rintro j ⟨e, he⟩ hstands
  refine (parseFields_runs hlines hstands #[] _ _).bind ?_
  rintro ⟨fields, k⟩ ⟨fields', g⟩ ⟨rfl, hstands⟩
  exact .ofPure ⟨rfl, rfl, hstands⟩

end

/-! ### Files -/

theorem stop?_eq {lines : LineTable} (hlines : 0 < lines.starts.size) (p : Parsed) (e : ParseError) :
    p.stop? lines e = some (p.stop lines e) := by
  obtain ⟨context, cause⟩ := e
  rw [Parsed.stop?, Parsed.stop, ParseError.diagnostic?, ParseError.diagnostic]
  cases cause with
  | unexpected got want offset =>
    dsimp only
    rw [locate?_eq hlines]
    rfl
  | _ => rfl

def Parsed.Settled (text : Bytes) (o : Option Parsed) (p : Parsed) : Prop :=
  o = some p ∧ ∀ e, p.error = some e → e.StartsWithin text

theorem settled_stop {lines : LineTable} (hlines : 0 < lines.starts.size) (p : Parsed)
    {e : ParseError} (he : e.StartsWithin text) : Parsed.Settled text (p.stop? lines e) (p.stop lines e) := by
  refine ⟨stop?_eq hlines p e, fun e' he' => ?_⟩
  cases he'
  exact he

theorem error_define (p : Parsed) (pos : Pos) (name : String) (fields : List (String × Ty)) :
    (p.define pos name fields).error = p.error := by
  unfold Parsed.define
  dsimp only
  split <;> rfl

theorem parseItems_settled {lines : LineTable} (hlines : 0 < lines.starts.size) {i : Nat} {c : Cursor}
    (h : Stands text i c) {p : Parsed} (hp : p.error = none) :
    Parsed.Settled text (parseItems? text lines p i) (parseItems lines p c) := by
  induction hn : c.size using Nat.strongRecOn generalizing i c p with
  | ind n ih =>
    obtain ⟨stop, ls⟩ := c
    obtain ⟨l, rest, rfl, hnext, hstart, hafter⟩ := h.next
    have hstop : Parsed.Settled text
        (p.stop? lines ⟨[], .unexpected l.token [.keyword .struct, .identifier] l.start⟩)
        (p.stop lines ⟨[], .unexpected l.token [.keyword .struct, .identifier] l.start⟩) := by
      apply settled_stop hlines
      intro got want offset hcause
      cases hcause
      exact hstart
    rw [parseItems?, hnext, parseItems]
    obtain ⟨t, start, stop'⟩ := l
    dsimp only [Option.bind_eq_bind, Option.bind_some] at hstop ⊢
    cases t with
    | eof =>
      refine ⟨rfl, fun e he => ?_⟩
      rw [hp] at he
      cases he
    | keyword k =>
      cases k with
      | struct =>
        have hrecord := @parseRecord_runs text ⟨lines, p.types⟩ hlines _ _ (hafter (by simp)) p.diagnostics
        dsimp only
        rw [locate?_eq hlines]
        dsimp only [Option.bind_some]
        generalize (parseRecord? text ⟨lines, p.types⟩ stop').run.run p.diagnostics = o at hrecord ⊢
        generalize (parseRecord ⟨lines, p.types⟩ ⟨stop', rest⟩).run.run p.diagnostics = r at hrecord ⊢
        cases hrecord with
        | @ok a b ds hab =>
          obtain ⟨name, fields, j⟩ := a
          obtain ⟨name', fields', d, hd⟩ := b
          obtain ⟨rfl, rfl, hstands⟩ := hab
          have hlt : d.size < n := hn ▸ Nat.lt_succ_of_lt hd
          exact ih d.size hlt hstands ((error_define _ _ _ _).trans hp) rfl
        | error he => exact settled_stop hlines _ he
      | _ => exact hstop
    | ident name =>
      have hfunction := @parseFunction_runs text ⟨lines, p.types⟩ hlines _ _ (hafter (by simp))
        (lines.locate start) name p.diagnostics
      dsimp only
      rw [locate?_eq hlines]
      dsimp only [Option.bind_some]
      generalize (parseFunction? text ⟨lines, p.types⟩ (lines.locate start) name stop').run.run
        p.diagnostics = o at hfunction ⊢
      generalize (parseFunction ⟨lines, p.types⟩ (lines.locate start) name ⟨stop', rest⟩).run.run
        p.diagnostics = r at hfunction ⊢
      cases hfunction with
      | @ok a b ds hab =>
        obtain ⟨f, j⟩ := a
        obtain ⟨f', d, hd⟩ := b
        obtain ⟨rfl, hstands⟩ := hab
        have hlt : d.size < n := hn ▸ Nat.lt_succ_of_lt hd
        exact ih d.size hlt hstands hp rfl
      | error he => exact settled_stop hlines _ he
    | _ => exact hstop

theorem parse_settled (name : String) (text : Bytes) :
    Parsed.Settled text (parse? name text) (parse name text) := by
  have hlines : 0 < (LineTable.ofText text).starts.size :=
    Nat.lt_of_lt_of_le Nat.zero_lt_one (size_lineStarts #[0] 0 text)
  exact parseItems_settled hlines ⟨Nat.zero_le _, rfl, rfl⟩ rfl

/-- The front end comes to an end on every text and stays in it. Parsing on demand has a result, the one
of the list of tokens; from every offset in the text the lexer finds the next token, which lies in the
text and takes at least a byte unless it is the end; and a token that stops the parser starts in
the text or at its end. -/
theorem parse_in_range (name : String) (text : Bytes) :
    parse? name text = some (parse name text) ∧
      (∀ st ≤ text.length, ∃ l, Lexeme.next? text st = some l ∧
        l = (Lexeme.next st (text.drop st)).1 ∧ st ≤ l.start ∧ l.start ≤ l.stop ∧
        l.stop ≤ text.length ∧ (l.token ≠ .eof → l.start < l.stop)) ∧
      ∀ e got want offset, (parse name text).error = some e →
        e.cause = .unexpected got want offset → offset ≤ text.length := by
  obtain ⟨hparse, herror⟩ := parse_settled name text
  refine ⟨hparse, fun st hst => ?_, fun e got want offset he => herror e he got want offset⟩
  have hspans := Lexeme.next_spans hst
  exact ⟨_, Lexeme.next?_eq hst, rfl, hspans.after, hspans.ordered, hspans.inside, hspans.nonempty⟩

def ParseError.offset? (e : ParseError) : Option Nat :=
  match e.cause with
  | .unexpected _ _ offset => some offset
  | _ => none

def unfinished : Bytes := "f::()\x7bx=\"\\".toList.map fun c => c.toNat.toUInt8

theorem parse_in_range_unfinished :
    unfinished.length = 10 ∧ parse? "p" unfinished = some (parse "p" unfinished) ∧
      ∃ e got want, (parse "p" unfinished).error = some e ∧ e.cause = .unexpected got want 8 ∧
        8 ≤ unfinished.length := by
  have h : (parse "p" unfinished).error.bind ParseError.offset? = some 8 := by
    decide +kernel
  obtain ⟨hparse, -, hinside⟩ := parse_in_range "p" unfinished
  obtain ⟨⟨context, cause⟩, herror, hoffset⟩ := Option.bind_eq_some_iff.mp h
  cases cause with
  | unexpected got want offset =>
    cases hoffset
    exact ⟨by decide, hparse, _, got, want, herror, rfl, hinside _ got want 8 herror rfl⟩
  | _ => cases hoffset

end Parser

end RegisterLang
