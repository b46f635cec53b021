import Mathlib.Data.List.Forall2
import RegisterLang.Proofs.Reading

/-!
# The parser reads statements and files

Where the next tokens spell a statement, a function or a record, the parser takes exactly these tokens,
reports nothing and gives that tree with the positions of the tokens. An `else` belongs to the `if`
whose block it follows.
-/
namespace RegisterLang.Parser
open Text Source
variable {lines : LineTable} {c : Cursor} {more : List Token}

def TakesQuietly {α : Type} {n : Nat} (m : Reporting (α × Cursor.Below n)) (P : α → Prop)
    (more : List Token) : Prop :=
  ∃ a d, m = pure (a, d) ∧ P a ∧ d.val.tokens = more

namespace TakesQuietly
variable {α β : Type} {k n : Nat} {m : Reporting (α × Cursor.Below n)} {P : α → Prop} {Q : β → Prop}
  {more more' : List Token}

theorem bind {f : α × Cursor.Below n → Reporting (β × Cursor.Below k)} (h : TakesQuietly m P more)
    (hf : ∀ a d, P a → d.val.tokens = more → TakesQuietly (f (a, d)) Q more') :
    TakesQuietly (m >>= f) Q more' := by
  obtain ⟨a, d, rfl, ha, hd⟩ := h
  rw [pure_bind]
  exact hf a d ha hd

theorem ofPure {a : α} {d : Cursor.Below n} (ha : P a) (hd : d.val.tokens = more) :
    TakesQuietly (pure (a, d)) P more :=
  ⟨a, d, rfl, ha, hd⟩

end TakesQuietly

theorem Takes.quietly {α : Type} {n : Nat} {r : Result (α × Cursor.Below n)} {P : α → Prop}
    (h : Takes r P more) : TakesQuietly (quietly r) P more := by
  obtain ⟨a, d, rfl, ha, hd⟩ := h
  exact ⟨a, d, rfl, ha, hd⟩

/-- A symbol that is there is taken. -/
theorem TakesQuietly.expect {β : Type} {n : Nat} {p : Punct} {Q : β → Prop} {more' : List Token}
    {f : c.After → Reporting (β × Cursor.Below n)} (h : c.tokens = .punct p :: more)
    (hf : ∀ d : c.After, d.val.tokens = more → TakesQuietly (f d) Q more') :
    TakesQuietly (quietly (Parser.expect p c) >>= f) Q more' := by
  obtain ⟨d, hd, hmore⟩ := expect_eq h
  rw [hd]
  exact hf d hmore

/-- A name that is there is taken. -/
theorem TakesQuietly.expectIdent {β : Type} {n : Nat} {name : String} {Q : β → Prop}
    {more' : List Token} {f : String × Lexeme × c.After → Reporting (β × Cursor.Below n)}
    (h : c.tokens = .ident name :: more)
    (hf : ∀ l (d : c.After), d.val.tokens = more → TakesQuietly (f (name, l, d)) Q more') :
    TakesQuietly (quietly (Parser.expectIdent c) >>= f) Q more' := by
  obtain ⟨l, d, hd, hmore⟩ := expectIdent_eq h
  rw [hd]
  exact hf l d hmore

variable {s : Scope}

theorem parseType_takes {name : String} {t : Ty} (h : c.tokens = .ident name :: more)
    (ht : s.types.get? name = some t) : TakesQuietly (parseType s c) (· = some t) more := by
  unfold parseType
  refine TakesQuietly.expectIdent h fun l d hd => ?_
  dsimp only
  rw [ht]
  exact .ofPure rfl hd

theorem follows_semicolon : Follows 0 (.punct .semicolon :: more) := by
  rintro t ⟨⟩
  exact ⟨rfl, nofun⟩

theorem parseInit_absent {name : String} {bound : Nat} {hc : c.size < bound}
    (h : c.tokens = .punct .semicolon :: more) :
    Takes (parseInit s name bound c hc) (· = .missing) (.punct .semicolon :: more) := by
  rw [← h]
  obtain ⟨stop, rest⟩ := c
  obtain ⟨l, rest, rfl, hl, _⟩ := Cursor.tokens_cons h
  rw [parseInit]
  dsimp only
  rw [hl, if_neg (by decide)]
  exact .ofOk rfl rfl

variable {pos : Pos} {name : String} {x : Expr} {ts : List Token}

theorem parseInit_present {bound : Nat} {hc : c.size < bound} (hx : Phrase (.level 1 x) ts)
    (h : c.tokens = .punct .assign :: ts ++ .punct .semicolon :: more) :
    Takes (parseInit s name bound c hc) (fun y => y.erase = x.erase) (.punct .semicolon :: more) := by
  obtain ⟨stop, rest⟩ := c
  obtain ⟨l, rest, rfl, hl, hrest⟩ := Cursor.tokens_cons h
  rw [parseInit]
  dsimp only
  rw [if_pos hl]
  refine ((parseExpr_takes (Phrase.reads hx) (hrest _) follows_semicolon).inside _).bind ?_
  rintro y ⟨d, hd⟩ hy hd'
  exact .ofOk hy hd'

def ReadsClause (s : Scope) : Construct → List Token → Prop
  | .stmt x, ts => ∀ c more, c.tokens = ts ++ more → more.head? ≠ some (.keyword .otherwise) →
      TakesQuietly (parseStmt s c) (fun y => y.erase = x.erase) more
  | .branch x, ts => ∀ pos bound c hc more, c.tokens = ts ++ more →
      more.head? ≠ some (.keyword .otherwise) →
      TakesQuietly (parseCond s pos bound c hc) (fun y => y.erase = x.erase) more
  | .block xs, ts => ∀ body bound c hc more, c.tokens = ts ++ more →
      TakesQuietly (parseStmts s body bound c hc) (fun all => ∃ ys, all.toList = body.toList ++ ys ∧
        ys.map Stmt.erase = xs.map Stmt.erase) more
  | .otherwise m, ts => ∀ bound c hc more, c.tokens = ts ++ more →
      more.head? ≠ some (.keyword .otherwise) →
      TakesQuietly (parseElse s bound c hc) (fun m' => eraseElse m' = eraseElse m) more

/-- A statement that begins with a name, without its semicolon. -/
def ReadsNamed (s : Scope) (name : String) (x : Stmt) (ts : List Token) : Prop :=
  ∀ pos c more, c.tokens = ts ++ .punct .semicolon :: more →
    TakesQuietly (parseNamed s pos name c) (fun y => y.erase = x.erase) (.punct .semicolon :: more)

theorem ReadsNamed.stmt {x : Stmt} (h : ReadsNamed s name x ts) :
    ReadsClause s (.stmt x) (.ident name :: ts ++ [Token.punct .semicolon]) := by
  intro c more hc _
  rw [List.cons_append, List.cons_append, List.append_assoc, List.singleton_append] at hc
  obtain ⟨stop, rest⟩ := c
  obtain ⟨l, rest, rfl, hl, hrest⟩ := Cursor.tokens_cons hc
  rw [parseStmt]
  dsimp only
  rw [hl]
  refine (h _ ⟨l.stop, rest⟩ more (hrest _)).bind ?_
  rintro y ⟨d, hd⟩ hy hd'
  refine .expect hd' fun e he => ?_
  exact .ofPure hy he

theorem readsNamed_declared {t : Ty} (ht : s.types.get? t.name = some t) :
    ReadsNamed s name (.var { pos, name, type := some t }) [.punct .colon, .ident t.name] := by
  intro pos' c more h
  obtain ⟨stop, rest⟩ := c
  obtain ⟨l, rest, rfl, hl, hrest⟩ := Cursor.tokens_cons h
  rw [parseNamed]
  dsimp only
  rw [hl]
  refine (parseType_takes (hrest _) ht).bind ?_
  rintro _ ⟨d, hd⟩ rfl hd'
  refine (parseInit_absent hd').quietly.bind ?_
  rintro _ ⟨e, he⟩ rfl he'
  exact .ofPure rfl he'

theorem readsNamed_typed {t : Ty} (ht : s.types.get? t.name = some t) (hx : Phrase (.level 1 x) ts) :
    ReadsNamed s name (.var { pos, name, type := some t, init := x })
      (.punct .colon :: .ident t.name :: .punct .assign :: ts) := by
  intro pos' c more h
  obtain ⟨stop, rest⟩ := c
  obtain ⟨l, rest, rfl, hl, hrest⟩ := Cursor.tokens_cons h
  rw [parseNamed]
  dsimp only
  rw [hl]
  refine (parseType_takes (hrest _) ht).bind ?_
  rintro _ ⟨d, hd⟩ rfl hd'
  refine (parseInit_present hx hd').quietly.bind ?_
  rintro y ⟨e, he⟩ hy he'
  refine .ofPure ?_ he'
  rw [Stmt.erase, Stmt.erase, hy]

theorem readsNamed_inferred (hx : Phrase (.level 1 x) ts) :
    ReadsNamed s name (.var { pos, name, init := x }) (.punct .declare :: ts) := by
  intro pos' c more h
  obtain ⟨stop, rest⟩ := c
  obtain ⟨l, rest, rfl, hl, hrest⟩ := Cursor.tokens_cons h
  rw [parseNamed]
  dsimp only
  rw [hl]
  refine ((parseExpr_takes (Phrase.reads hx) (hrest _) follows_semicolon).inside _).quietly.bind ?_
  rintro y ⟨d, hd⟩ hy hd'
  refine .ofPure ?_ hd'
  rw [Stmt.erase, Stmt.erase, hy]

theorem readsNamed_assign (hx : Phrase (.level 1 x) ts) :
    ReadsNamed s name (.assign pos name none x) (.punct .assign :: ts) := by
  intro pos' c more h
  obtain ⟨stop, rest⟩ := c
  obtain ⟨l, rest, rfl, hl, hrest⟩ := Cursor.tokens_cons h
  rw [parseNamed]
  dsimp only
  rw [hl]
  refine ((parseExpr_takes (Phrase.reads hx) (hrest _) follows_semicolon).inside _).quietly.bind ?_
  rintro y ⟨d, hd⟩ hy hd'
  refine .ofPure ?_ hd'
  rw [Stmt.erase, Stmt.erase, hy]

theorem readsNamed_call {xs : List Expr} (hxs : Phrase (.args [] xs) ts) :
    ReadsNamed s name (.expr pos (.call pos none name none xs)) (.punct .lparen :: ts) := by
  intro pos' c more h
  obtain ⟨stop, rest⟩ := c
  obtain ⟨l, rest, rfl, hl, hrest⟩ := Cursor.tokens_cons h
  rw [parseNamed]
  dsimp only
  rw [hl]
  refine (Phrase.reads hxs s.lines #[] _ ⟨l.stop, rest⟩ _ _ (hrest _) rfl).quietly.bind ?_
  rintro all d ⟨ys, hall, herase⟩ hd
  refine .ofPure ?_ hd
  rw [Stmt.erase, Stmt.erase, Expr.erase, Expr.erase, eraseArgs_eq, eraseArgs_eq, hall, ← herase]
  rfl

theorem reads_leave :
    ReadsClause s (.stmt (.ret pos .missing)) [.keyword .ret, .punct .semicolon] := by
  intro c more h _
  obtain ⟨stop, rest⟩ := c
  obtain ⟨l, rest, rfl, hl, hrest⟩ := Cursor.tokens_cons h
  obtain ⟨l', rest, rfl, hl', hrest'⟩ := Cursor.tokens_cons (hrest stop)
  rw [parseStmt]
  dsimp only
  rw [hl, parseReturn]
  dsimp only
  rw [if_pos hl']
  exact .ofPure rfl (hrest' _)

theorem reads_ret (hx : Phrase (.level 1 x) ts) :
    ReadsClause s (.stmt (.ret pos x)) (.keyword .ret :: ts ++ [Token.punct .semicolon]) := by
  intro c more h _
  rw [List.cons_append, List.cons_append, List.append_assoc, List.singleton_append] at h
  obtain ⟨stop, rest⟩ := c
  obtain ⟨l, rest, rfl, hl, hrest⟩ := Cursor.tokens_cons h
  have hexpr : Takes (parseExpr s.lines 0 ⟨l.stop, rest⟩) (fun y => y.erase = x.erase)
      (.punct .semicolon :: more) :=
    parseExpr_takes (Phrase.reads hx) (hrest _) follows_semicolon
  obtain ⟨t, us, rfl, ht⟩ := hx.opened
  obtain ⟨l', rest, rfl, rfl, _⟩ := Cursor.tokens_cons (hrest stop)
  have hsemicolon : l'.token ≠ .punct .semicolon := by
    intro heq
    rw [heq] at ht
    exact ht
  rw [parseStmt]
  dsimp only
  rw [hl, parseReturn]
  dsimp only
  rw [if_neg hsemicolon]
  obtain ⟨y, ⟨d, hd⟩, heq, hy, hd'⟩ := hexpr.inside .ret
  obtain ⟨e, he, hmore⟩ := expect_eq hd'
  rw [heq]
  change TakesQuietly (quietly (expect .semicolon d >>= _) >>= _) _ _
  rw [he]
  refine .ofPure ?_ hmore
  rw [Stmt.erase, Stmt.erase, hy]

theorem reads_cond {x : Stmt} (h : ReadsClause s (.branch x) ts) :
    ReadsClause s (.stmt x) (.keyword .cond :: ts) := by
  intro c more hc hmore
  obtain ⟨stop, rest⟩ := c
  obtain ⟨l, rest, rfl, hl, hrest⟩ := Cursor.tokens_cons hc
  rw [parseStmt]
  dsimp only
  rw [hl]
  exact h _ _ _ _ more (hrest _) hmore

theorem parseBlock_takes {xs : Block} (h : ReadsClause s (.block xs) ts)
    (hc : c.tokens = .punct .lbrace :: ts ++ more) :
    TakesQuietly (parseBlock s c) (fun ys => ys.map Stmt.erase = xs.map Stmt.erase) more := by
  rw [parseBlock]
  refine .expect hc fun d hd => ?_
  refine (h #[] c.size d.val d.property more hd).bind ?_
  rintro all e ⟨ys, hall, hys⟩ he
  refine .ofPure ?_ he
  rw [hall]
  exact hys

theorem isCondition_erase (x : Expr) : isCondition x.erase = isCondition x := by
  cases x <;> rfl

theorem reads_branch {body : Block} {more' : Option Block} {us vs : List Token}
    (hcondition : isCondition x = true) (hx : Phrase (.level 1 x) ts)
    (hbody : ReadsClause s (.block body) us) (hmore : ReadsClause s (.otherwise more') vs) :
    ReadsClause s (.branch (.cond pos x body more')) (ts ++ .punct .lbrace :: us ++ vs) := by
  intro pos' bound c hc more h hfollow
  rw [List.append_assoc, List.append_assoc] at h
  rw [parseCond]
  have hlbrace : Follows 0 (.punct .lbrace :: us ++ (vs ++ more)) := by
    rintro t ⟨⟩
    exact ⟨rfl, nofun⟩
  refine ((parseExpr_takes (Phrase.reads hx) h hlbrace).inside _).quietly.bind ?_
  rintro y ⟨d, hd⟩ hy hd'
  have hcondition' : isCondition y = true := by
    rw [← isCondition_erase, hy, isCondition_erase, hcondition]
  dsimp only
  rw [hcondition', Bool.not_true, if_neg (by decide)]
  refine (parseBlock_takes hbody hd').bind ?_
  rintro ys ⟨e, he⟩ hys he'
  refine (hmore _ _ _ more he' hfollow).bind ?_
  rintro m g hm hg
  refine .ofPure ?_ hg
  rw [Stmt.erase, Stmt.erase, hy, hm, eraseBlock_eq, eraseBlock_eq, hys]

theorem reads_end : ReadsClause s (.block []) [.punct .rbrace] := by
  intro body bound c hc more h
  obtain ⟨stop, rest⟩ := c
  obtain ⟨l, rest, rfl, hl, hrest⟩ := Cursor.tokens_cons h
  rw [parseStmts]
  dsimp only
  rw [if_pos hl]
  exact .ofPure ⟨[], by simp⟩ (hrest _)

theorem reads_next {x : Stmt} {xs : Block} {us : List Token} (hx : ReadsClause s (.stmt x) ts)
    (hlead : ∃ t rest, ts = t :: rest ∧ t.BeginsStmt) (hxs : ReadsClause s (.block xs) us)
    (hfollow : ∀ more, (us ++ more).head? ≠ some (.keyword .otherwise)) :
    ReadsClause s (.block (x :: xs)) (ts ++ us) := by
  intro body bound c hc more h
  rw [List.append_assoc] at h
  have hstmt := hx c _ h (hfollow more)
  obtain ⟨stop, rest⟩ := c
  obtain ⟨t, ts, rfl, ht⟩ := hlead
  obtain ⟨l, rest, rfl, rfl, _⟩ := Cursor.tokens_cons h
  have hne : ∀ t : Token, ¬ t.BeginsStmt → l.token ≠ t := by
    rintro t hnot rfl
    exact hnot ht
  rw [parseStmts]
  dsimp only
  rw [if_neg (hne _ id), if_neg (hne _ id), if_neg (hne _ id)]
  refine hstmt.bind ?_
  rintro y ⟨d, hd⟩ hy hd'
  obtain ⟨all, e, heq, ⟨ys, hall, hys⟩, he⟩ := hxs (body.push y) bound d (Nat.lt_trans hd hc) more hd'
  refine ⟨all, e, heq, ⟨y :: ys, ?_, ?_⟩, he⟩
  · rw [hall, Array.toList_push, List.append_assoc, List.singleton_append]
  · rw [List.map_cons, List.map_cons, hy, hys]

theorem parseElse_absent {bound : Nat} {hc : c.size < bound}
    (h : c.tokens.head? ≠ some (.keyword .otherwise)) :
    parseElse s bound c hc = pure (none, ⟨c, hc⟩) := by
  obtain ⟨stop, rest⟩ := c
  rw [parseElse]
  cases rest with
  | nil => rfl
  | cons l rest =>
    cases rest with
    | nil => rfl
    | cons l' rest =>
      dsimp only
      rw [if_pos]
      intro heq
      exact h (congrArg some heq)

theorem reads_absent {m : Option Block} (hm : elseStmts m = []) :
    ReadsClause s (.otherwise m) [] := by
  intro bound c hc more h hfollow
  rw [List.nil_append] at h
  rw [parseElse_absent (by rwa [h])]
  refine .ofPure ?_ h
  cases m with
  | none => rfl
  | some b =>
    obtain rfl : b = [] := hm
    rfl

theorem reads_chain {x : Stmt} (hx : ReadsClause s (.branch x) ts) :
    ReadsClause s (.otherwise (some [x])) (.keyword .otherwise :: .keyword .cond :: ts) := by
  intro bound c hc more h hfollow
  obtain ⟨stop, rest⟩ := c
  obtain ⟨l, rest, rfl, hl, hrest⟩ := Cursor.tokens_cons h
  obtain ⟨l', rest, rfl, hl', hrest'⟩ := Cursor.tokens_cons (hrest stop)
  rw [parseElse]
  dsimp only
  rw [if_neg (not_not_intro hl), if_pos hl']
  refine (hx _ _ ⟨l'.stop, rest⟩ _ more (hrest' _) hfollow).bind ?_
  rintro y d hy hd
  refine .ofPure ?_ hd
  rw [eraseElse, eraseElse, hy]

theorem eraseElse_some (xs : Block) :
    eraseElse (some xs) = if xs.isEmpty then none else some (xs.map Stmt.erase) := by
  cases xs with
  | nil => rfl
  | cons x xs =>
    rw [eraseElse, eraseBlock_eq]
    rfl

theorem reads_otherwise {xs : Block} (hxs : ReadsClause s (.block xs) ts) :
    ReadsClause s (.otherwise (some xs)) (.keyword .otherwise :: .punct .lbrace :: ts) := by
  intro bound c hc more h hfollow
  obtain ⟨stop, rest⟩ := c
  obtain ⟨l, rest, rfl, hl, hrest⟩ := Cursor.tokens_cons h
  obtain ⟨l', rest, rfl, hl', hrest'⟩ := Cursor.tokens_cons (hrest stop)
  rw [parseElse]
  dsimp only
  rw [if_neg (not_not_intro hl), hl', if_neg (by decide)]
  refine (parseBlock_takes hxs (hrest l.stop)).bind ?_
  rintro ys ⟨d, hd⟩ hys hd'
  refine .ofPure ?_ hd'
  have hempty : ys.isEmpty = xs.isEmpty := by
    rw [← List.isEmpty_map (f := Stmt.erase), hys, List.isEmpty_map]
  rw [eraseElse_some, eraseElse_some, hys, hempty]

/-- The parser reads the statements that the grammar derives. -/
theorem Clause.reads {k : Construct} (h : Clause s.types k ts) : ReadsClause s k ts := by
  induction h with
  | declared ht => exact (readsNamed_declared ht).stmt
  | typed ht hx => exact (readsNamed_typed ht hx).stmt
  | inferred hx => exact (readsNamed_inferred hx).stmt
  | assign hx => exact (readsNamed_assign hx).stmt
  | leave => exact reads_leave
  | ret hx => exact reads_ret hx
  | call hxs => exact (readsNamed_call hxs).stmt
  | cond _ ih => exact reads_cond ih
  | branch hcondition hx _ _ ihbody ihmore => exact reads_branch hcondition hx ihbody ihmore
  | nil => exact reads_end
  | cons hx hxs ihx ihxs => exact reads_next ihx hx.beginsStmt ihxs hxs.head_ne_otherwise
  | absent hm => exact reads_absent hm
  | chain _ ih => exact reads_chain ih
  | otherwise _ ih => exact reads_otherwise ih

def Declares (g : Registry) (p : Var) : Prop :=
  ∃ t, g.Known t ∧ p = { pos := p.pos, name := p.name, nameType := some t, type := some t }

/-- Where the next parameter begins: behind the comma unless it is the first one. -/
theorem paramTokens_start {stop : Nat} {rest : List Lexeme} {p : Var} {ps : List Var} {empty : Bool}
    (h : Cursor.tokens ⟨stop, rest⟩ =
      paramTokens (if empty then [] else [.punct .comma]) (p :: ps) ++ more) :
    ∃ l rest', rest = l :: rest' ∧ l.token ≠ .punct .rparen ∧
      (!empty && l.token ≠ .punct .comma) = false ∧
      Cursor.tokens (if empty then ⟨stop, rest⟩ else ⟨l.stop, rest'⟩) =
        .ident p.name :: .punct .colon :: .ident (Ty.nameOf p.type) ::
          paramTokens [.punct .comma] ps ++ more := by
  cases empty with
  | true =>
    obtain ⟨l, rest', rfl, hl, _⟩ := Cursor.tokens_cons h
    exact ⟨l, rest', rfl, by rw [hl]; nofun, rfl, h⟩
  | false =>
    obtain ⟨l, rest', rfl, hl, hrest⟩ := Cursor.tokens_cons h
    exact ⟨l, rest', rfl, by rw [hl]; nofun, by rw [hl]; rfl, hrest _⟩

theorem parseParams_takes {ps : List Var} (hps : ∀ p ∈ ps, Declares s.types p) (params : Array Var)
    (bound : Nat) (c : Cursor) (hc : c.size < bound)
    (h : c.tokens = paramTokens (if params.isEmpty then [] else [.punct .comma]) ps ++ more) :
    TakesQuietly (parseParams s params bound c hc) (fun all => ∃ qs,
      all.toList = params.toList ++ qs ∧ qs.map Var.erase = ps.map Var.erase) more := by
  induction ps generalizing params c with
  | nil =>
    obtain ⟨stop, rest⟩ := c
    obtain ⟨l, rest, rfl, hl, hrest⟩ := Cursor.tokens_cons h
    rw [parseParams]
    dsimp only
    rw [if_pos hl]
    exact .ofPure ⟨[], by simp⟩ (hrest _)
  | cons p ps ih =>
    obtain ⟨⟨t, ht, hp⟩, hps⟩ := List.forall_mem_cons.mp hps
    have hname : Ty.nameOf p.type = t.name := by
      rw [hp]
      rfl
    obtain ⟨stop, rest⟩ := c
    obtain ⟨l, rest, rfl, hclose, hcomma, hstart⟩ := paramTokens_start h
    rw [hname] at hstart
    rw [parseParams]
    dsimp only
    rw [if_neg hclose, hcomma, if_neg (by decide)]
    refine TakesQuietly.expectIdent (Eq.trans (by split <;> rfl) hstart) fun at' d hd => ?_
    refine TakesQuietly.expect hd fun e he => ?_
    refine (parseType_takes he ht.1).bind ?_
    rintro _ ⟨g, hg⟩ rfl hg'
    obtain ⟨all, r, heq, ⟨qs, hall, hqs⟩, hr⟩ := ih hps (params.push
      { pos := s.lines.locate at'.start, name := p.name, nameType := some t, type := some t }) g
      _ (by simpa using hg')
    rw [Array.toList_push, List.append_assoc] at hall
    refine ⟨all, r, heq, ⟨_, hall, ?_⟩, hr⟩
    rw [List.map_append, hqs, List.map_cons, hp]
    rfl

theorem parseRet_takes {t : Ty} {bound : Nat} {hc : c.size < bound}
    (ht : t = .void ∨ s.types.get? t.name = some t)
    (h : c.tokens = retTokens (some t) ++ .punct .lbrace :: more) :
    TakesQuietly (parseRet s bound c hc) (· = t) (.punct .lbrace :: more) := by
  by_cases hvoid : t = .void
  · subst hvoid
    have hlbrace : c.tokens = .punct .lbrace :: more := h
    rw [← hlbrace]
    obtain ⟨stop, rest⟩ := c
    obtain ⟨l, rest, rfl, hl, _⟩ := Cursor.tokens_cons hlbrace
    rw [parseRet]
    dsimp only
    rw [hl, if_neg (by decide)]
    exact .ofPure rfl rfl
  · have htokens : retTokens (some t) = [.punct .arrow, .ident t.name] := by
      cases t with
      | void => exact absurd rfl hvoid
      | _ => rfl
    rw [htokens] at h
    obtain ⟨stop, rest⟩ := c
    obtain ⟨l, rest, rfl, hl, hrest⟩ := Cursor.tokens_cons h
    rw [parseRet]
    dsimp only
    rw [if_pos hl]
    refine (parseType_takes (hrest _) (ht.resolve_left hvoid)).bind ?_
    rintro _ ⟨d, hd⟩ rfl hd'
    exact .ofPure rfl hd'

theorem parseFunction_takes (pos : Pos) {f : Function} (hplain : PlainFunction s.types f)
    (hf : FunctionTokens s.types f (.ident f.name :: ts)) (h : c.tokens = ts ++ more) :
    TakesQuietly (parseFunction s pos f.name c) (fun f' => f'.erase = f.erase) more := by
  obtain ⟨us, hbody, heq⟩ := hf
  obtain ⟨t, hret, ht⟩ := hplain.ret
  simp only [List.cons_append, List.append_assoc, List.cons.injEq, true_and] at heq
  subst heq
  simp only [List.cons_append, List.append_assoc] at h
  rw [parseFunction]
  refine .expect h fun d hd => ?_
  refine .expect hd fun e he => ?_
  refine (parseParams_takes (fun p hp => (hplain.params p hp).2) #[] _ _ _ he).bind ?_
  rintro params ⟨g, hg⟩ ⟨qs, hqs, hparams'⟩ hg'
  rw [hret] at hg'
  refine (parseRet_takes (ht.imp_right And.left) hg').bind ?_
  rintro _ ⟨r, hr⟩ rfl hr'
  refine (parseBlock_takes (Clause.reads hbody) hr').bind ?_
  rintro body ⟨b, hb⟩ hbody' hb'
  refine .ofPure ?_ hb'
  rw [Function.erase, Function.erase, eraseBlock_eq, eraseBlock_eq, hplain.nameType, hret, hqs]
  dsimp only
  rw [hbody', ← hparams']
  rfl

theorem parseFields_takes {fs : List (String × Ty)}
    (hfs : ∀ f ∈ fs, s.types.get? f.2.name = some f.2) (fields : Array (String × Ty)) (bound : Nat)
    (c : Cursor) (hc : c.size < bound) (h : c.tokens = fieldTokens fs ++ more) :
    TakesQuietly (parseFields s fields bound c hc) (fun all => all.toList = fields.toList ++ fs)
      more := by
  induction fs generalizing fields c with
  | nil =>
    obtain ⟨stop, rest⟩ := c
    obtain ⟨l, rest, rfl, hl, hrest⟩ := Cursor.tokens_cons h
    rw [parseFields]
    dsimp only
    rw [hl]
    exact .ofPure (List.append_nil _).symm (hrest _)
  | cons f fs ih =>
    obtain ⟨hf, hfs⟩ := List.forall_mem_cons.mp hfs
    obtain ⟨stop, rest⟩ := c
    obtain ⟨l, rest, rfl, hl, hrest⟩ := Cursor.tokens_cons h
    rw [parseFields]
    dsimp only
    rw [hl]
    refine .expect (hrest _) fun d hd => ?_
    refine (parseType_takes hd hf).bind ?_
    rintro _ ⟨e, he⟩ rfl he'
    refine .expect he' fun g hg => ?_
    dsimp only
    have hsize : g.val.size < bound := Nat.lt_trans g.property
      (Nat.lt_trans he (Nat.lt_trans d.property (Nat.lt_of_succ_lt hc)))
    have hall := ih hfs (fields.push f) g.val hsize hg
    rw [Array.toList_push, List.append_assoc, List.singleton_append] at hall
    exact hall

theorem parseRecord_takes {r : Record} (hfields : ∀ f ∈ r.fields, s.types.get? f.2.name = some f.2)
    (h : c.tokens = .ident r.name :: .punct .lbrace :: fieldTokens r.fields ++ more) :
    ∃ d, parseRecord s c = pure (r.name, r.fields, d) ∧ d.val.tokens = more := by
  obtain ⟨l, ⟨d, hd⟩, heq, hd'⟩ := expectIdent_eq h
  obtain ⟨⟨e, he⟩, heq', he'⟩ := expect_eq hd'
  obtain ⟨all, g, heq'', hall, hg⟩ :=
    parseFields_takes hfields #[] c.size e (Nat.lt_trans he hd) he'
  refine ⟨g, ?_, hg⟩
  rw [parseRecord, heq]
  change (quietly (expect .lbrace d) >>= _) = _
  rw [heq']
  change (parseFields s #[] c.size e _ >>= _) = _
  rw [heq'', pure_bind]
  dsimp only
  rw [hall]
  rfl

variable (lines)

theorem parseItems_eof {p : Parsed} (h : c.tokens = [.eof]) : parseItems lines p c = p := by
  obtain ⟨stop, rest⟩ := c
  obtain ⟨l, rest, rfl, hl, _⟩ := Cursor.tokens_cons h
  rw [parseItems]
  dsimp only
  rw [hl]

/-- A record whose name is free is read and defined. -/
theorem parseItems_record {p : Parsed} {g : Registry} {r : Record}
    (hr : r = p.types.makeRecord r.name r.fields)
    (hfields : ∀ f ∈ r.fields, p.types.get? f.2.name = some f.2) (hg : p.types.register? r = some g)
    (h : c.tokens = recordTokens r ++ more) :
    ∃ pos d, parseItems lines p c = parseItems lines
      { p with types := g, file := { p.file with typedefs := p.file.typedefs ++ [⟨pos, r⟩] } } d ∧
      d.tokens = more := by
  obtain ⟨stop, rest⟩ := c
  obtain ⟨l, rest, rfl, hl, hrest⟩ := Cursor.tokens_cons h
  have hrecord : Cursor.tokens ⟨l.stop, rest⟩ =
      .ident r.name :: .punct .lbrace :: fieldTokens r.fields ++ more := hrest _
  obtain ⟨⟨d, hd⟩, heq, hd'⟩ := parseRecord_takes (s := ⟨lines, p.types⟩) hfields hrecord
  refine ⟨lines.locate l.start, d, ?_, hd'⟩
  rw [parseItems]
  dsimp only
  rw [hl]
  dsimp only
  rw [heq]
  change parseItems lines (p.define _ r.name r.fields) d = _
  rw [Parsed.define, ← hr, hg]

/-- A function is read behind those before it. -/
theorem parseItems_function {p : Parsed} {f : Function} {ts : List Token}
    (hplain : PlainFunction p.types f) (hf : FunctionTokens p.types f ts) (h : c.tokens = ts ++ more) :
    ∃ f' d, parseItems lines p c = parseItems lines
      { p with file := { p.file with functions := p.file.functions ++ [f'] } } d ∧
      f'.erase = f.erase ∧ d.tokens = more := by
  obtain ⟨us, rfl⟩ : ∃ us, ts = .ident f.name :: us := by
    obtain ⟨us, _, rfl⟩ := hf
    exact ⟨_, rfl⟩
  obtain ⟨stop, rest⟩ := c
  obtain ⟨l, rest, rfl, hl, hrest⟩ := Cursor.tokens_cons h
  obtain ⟨f', ⟨d, hd⟩, heq, hf', hd'⟩ := parseFunction_takes (s := ⟨lines, p.types⟩)
    (lines.locate l.start) hplain hf (hrest l.stop)
  refine ⟨f', d, ?_, hf', hd'⟩
  rw [parseItems]
  dsimp only
  rw [hl]
  dsimp only
  rw [heq]
  rfl

/-- All records are read in the order of their definition. -/
theorem parseItems_typedefs (file : String) {g : Registry} {rs : List Typedef} (h : Defines g rs)
    (hc : c.tokens = rs.flatMap (fun t => recordTokens t.record) ++ more) :
    ∃ rs' d, parseItems lines ⟨{ name := file }, {}, #[], none⟩ c =
      parseItems lines ⟨{ name := file, typedefs := rs' }, g, #[], none⟩ d ∧
      rs'.map Typedef.erase = rs.map Typedef.erase ∧ d.tokens = more := by
  induction h generalizing more with
  | nil => exact ⟨[], c, rfl, rfl, hc⟩
  | @concat g g' rs pos name fields _ _ hfields hregister ih =>
    rw [List.flatMap_append, List.append_assoc] at hc
    obtain ⟨rs', d, heq, hrs, hd⟩ := ih hc
    rw [List.flatMap_cons, List.flatMap_nil, List.append_nil] at hd
    obtain ⟨pos', e, heq', he⟩ := parseItems_record lines
      (p := ⟨{ name := file, typedefs := rs' }, g, #[], none⟩) rfl
      (fun f hf => (hfields f hf).2.1) hregister hd
    refine ⟨_, e, heq.trans heq', ?_, he⟩
    rw [List.map_append, List.map_append, hrs]
    rfl

/-- All functions are read in their order. -/
theorem parseItems_functions {p : Parsed} {fs : List Function} {tss : List (List Token)}
    (hplain : ∀ f ∈ fs, PlainFunction p.types f) (hfs : List.Forall₂ (FunctionTokens p.types) fs tss)
    (hc : c.tokens = tss.flatten ++ more) :
    ∃ fs' d, parseItems lines p c = parseItems lines
      { p with file := { p.file with functions := p.file.functions ++ fs' } } d ∧
      fs'.map Function.erase = fs.map Function.erase ∧ d.tokens = more := by
  induction fs generalizing p c tss with
  | nil =>
    cases hfs
    exact ⟨[], c, by rw [List.append_nil], rfl, hc⟩
  | cons f fs ih =>
    cases hfs with
    | @cons _ ts _ tss hf hfs =>
      rw [List.forall_mem_cons] at hplain
      rw [List.flatten_cons, List.append_assoc] at hc
      obtain ⟨f', d, heq, hf', hd⟩ := parseItems_function lines hplain.1 hf hc
      obtain ⟨fs', e, heq', hfs', he⟩ := ih
        (p := { p with file := { p.file with functions := p.file.functions ++ [f'] } }) hplain.2 hfs hd
      refine ⟨f' :: fs', e, ?_, ?_, he⟩
      · rw [heq, heq', List.append_assoc, List.singleton_append]
      · rw [List.map_cons, List.map_cons, hf', hfs']

end RegisterLang.Parser
