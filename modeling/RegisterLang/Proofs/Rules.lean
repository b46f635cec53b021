import RegisterLang.Proofs.Trees
import RegisterLang.Tree.Parser

/-!
# What the rules of the grammar keep

A property of the tokens that are left holds after every rule, and a property of trees that every rule
keeps, given that property of the tokens it takes, holds of all that is parsed. Rules for statements
may report: what they keep is said either of every result or only of those without a report.
-/
namespace RegisterLang.Parser
open Source

def Result.Yields {α : Type} (r : Result α) (P : α → Prop) : Prop := ∀ a, r = .ok a → P a

namespace Result.Yields
variable {α β : Type} {r : Result α} {P : α → Prop} {Q : β → Prop}

theorem bind {f : α → Result β} (h : r.Yields P) (hf : ∀ a, P a → (f a).Yields Q) :
    Result.Yields (r >>= f) Q := by
  intro b hb
  cases r with
  | error e => cases hb
  | ok a => exact hf a (h a rfl) b hb

theorem ok {a : α} (h : P a) : Result.Yields (.ok a) P := by
  intro b hb
  cases hb
  exact h

theorem error (e : ParseError) : Result.Yields (.error e : Result α) P := by
  intro b hb
  cases hb

theorem inside {c : Context} (h : r.Yields P) : (r.inside c).Yields P := by
  cases r with
  | error e => exact error _
  | ok a => exact h

end Result.Yields

def Cursor.Over (T : Token → Prop) (c : Cursor) : Prop := ∀ l ∈ c.rest, T l.token

section
variable {T : Token → Prop} {c : Cursor} {l : Lexeme} {rest : List Lexeme}

theorem Cursor.Over.head (h : c.Over T) (hrest : c.rest = l :: rest) : T l.token :=
  h l (by rw [hrest]; exact List.mem_cons_self)

theorem Cursor.Over.tail (h : c.Over T) (hrest : c.rest = l :: rest) (stop : Nat) :
    Cursor.Over T ⟨stop, rest⟩ :=
  fun l' hl' => h l' (by rw [hrest]; exact List.mem_cons_of_mem _ hl')

def Left (T : Token → Prop) {α : Type} (P : α → Prop) {n : Nat} (r : α × Cursor.Below n) : Prop :=
  P r.1 ∧ r.2.val.Over T

theorem expect_over (p : Punct) (hc : c.Over T) :
    (expect p c).Yields fun d => d.val.Over T := by
  unfold expect
  split
  · exact .error _
  next l rest hrest =>
    split
    · exact .ok (hc.tail hrest _)
    · exact .error _

theorem expectIdent_over (hc : c.Over T) :
    (expectIdent c).Yields fun r => T (.ident r.1) ∧ r.2.2.val.Over T := by
  unfold expectIdent
  split
  · exact .error _
  next l rest hrest =>
    split
    next name hname => exact .ok ⟨hname ▸ hc.head hrest, hc.tail hrest _⟩
    · exact .error _

end

/-- A property of expressions that holds of what every rule builds from expressions that have it and
from tokens with the property `T`. -/
structure ExprsKept (T : Token → Prop) (P : Expr → Prop) : Prop where
  literal : ∀ {pos t r}, T t → literal? pos t = some r → r.Yields P
  ident : ∀ pos name, T (.ident name) → P (.ident pos none name)
  negate : ∀ pos x, P x → P (negate pos x)
  op : ∀ pos p op n x y, binaryOp? p = some (op, n) → P x → P y → P (.op pos none op true x y)
  call : ∀ pos name args, T (.ident name) → (∀ a ∈ args, P a) → P (.call pos none name none args)

theorem tighterOp?_eq_some {prec n : Nat} {t : Token} {op : Op} (h : tighterOp? prec t = some (op, n)) :
    ∃ p, t = .punct p ∧ binaryOp? p = some (op, n) ∧ prec < n := by
  unfold tighterOp? at h
  split at h
  · obtain ⟨hop, hn⟩ := Option.filter_eq_some_iff.mp h
    exact ⟨_, rfl, hop, by simpa using hn⟩
  · cases h

structure ExprsLeft (T : Token → Prop) (P : Expr → Prop) (lines : LineTable) (c : Cursor) : Prop where
  primary : (parsePrimary lines c).Yields (Left T P)
  unary : (parseUnary lines c).Yields (Left T P)
  operators : ∀ prec x bound hc, P x → (parseOperators lines prec x bound c hc).Yields (Left T P)
  expr : ∀ prec, (parseExpr lines prec c).Yields (Left T P)
  args : ∀ args bound hc, (∀ a ∈ args, P a) →
    (parseArgs lines args bound c hc).Yields (Left T fun args => ∀ a ∈ args, P a)

theorem exprsLeft {T : Token → Prop} {P : Expr → Prop} (hP : ExprsKept T P) (lines : LineTable)
    (c : Cursor) (hc : c.Over T) : ExprsLeft T P lines c := by
  -- every rule goes to a smaller cursor, or to the rule before it at the same one
  induction hn : c.size using Nat.strongRecOn generalizing c with
  | ind n ih =>
    have hprimary : (parsePrimary lines c).Yields (Left T P) := by
      unfold parsePrimary
      split
      · exact .error _
      next l rest hrest =>
        have hl : Cursor.size ⟨l.stop, rest⟩ < c.size := Cursor.size_tail hrest
        have hover : Cursor.Over T ⟨l.stop, rest⟩ := hc.tail hrest _
        have htoken := hc.head hrest
        dsimp only
        split
        next literal hliteral =>
          exact (hP.literal htoken hliteral).bind fun x hx => .ok ⟨hx, hover⟩
        next =>
          split
          next name hname =>
            rw [hname] at htoken
            split
            · exact .ok ⟨hP.ident _ _ htoken, hover⟩
            next l' rest' _ _ _ _ =>
              split
              · have hl' : Cursor.size ⟨l'.stop, rest'⟩ < c.size := Nat.lt_of_succ_lt hl
                have hargs := (ih _ (by omega) ⟨l'.stop, rest'⟩ (hover.tail rfl _) rfl).args #[]
                  c.size hl' (by simp)
                refine hargs.bind ?_
                rintro ⟨args, d⟩ ⟨hall, hd⟩
                exact .ok ⟨hP.call _ _ _ htoken fun a ha => hall a (by simpa using ha), hd⟩
              · exact .ok ⟨hP.ident _ _ htoken, hover⟩
          · refine ((ih _ (by omega) ⟨l.stop, rest⟩ hover rfl).expr 0).bind ?_
            rintro ⟨x, d, hd⟩ ⟨hx, hdover⟩
            exact (expect_over _ hdover).bind fun e he => .ok ⟨hx, he⟩
          · exact .error _
    have hunary : (parseUnary lines c).Yields (Left T P) := by
      unfold parseUnary
      split
      · exact hprimary
      next l rest hrest =>
        split
        · have hl : Cursor.size ⟨l.stop, rest⟩ < c.size := Cursor.size_tail hrest
          refine (ih _ (by omega) ⟨l.stop, rest⟩ (hc.tail hrest _) rfl).unary.bind ?_
          rintro ⟨x, d, hd⟩ ⟨hx, hover⟩
          exact .ok ⟨hP.negate _ x hx, hover⟩
        · exact hprimary
    have hoperators : ∀ prec x bound hc, P x →
        (parseOperators lines prec x bound c hc).Yields (Left T P) := by
      intro prec x bound hbound hx
      unfold parseOperators
      split
      · exact .ok ⟨hx, hc⟩
      next l rest hrest =>
        split
        · exact .ok ⟨hx, hc⟩
        next op oprec hop =>
          have hl : Cursor.size ⟨l.stop, rest⟩ < c.size := Cursor.size_tail hrest
          obtain ⟨p, -, hp, -⟩ := tighterOp?_eq_some hop
          refine ((ih _ (by omega) ⟨l.stop, rest⟩ (hc.tail hrest _) rfl).expr oprec).inside.bind ?_
          rintro ⟨r, d, hd⟩ ⟨hr, hover⟩
          exact (ih d.size (by omega) d hover rfl).operators prec _ bound _
            (hP.op _ p op oprec x r hp hx hr)
    have hexpr : ∀ prec, (parseExpr lines prec c).Yields (Left T P) := by
      intro prec
      unfold parseExpr
      refine hunary.bind ?_
      rintro ⟨x, d, hd⟩ ⟨hx, hover⟩
      exact (ih d.size (by omega) d hover rfl).operators prec x c.size hd hx
    refine ⟨hprimary, hunary, hoperators, hexpr, fun args bound hbound hargs => ?_⟩
    unfold parseArgs
    split
    · exact .error _
    next l rest hrest =>
      have hl : Cursor.size ⟨l.stop, rest⟩ < c.size := Cursor.size_tail hrest
      dsimp only
      split
      · exact .ok ⟨hargs, hc.tail hrest _⟩
      · split
        · refine (hexpr 0).inside.bind ?_
          rintro ⟨x, d, hd⟩ ⟨hx, hover⟩
          refine (ih d.size (by omega) d hover rfl).args #[x] bound _ ?_
          intro a ha
          obtain rfl : a = x := by simpa using ha
          exact hx
        · split
          · refine ((ih _ (by omega) ⟨l.stop, rest⟩ (hc.tail hrest _) rfl).expr 0).inside.bind ?_
            rintro ⟨x, d, hd⟩ ⟨hx, hover⟩
            refine (ih d.size (by omega) d hover rfl).args _ bound _ ?_
            intro a ha
            rcases Array.mem_push.mp ha with ha | rfl
            · exact hargs a ha
            · exact hx
          · exact .error _

/-- What holds of the results of a rule that may report, or only of those without a report where
`quiet` is set. Nothing that was reported is taken back. -/
def Ensures {α : Type} (quiet : Bool) (m : Reporting α) (P : α → Prop) : Prop :=
  ∀ ds, ds.size ≤ (m.run.run ds).2.size ∧
    ∀ a, (m.run.run ds).1 = .ok a → (quiet = true → (m.run.run ds).2.size = ds.size) → P a

namespace Ensures
variable {α β : Type} {quiet : Bool} {m : Reporting α} {P : α → Prop} {Q : β → Prop}

/-- What the first rule leaves is a premise of the second, so that the second one is known to take
nothing back even where the first one has reported. -/
theorem bind {f : α → Reporting β} (h : Ensures quiet m P)
    (hf : ∀ a, Ensures quiet (f a) fun b => P a → Q b) : Ensures quiet (m >>= f) Q := by
  intro ds
  have hm := h ds
  rw [ExceptT.run_bind, StateT.run_bind]
  generalize m.run.run ds = r at hm
  obtain ⟨_ | a, ds'⟩ := r
  · exact ⟨hm.1, nofun⟩
  · have hb := hf a ds'
    refine ⟨Nat.le_trans hm.1 hb.1, fun b hok hquiet => ?_⟩
    have hsize : quiet = true → ((f a).run.run ds').2.size = ds.size := hquiet
    have hle := hm.1
    have hle' := hb.1
    dsimp only at hle
    exact hb.2 b hok (fun hq => by have := hsize hq; omega)
      (hm.2 a rfl fun hq => by have := hsize hq; dsimp only; omega)

theorem ofPure {a : α} (h : P a) : Ensures quiet (pure a) P := by
  refine fun ds => ⟨Nat.le_refl _, fun b hb _ => ?_⟩
  cases hb
  exact h

theorem quietly {r : Result α} (h : r.Yields P) : Ensures quiet (Parser.quietly r) P :=
  fun _ => ⟨Nat.le_refl _, fun a ha _ => h a ha⟩

/-- A report is never quiet. -/
theorem report (d : Diagnostic) : Ensures quiet (Parser.report d) fun _ => quiet = false := by
  intro ds
  change ds.size ≤ (ds.push d).size ∧ ∀ a, Except.ok () = .ok a →
    (quiet = true → (ds.push d).size = ds.size) → quiet = false
  refine ⟨by simp, fun _ _ hquiet => Bool.not_eq_true _ ▸ fun hq => ?_⟩
  simpa using hquiet hq

theorem mono {P' : α → Prop} (h : Ensures quiet m P) (hP : ∀ a, P a → P' a) : Ensures quiet m P' :=
  fun ds => ⟨(h ds).1, fun a ha hq => hP a ((h ds).2 a ha hq)⟩

theorem and {P' : α → Prop} (h : Ensures quiet m P) (h' : Ensures quiet m P') :
    Ensures quiet m fun a => P a ∧ P' a :=
  fun ds => ⟨(h ds).1, fun a ha hq => ⟨(h ds).2 a ha hq, (h' ds).2 a ha hq⟩⟩

end Ensures

def Found (quiet : Bool) (K : Ty → Prop) (type : Option Ty) : Prop :=
  quiet = true → ∃ t, type = some t ∧ K t

structure StmtsKept (quiet : Bool) (T : Token → Prop) (K : Ty → Prop) (P : Expr → Prop)
    (R : Piece → Prop) : Prop where
  exprs : ExprsKept T P
  typed : ∀ pos name type init, T (.ident name) → Found quiet K type →
    init.isMissing = true ∨ P init → R (.one (.var { pos, name, type, init }))
  inferred : ∀ pos name init, T (.ident name) → P init → R (.one (.var { pos, name, init }))
  assign : ∀ pos name x, T (.ident name) → P x → R (.one (.assign pos name none x))
  ret : ∀ pos x, x.isMissing = true ∨ P x → R (.one (.ret pos x))
  call : ∀ pos name args, T (.ident name) → (∀ a ∈ args, P a) →
    R (.one (.expr pos (.call pos none name none args)))
  cond : ∀ pos test body more, isCondition test = true → P test → R (.all body) →
    R (.all (elseStmts more)) → R (.one (.cond pos test body more))
  nil : R (.all [])
  concat : ∀ xs x, R (.all xs) → R (.one x) → R (.all (xs ++ [x]))

section
variable {quiet : Bool} {T : Token → Prop} {K : Ty → Prop} {P : Expr → Prop} {R : Piece → Prop}
  {s : Scope}

theorem parseType_ensures (hK : ∀ name t, T (.ident name) → s.types.get? name = some t → K t)
    (c : Cursor) :
    Ensures quiet (parseType s c) fun r => c.Over T → Left T (Found quiet K) r := by
  unfold parseType
  refine Ensures.bind (P := fun r => c.Over T → T (.ident r.1) ∧ r.2.2.val.Over T)
    (.quietly fun a ha hc => expectIdent_over hc a ha) ?_
  rintro ⟨name, l, d⟩
  dsimp only
  split
  next t ht =>
    refine .ofPure fun h hc => ?_
    obtain ⟨hname, hd⟩ := h hc
    exact ⟨fun _ => ⟨t, rfl, hK name t hname ht⟩, hd⟩
  · refine (Ensures.report _).bind fun _ => .ofPure fun hquiet h hc => ?_
    refine ⟨fun hq => ?_, (h hc).2⟩
    rw [hquiet] at hq
    cases hq

variable (T) in
theorem expect_ensures (p : Punct) (c : Cursor) :
    Ensures quiet (quietly (expect p c)) fun d => c.Over T → d.val.Over T :=
  .quietly fun d hd hc => expect_over p hc d hd

variable (hR : StmtsKept quiet T K P R)
include hR

theorem parseExpr_ensures (lines : LineTable) (context : Context) (c : Cursor) :
    Ensures quiet (quietly ((parseExpr lines 0 c).inside context)) fun r => c.Over T → Left T P r :=
  .quietly fun r hr hc => ((exprsLeft hR.exprs lines c hc).expr 0).inside r hr

theorem parseInit_ensures (name : String) (bound : Nat) (c : Cursor) (hc : c.size < bound) :
    Ensures quiet (quietly (parseInit s name bound c hc)) fun r =>
      c.Over T → Left T (fun x => x.isMissing = true ∨ P x) r := by
  refine .quietly fun a ha hover => ?_
  revert a
  change (parseInit s name bound c hc).Yields _
  unfold parseInit
  split
  · exact .ok ⟨.inl rfl, hover⟩
  next l rest hrest =>
    split
    · refine ((exprsLeft hR.exprs s.lines _ (hover.tail hrest _)).expr 0).inside.bind ?_
      rintro ⟨x, d, hd⟩ ⟨hx, hd'⟩
      exact .ok ⟨.inr hx, hd'⟩
    · exact .ok ⟨.inl rfl, hover⟩

theorem parseReturn_ensures (pos : Pos) (c : Cursor) :
    Ensures quiet (quietly (parseReturn s pos c)) fun r =>
      c.Over T → Left T (fun x => R (.one x)) r := by
  refine .quietly fun a ha hover => ?_
  revert a
  change (parseReturn s pos c).Yields _
  unfold parseReturn
  split
  · exact .error _
  next l rest hrest =>
    split
    · exact .ok ⟨hR.ret pos .missing (.inl rfl), hover.tail hrest _⟩
    · refine ((exprsLeft hR.exprs s.lines c hover).expr 0).inside.bind ?_
      rintro ⟨x, d, hd⟩ ⟨hx, hd'⟩
      exact (expect_over _ hd').bind fun e he => .ok ⟨hR.ret pos x (.inr hx), he⟩

variable (hK : ∀ name t, T (.ident name) → s.types.get? name = some t → K t)
include hK

theorem parseNamed_ensures (pos : Pos) (name : String) (c : Cursor) :
    Ensures quiet (parseNamed s pos name c) fun r =>
      T (.ident name) → c.Over T → Left T (fun x => R (.one x)) r := by
  unfold parseNamed
  split
  · exact .quietly (.error _)
  next l rest hrest =>
    have hl : Cursor.size ⟨l.stop, rest⟩ < c.size := Cursor.size_tail hrest
    dsimp only
    split
    · refine (parseType_ensures hK _).bind ?_
      rintro ⟨type, d, hd⟩
      refine (parseInit_ensures hR name c.size d _).bind ?_
      rintro ⟨init, e⟩
      refine .ofPure fun hinit htype hname hc => ?_
      obtain ⟨hfound, hd'⟩ := htype (hc.tail hrest _)
      obtain ⟨hi, he⟩ := hinit hd'
      exact ⟨hR.typed pos name type init hname hfound hi, he⟩
    · refine (parseExpr_ensures hR s.lines _ _).bind ?_
      rintro ⟨init, d, hd⟩
      refine .ofPure fun hinit hname hc => ?_
      obtain ⟨hi, hd'⟩ := hinit (hc.tail hrest _)
      exact ⟨hR.inferred pos name init hname hi, hd'⟩
    · refine (parseExpr_ensures hR s.lines _ _).bind ?_
      rintro ⟨x, d, hd⟩
      refine .ofPure fun hexpr hname hc => ?_
      obtain ⟨hx, hd'⟩ := hexpr (hc.tail hrest _)
      exact ⟨hR.assign pos name x hname hx, hd'⟩
    · refine Ensures.bind (P := fun r => c.Over T → Left T (fun args => ∀ a ∈ args, P a) r)
        (.quietly fun r hr hc =>
          (exprsLeft hR.exprs s.lines _ (hc.tail hrest l.stop)).args #[] c.size hl (by simp) r hr) ?_
      rintro ⟨args, d⟩
      refine .ofPure fun hargs hname hc => ?_
      obtain ⟨hall, hd⟩ := hargs hc
      exact ⟨hR.call pos name args.toList hname fun a ha => hall a (by simpa using ha), hd⟩
    · exact .quietly (.error _)

omit hR hK in
variable (quiet T R) in
structure StmtsLeft (s : Scope) (c : Cursor) : Prop where
  block : Ensures quiet (parseBlock s c) fun r => c.Over T → Left T (fun body => R (.all body)) r
  stmts : ∀ body bound hc, Ensures quiet (parseStmts s body bound c hc) fun r =>
    R (.all body.toList) → c.Over T → Left T (fun body => R (.all body.toList)) r
  stmt : Ensures quiet (parseStmt s c) fun r => c.Over T → Left T (fun x => R (.one x)) r
  cond : ∀ pos bound hc, Ensures quiet (parseCond s pos bound c hc) fun r =>
    c.Over T → Left T (fun x => R (.one x)) r
  more : ∀ bound hc, Ensures quiet (parseElse s bound c hc) fun r =>
    c.Over T → Left T (fun more => R (.all (elseStmts more))) r

theorem stmtsLeft (c : Cursor) : StmtsLeft quiet T R s c := by
  induction hn : c.size using Nat.strongRecOn generalizing c with
  | ind n ih =>
    have hblock : Ensures quiet (parseBlock s c) fun r =>
        c.Over T → Left T (fun body => R (.all body)) r := by
      unfold parseBlock
      refine (expect_ensures T _ c).bind ?_
      rintro ⟨d, hd⟩
      refine ((ih d.size (by omega) d rfl).stmts #[] c.size hd).bind ?_
      rintro ⟨body, e⟩
      exact .ofPure fun hbody hover hc => hbody hR.nil (hover hc)
    have hcond : ∀ pos bound hc, Ensures quiet (parseCond s pos bound c hc) fun r =>
        c.Over T → Left T (fun x => R (.one x)) r := by
      intro pos bound hc
      unfold parseCond
      refine (parseExpr_ensures hR s.lines _ c).bind ?_
      rintro ⟨test, d, hd⟩
      dsimp only
      split
      · exact .quietly (.error _)
      next hcondition =>
        refine ((ih d.size (by omega) d rfl).block).bind ?_
        rintro ⟨body, e, he⟩
        refine ((ih e.size (by omega) e rfl).more bound _).bind ?_
        rintro ⟨more, g⟩
        refine .ofPure fun hmore hbody htest hover => ?_
        obtain ⟨ht, hd'⟩ := htest hover
        obtain ⟨hb, he'⟩ := hbody hd'
        obtain ⟨hm, hg⟩ := hmore he'
        exact ⟨hR.cond pos test body more (by simpa using hcondition) ht hb hm, hg⟩
    have hmore : ∀ bound hc, Ensures quiet (parseElse s bound c hc) fun r =>
        c.Over T → Left T (fun more => R (.all (elseStmts more))) r := by
      intro bound hc
      unfold parseElse
      split
      next l l' rest hrest =>
        have hl : Cursor.size ⟨l.stop, l' :: rest⟩ < c.size := Cursor.size_tail hrest
        have hl' : Cursor.size ⟨l'.stop, rest⟩ < c.size := Nat.lt_of_succ_lt hl
        dsimp only
        split
        · exact .ofPure fun hover => ⟨hR.nil, hover⟩
        · split
          · refine ((ih _ (by omega) ⟨l'.stop, rest⟩ rfl).cond _ bound _).bind ?_
            rintro ⟨more, g⟩
            refine .ofPure fun hmore hover => ?_
            obtain ⟨hm, hg⟩ := hmore ((hover.tail hrest l.stop).tail rfl _)
            exact ⟨hR.concat [] more hR.nil hm, hg⟩
          · refine ((ih _ (by omega) ⟨l.stop, l' :: rest⟩ rfl).block).bind ?_
            rintro ⟨more, g⟩
            exact .ofPure fun hmore hover => hmore (hover.tail hrest _)
      · exact .ofPure fun hover => ⟨hR.nil, hover⟩
    have hstmt : Ensures quiet (parseStmt s c) fun r =>
        c.Over T → Left T (fun x => R (.one x)) r := by
      unfold parseStmt
      split
      · exact .quietly (.error _)
      next l rest hrest =>
        have hl : Cursor.size ⟨l.stop, rest⟩ < c.size := Cursor.size_tail hrest
        dsimp only
        split
        · refine (parseReturn_ensures hR _ _).bind ?_
          rintro ⟨x, d, hd⟩
          exact .ofPure fun hx hover => hx (hover.tail hrest _)
        · exact ((ih _ (by omega) ⟨l.stop, rest⟩ rfl).cond _ c.size hl).mono
            fun _ hx hover => hx (hover.tail hrest _)
        next name hname =>
          refine (parseNamed_ensures hR hK _ _ _).bind ?_
          rintro ⟨x, d, hd⟩
          refine (expect_ensures T _ d).bind ?_
          rintro ⟨e, he⟩
          refine .ofPure fun hover' hx hover => ?_
          obtain ⟨hx', hd'⟩ := hx (hname ▸ hover.head hrest) (hover.tail hrest _)
          exact ⟨hx', hover' hd'⟩
        · exact .quietly (.error _)
    refine ⟨hblock, fun body bound hc => ?_, hstmt, hcond, hmore⟩
    unfold parseStmts
    split
    · exact .quietly (.error _)
    next l rest hrest =>
      have hl : Cursor.size ⟨l.stop, rest⟩ < c.size := Cursor.size_tail hrest
      dsimp only
      split
      · exact .ofPure fun hbody hover => ⟨hbody, hover.tail hrest _⟩
      · split
        · exact ((ih _ (by omega) ⟨l.stop, rest⟩ rfl).stmts body bound _).mono
            fun _ h hbody hover => h hbody (hover.tail hrest _)
        · split
          · exact .quietly (.error _)
          · refine hstmt.bind ?_
            rintro ⟨x, d, hd⟩
            refine ((ih d.size (by omega) d rfl).stmts _ bound _).mono ?_
            intro r hr hstmt hbody hover
            obtain ⟨hx, hd'⟩ := hstmt hover
            refine hr ?_ hd'
            rw [Array.toList_push]
            exact hR.concat body.toList x hbody hx

omit hR in
/-- What is kept of parameters: `V` holds of a variable with a name, a type that was looked up and no
initial value. -/
theorem parseParams_ensures {V : Var → Prop}
    (hV : ∀ pos name type, T (.ident name) → Found quiet K type →
      V { pos, name, nameType := type, type })
    (params : Array Var) (bound : Nat) (c : Cursor) (hc : c.size < bound) :
    Ensures quiet (parseParams s params bound c hc) fun r =>
      (∀ p ∈ params, V p) → c.Over T → Left T (fun params => ∀ p ∈ params, V p) r := by
  induction hn : c.size using Nat.strongRecOn generalizing c params with
  | ind n ih =>
    unfold parseParams
    split
    · exact .quietly (.error _)
    next l rest hrest =>
      have hl : Cursor.size ⟨l.stop, rest⟩ < c.size := Cursor.size_tail hrest
      dsimp only
      split
      · exact .ofPure fun hparams hover => ⟨hparams, hover.tail hrest _⟩
      · split
        · exact .quietly (.error _)
        · refine Ensures.bind (P := fun r => c.Over T → T (.ident r.1) ∧ r.2.2.val.Over T)
            (.quietly fun a ha hover => expectIdent_over ?_ a ha) fun x => ?_
          · split
            · exact hover
            · exact hover.tail hrest _
          refine (expect_ensures T _ _).bind fun y => (parseType_ensures hK _).bind fun z => ?_
          have hsize : z.2.val.size < c.size := by
            refine Nat.lt_of_lt_of_le
              (Nat.lt_trans z.2.property (Nat.lt_trans y.property x.2.2.property)) ?_
            split
            · exact Nat.le_refl _
            · exact Nat.le_of_lt hl
          refine (ih z.2.val.size (by omega) _ z.2.val _ rfl).mono ?_
          intro r hr htype hcolon hident hparams hover
          obtain ⟨hname, hd⟩ := hident hover
          obtain ⟨hfound, hg⟩ := htype (hcolon hd)
          refine hr (fun p hp => ?_) hg
          rcases Array.mem_push.mp hp with hp | rfl
          · exact hparams p hp
          · exact hV _ x.1 z.1 hname hfound

omit hR in
theorem parseRet_ensures (bound : Nat) (c : Cursor) (hc : c.size < bound) :
    Ensures quiet (parseRet s bound c hc) fun r =>
      c.Over T → Left T (fun t => quiet = true → t = .void ∨ K t) r := by
  unfold parseRet
  split
  · exact .ofPure fun hover => ⟨fun _ => .inl rfl, hover⟩
  next l rest hrest =>
    split
    · refine (parseType_ensures hK _).bind ?_
      rintro ⟨type, d, hd⟩
      refine .ofPure fun htype hover => ?_
      obtain ⟨hfound, hd'⟩ := htype (hover.tail hrest _)
      refine ⟨fun hquiet => ?_, hd'⟩
      obtain ⟨t, rfl, ht⟩ := hfound hquiet
      exact .inr ht
    · exact .ofPure fun hover => ⟨fun _ => .inl rfl, hover⟩

end

end RegisterLang.Parser
