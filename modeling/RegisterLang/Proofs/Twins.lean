import RegisterLang.Proofs.Inference

/-!
# Code without annotations

From the same layouts a plain function and its annotated form are lowered to the same code. The
condition is that every number that decides a type by itself has the type that is inferred for it; a
number of the largest or the smallest size may not have it.
-/
namespace RegisterLang
open Lowering Typing

mutual

/-- What lowering infers for the values and conditions of a statement is what checking gives them.
The statement is compared with its annotated form, which knows the types of assigned variables. -/
def Stmt.settled (ret : Option Ty) : Stmt → Stmt → Bool
  | .var v, _ => v.init.settled v.type
  | .assign _ _ _ x, .assign _ _ nt _ => x.settled nt
  | .ret _ x, _ => x.settled ret
  | .expr _ x, _ => x.comparisonsLead
  | .cond _ test body none, .cond _ _ body' _ => test.settled none && blockSettled ret body body'
  | .cond _ test body (some more), .cond _ _ body' more' =>
    test.settled none && blockSettled ret body body' && blockSettled ret more (elseStmts more')
  | _, _ => true
termination_by structural x => x

def blockSettled (ret : Option Ty) : List Stmt → List Stmt → Bool
  | x :: rest, x' :: rest' => x.settled ret x' && blockSettled ret rest rest'
  | _, _ => true
termination_by structural x => x

end

def Piece.settled (ret : Option Ty) : Piece → Piece → Bool
  | .one x, .one x' => x.settled ret x'
  | .all xs, .all xs' => blockSettled ret xs xs'
  | _, _ => true

theorem settled_cond {ret : Option Ty} {pos pos' : Pos} {test test' : Expr} {body body' : Block}
    {more more' : Option Block}
    (h : Stmt.settled ret (.cond pos test body more) (.cond pos' test' body' more') = true) :
    test.settled none = true ∧ blockSettled ret body body' = true ∧
      blockSettled ret (elseStmts more) (elseStmts more') = true := by
  cases more with
  | none =>
    rw [Stmt.settled, Bool.and_eq_true] at h
    exact ⟨h.1, h.2, rfl⟩
  | some more =>
    rw [Stmt.settled, Bool.and_eq_true, Bool.and_eq_true] at h
    exact ⟨h.1.1, h.1.2, h.2⟩

namespace Lowering

def Twin (l l' : Layout) : Prop :=
  ∃ nameType body, l' = { l with function := { l.function with nameType, body } }

structure Twins (s s' : Scope) : Prop where
  layouts : List.Forall₂ Twin s.layouts s'.layouts
  current : Twin s.current s'.current

namespace Twins
variable {s s' : Scope} (h : Twins s s')
include h

theorem vars : s'.current.vars = s.current.vars := by
  obtain ⟨nt, body, heq⟩ := h.current
  rw [heq]

theorem lookup (pos : Pos) (name : String) : s'.lookup pos name = s.lookup pos name := by
  unfold Scope.lookup Layout.var?
  rw [h.vars]

theorem free : s'.current.free = s.current.free := by
  obtain ⟨nt, body, heq⟩ := h.current
  rw [heq]
  rfl

theorem base (n : Nat) : s'.current.base n = s.current.base n := by
  obtain ⟨nt, body, heq⟩ := h.current
  rw [heq]
  rfl

/-- A name stands for the same function in both. -/
theorem callee? (name : String) : (s.callee? name = none ∧ s'.callee? name = none) ∨
    ∃ c c', s.callee? name = some c ∧ s'.callee? name = some c' ∧ Twin c c' := by
  unfold Scope.callee?
  have hlayouts := h.layouts
  generalize s.layouts = ls at hlayouts
  generalize s'.layouts = ls' at hlayouts
  induction hlayouts with
  | nil => exact .inl ⟨rfl, rfl⟩
  | @cons l l' ls ls' hl hls ih =>
    obtain ⟨nt, body, rfl⟩ := hl
    by_cases hname : l.function.name = name
    · right
      refine ⟨l, _, List.find?_cons_of_pos (by simpa using hname),
        List.find?_cons_of_pos (by simpa using hname), nt, body, rfl⟩
    · rw [List.find?_cons_of_neg (by simpa using hname), List.find?_cons_of_neg (by simpa using hname)]
      exact ih

/-- Operands are lowered alike if expressions are. -/
theorem operand {x x' : Expr} {want : Option Ty} (hident : ident? x' = ident? x)
    (hlower : ∀ dst free, lower s want dst free x = lower s' want dst free x') (free : Reg) :
    operand s want free x = Lowering.operand s' want free x' := by
  unfold Lowering.operand
  rw [hident]
  split
  · rw [h.lookup]
  · rw [hlower]

end Twins

def lowerTo (s : Scope) (dst free : Reg) (args : List Expr) (callee : Layout) : Emit Unit := do
  let base := s.current.base args.length
  let types := callee.function.params.map Var.type
  if args.any makesCall then
    lowerArgs s true free free types args
    moveAll base free args.length
  else lowerArgs s false base free types args
  Emit.instr (.call callee.index.toUInt32)
  if base ≠ dst then Emit.instr (.mov dst base)

theorem lower_call (s : Scope) (want : Option Ty) (dst free : Reg) (pos : Pos) (ty : Option Ty)
    (name : String) (nt : Option Ty) (args : List Expr) :
    lower s want dst free (.call pos ty name nt args) = (do
      match ← resolve s pos name args.length with
      | some callee => lowerTo s dst free args callee
      | none => return) := by
  rw [lower]
  refine bind_congr fun callee => ?_
  cases callee <;> rfl

/-- The function that a call finds has the signature of its name. -/
theorem params_of_callee? {s : Scope} {name : String} {c : Layout} (hc : s.callee? name = some c)
    {ret : Option Ty} {params : List (Option Ty)}
    (hname : signatures s.functions name = some (ret, params)) :
    c.function.params.map Var.type = params := by
  have hfunction : function? s.functions name = some c.function := by
    unfold function? Scope.functions
    rw [List.find?_map]
    exact congrArg (Option.map Layout.function) hc
  rw [signatures, hfunction] at hname
  exact congrArg Prod.snd (Option.some.inj hname)

section
variable {s s' : Scope} {vars : TypeEnv}

theorem lowerLiteral_eq {want : Option Ty} {dst : Reg} {x x' : Expr} {t : Ty}
    (hx : s.typeOf want x = some t) (hx' : x'.type = some t) (hpos : x'.pos = x.pos)
    (hbits : ∀ t, literalBits? t x' = literalBits? t x) :
    lowerLiteral s want dst x = lowerLiteral s' want dst x' := by
  have htype := typeOf_eq_type s' want x' (by rw [hx']; exact Option.some_ne_none _)
  unfold lowerLiteral
  simp only [hx, htype, hx', hpos, hbits]

def LowerGoal (s s' : Scope) : Goal → Prop
  | .expr _ x x' t => x.comparisonsLead = true → ∀ want dst free, s.typeOf want x = some t →
      lower s want dst free x = lower s' want dst free x'
  | .args want xs xs' => Expr.argsComparisonsLead xs = true → ∀ waiting dst free,
      lowerArgs s waiting dst free want xs = lowerArgs s' waiting dst free want xs'

theorem lower_pair_eq {want : Option Ty} {dst free : Reg} {pos : Pos} {op : Op}
    {left left' right right' : Expr} {t : Ty}
    (htype : s.typeOf want (.op pos none op true left right) = some t)
    (hleft : ∀ free, operand s (some t) free left = operand s' (some t) free left')
    (hright : ∀ free, operand s (some t) free right = operand s' (some t) free right') :
    lower s want dst free (.op pos none op true left right) =
      lower s' want dst free (.op pos (some t) op true left' right') := by
  have htype' : s'.typeOf want (.op pos (some t) op true left' right') = some t := rfl
  rw [lower_op, lower_op, htype, htype']
  simp only [hleft, hright]

variable (h : Twins s s') (hknown : KnowsTypes s.current.vars vars)
include h

theorem lower_call_eq {want : Option Ty} {dst free : Reg} {pos : Pos} {ty ty' nt nt' : Option Ty}
    {name : String} {args args' : List Expr} {params : List (Option Ty)}
    (hparams : ∀ c, s.callee? name = some c → c.function.params.map Var.type = params)
    (hlength : args'.length = args.length) (hcalls : args'.any makesCall = args.any makesCall)
    (hargs : ∀ waiting dst free,
      lowerArgs s waiting dst free params args = lowerArgs s' waiting dst free params args') :
    lower s want dst free (.call pos ty name nt args) =
      lower s' want dst free (.call pos ty' name nt' args') := by
  rw [lower_call, lower_call, hlength]
  unfold resolve
  rcases h.callee? name with ⟨hnone, hnone'⟩ | ⟨c, c', hc, hc', nt, body, rfl⟩
  · rw [hnone, hnone']
    rfl
  · have hcode : lowerTo s dst free args c = lowerTo s' dst free args'
        { c with function := { c.function with nameType := nt, body } } := by
      unfold lowerTo
      simp only [hparams c hc, hlength, hcalls, h.base, hargs]
    rw [hc, hc']
    by_cases hn : args.length = c.function.params.length
    · simp only [Layout.args, hn, ne_eq, not_true_eq_false, if_false, pure_bind]
      exact hcode
    · simp only [Layout.args, hn, ne_eq, not_false_eq_true, if_true, bind_assoc, pure_bind]

include hknown in
theorem lowerGoal {g : Goal} (hg : Elaborates (signatures s.functions) vars g) :
    LowerGoal s s' g := by
  induction hg with
  | ident hname =>
    intro _ want dst free _
    rw [lower, lower, h.lookup]
  | int => exact fun _ want dst free htype => lowerLiteral_eq htype rfl rfl fun _ => rfl
  | float => exact fun _ want dst free htype => lowerLiteral_eq htype rfl rfl fun _ => rfl
  | double => exact fun _ want dst free htype => lowerLiteral_eq htype rfl rfl fun _ => rfl
  | char => exact fun _ want dst free htype => lowerLiteral_eq htype rfl rfl fun _ => rfl
  | string => exact fun _ want dst free htype => lowerLiteral_eq htype rfl rfl fun _ => rfl
  | @neg want' pos x x' t hx ih =>
    intro hlead want dst free htype
    have hlead' : x.comparisonsLead = true := by
      simp only [Expr.comparisonsLead, Bool.and_eq_true] at hlead
      exact hlead.2
    have hown : s.typeOf (some t) x = some t := hx.typeOf_own hknown hlead'
    have hoperand := h.operand hx.cost.ident fun dst free => ih hlead' (some t) dst free hown
    have htype' : s'.typeOf want (.op pos (some t) .neg false .missing x') = some t := rfl
    rw [lower_op, lower_op, htype, htype']
    simp only [Bool.false_eq_true, if_false, hoperand]
  | follow _ hright hleft ihr ihl | lead _ hleft hright ihl ihr =>
    intro hlead want dst free htype
    simp only [Expr.comparisonsLead, Bool.and_eq_true] at hlead
    exact lower_pair_eq htype
      (h.operand hleft.cost.ident fun dst free =>
        ihl hlead.1.2 _ dst free (hleft.typeOf_own hknown hlead.1.2))
      (h.operand hright.cost.ident fun dst free =>
        ihr hlead.2 _ dst free (hright.typeOf_own hknown hlead.2))
  | call hname hargs ih =>
    intro hlead want dst free _
    refine lower_call_eq h (fun c hc => ?_) hargs.costs.length hargs.costs.call (ih hlead)
    exact params_of_callee? hc hname
  | nil => exact fun _ _ _ _ => rfl
  | cons ha hrest iha ih =>
    intro hlead waiting dst free
    simp only [Expr.argsComparisonsLead, Bool.and_eq_true] at hlead
    rw [lowerArgs, lowerArgs]
    simp only [List.headD_cons, List.tail_cons]
    rw [iha hlead.1 _ _ _ (ha.typeOf_own hknown hlead.1), ih hlead.2]

include hknown

theorem lower_eq {want : Option Ty} {x x' : Expr} {t : Ty}
    (hx : Elaborates (signatures s.functions) vars (.expr want x x' t))
    (hlead : x.comparisonsLead = true) {want' : Option Ty} (htype : s.typeOf want' x = some t)
    (dst free : Reg) : lower s want' dst free x = lower s' want' dst free x' :=
  lowerGoal h hknown hx hlead want' dst free htype

theorem operand_eq {want : Option Ty} {x x' : Expr} {t : Ty}
    (hx : Elaborates (signatures s.functions) vars (.expr want x x' t))
    (hlead : x.comparisonsLead = true) (free : Reg) :
    operand s (some t) free x = operand s' (some t) free x' :=
  h.operand hx.cost.ident
    (fun dst free => lower_eq h hknown hx hlead (hx.typeOf_own hknown hlead) dst free) free

/-- Conditions have the same operator, and operands that are lowered alike. -/
theorem comparison_eq {want : Option Ty} {x x' : Expr} {t : Ty}
    (hx : Elaborates (signatures s.functions) vars (.expr want x x' t))
    (hlead : x.comparisonsLead = true) : ∃ op left left' right right',
      comparison x = (op, left, right) ∧ comparison x' = (op, left', right') ∧
      (∀ free, operand s (some t) free left = operand s' (some t) free left') ∧
      ∀ free, operand s (some t) free right = operand s' (some t) free right' := by
  cases hx with
  | neg hright =>
    simp only [Expr.comparisonsLead, Bool.and_eq_true] at hlead
    exact ⟨_, _, _, _, _, rfl, rfl, fun _ => rfl, operand_eq h hknown hright hlead.2⟩
  | follow _ hright hleft | lead _ hleft hright =>
    simp only [Expr.comparisonsLead, Bool.and_eq_true] at hlead
    exact ⟨_, _, _, _, _, rfl, rfl, operand_eq h hknown hleft hlead.1.2,
      operand_eq h hknown hright hlead.2⟩
  | ident | int | float | double | char | string | call =>
    exact ⟨_, _, _, _, _, rfl, rfl, fun _ => rfl, fun _ => rfl⟩

theorem lowerTest_eq {test test' : Expr} {t : Ty}
    (htest : Elaborates (signatures s.functions) vars (.expr none test test' t))
    (hsettled : test.settled none = true) (first : Nat) :
    lowerTest s first test = lowerTest s' first test' := by
  rw [Expr.settled, Bool.and_eq_true] at hsettled
  have htype : s.typeOf none test = some t := htest.typeOf_eq hknown hsettled.1
  have htype' : s'.typeOf none test' = some t := by
    rw [typeOf_eq_type s' none test' (by rw [htest.types.2.1]; exact Option.some_ne_none _), htest.types.2.1]
  obtain ⟨op, left, left', right, right', hc, hc', hl, hr⟩ := comparison_eq h hknown htest hsettled.2
  have hpos : test'.pos = test.pos := by cases htest <;> rfl
  unfold lowerTest
  simp only [htype, htype', hc, hc', hl, hr, h.free, hpos]

end

def lowerPiece (s : Scope) : Piece → Emit Unit
  | .one x => lowerStmt s x
  | .all xs => lowerBlock s xs

/-- A declaration with an initial value is lowered alike if the value is. -/
theorem lowerVar_eq {s s' : Scope} (h : Twins s s') {v v' : Var} {w : Variable}
    (hname : v'.name = v.name) (hw : s.current.var? v.name = some w)
    (hinit : v.init.isMissing = false) (hinit' : v'.init.isMissing = false)
    (hlower : lower s w.ty w.reg s.current.free v.init =
      lower s' w.ty w.reg s'.current.free v'.init) :
    lowerStmt s (.var v) = lowerStmt s' (.var v') := by
  have hw' : s'.current.var? v'.name = some w := by
    rw [Layout.var?, h.vars, hname]
    exact hw
  rw [lowerStmt, lowerStmt, hw, hw', hinit, hinit']
  exact hlower

/-- Statements are lowered alike without and with annotations. -/
theorem lowerPiece_eq {s s' : Scope} (h : Twins s s') {ret : Option Ty}
    (hret : s.current.function.ret = ret) {vars vars' : TypeEnv} {p p' : Piece}
    (hp : ElaboratesStmt (signatures s.functions) ret vars p p' vars')
    (hplanned : Planned s'.current p') (hknown : KnowsTypes s.current.vars vars)
    (hsettled : p.settled ret p' = true) :
    KnowsTypes s.current.vars vars' ∧ lowerPiece s p = lowerPiece s' p' := by
  have hvar : ∀ {name : String} {w : Variable} {t : Ty}, s'.current.var? name = some w →
      w.ty = some t → s.current.var? name = some w ∧
        (s.current.vars.lookup name).bind Variable.ty = some t := by
    intro name w t hw hty
    rw [Layout.var?, h.vars] at hw
    exact ⟨hw, by rw [hw]; exact hty⟩
  have hret' : s'.current.function.ret = ret := by
    obtain ⟨nt, body, heq⟩ := h.current
    rw [heq, ← hret]
  induction hp with
  | declared =>
    cases hplanned with
    | var hw hty _ =>
      obtain ⟨hw', hb⟩ := hvar hw (hty (Option.some_ne_none _))
      refine ⟨hknown.cons hb, ?_⟩
      rw [lowerPiece, lowerPiece, lowerStmt, lowerStmt]
      dsimp only at hw hw' ⊢
      rw [hw, hw']
      rfl
  | typed hinit =>
    cases hplanned with
    | @var _ w hw hty _ =>
      obtain ⟨hw', hb⟩ := hvar hw (hty (Option.some_ne_none _))
      refine ⟨hknown.cons hb, lowerVar_eq h rfl hw' hinit.types.2.2.1 hinit.types.2.2.2 ?_⟩
      rw [Piece.settled, Stmt.settled, Expr.settled, Bool.and_eq_true] at hsettled
      rw [hty (Option.some_ne_none _), h.free]
      exact lower_eq h hknown hinit hsettled.2 (hinit.typeOf_eq hknown hsettled.1) _ _
  | inferred hinit =>
    cases hplanned with
    | @var _ w hw hty _ =>
      obtain ⟨hw', hb⟩ := hvar hw (hty (Option.some_ne_none _))
      refine ⟨hknown.cons hb, lowerVar_eq h rfl hw' hinit.types.2.2.1 hinit.types.2.2.2 ?_⟩
      rw [Piece.settled, Stmt.settled, Expr.settled, Bool.and_eq_true] at hsettled
      rw [hty (Option.some_ne_none _), h.free]
      exact lower_eq h hknown hinit hsettled.2 (hinit.typeOf_own hknown hsettled.2) _ _
  | @assign vars pos name t t' x x' hname hx =>
    refine ⟨hknown, ?_⟩
    obtain ⟨w, hw, hty⟩ := Option.bind_eq_some_iff.mp (hknown name _ hname)
    rw [Piece.settled, Stmt.settled, Expr.settled, Bool.and_eq_true] at hsettled
    rw [lowerPiece, lowerPiece, lowerStmt, lowerStmt, h.lookup]
    have hlookup : s.lookup pos name = pure (some w) := by
      rw [Scope.lookup, Layout.var?, hw]
    rw [hlookup, h.free, pure_bind, pure_bind]
    dsimp only
    rw [hty]
    exact lower_eq h hknown hx hsettled.2 (hx.typeOf_eq hknown hsettled.1) _ _
  | retNothing => exact ⟨hknown, rfl⟩
  | ret hx =>
    refine ⟨hknown, ?_⟩
    rw [Piece.settled, Stmt.settled, Expr.settled, Bool.and_eq_true] at hsettled
    rw [lowerPiece, lowerPiece, lowerStmt, lowerStmt, hx.types.2.2.1, hx.types.2.2.2, hret, hret',
      h.free, lower_eq h hknown hx hsettled.2 (hx.typeOf_eq hknown hsettled.1)]
  | expr hx =>
    refine ⟨hknown, ?_⟩
    rw [Piece.settled, Stmt.settled] at hsettled
    cases hx with
    | call hname hargs =>
      rw [lowerPiece, lowerPiece, lowerStmt, lowerStmt]
      unfold lowerCall
      rw [hargs.costs.length, h.base, h.free]
      exact lower_call_eq h (fun c hc => params_of_callee? hc hname) hargs.costs.length
        hargs.costs.call (lowerGoal h hknown hargs hsettled)
    | _ => rfl
  | cond htest _ _ ihbody ihmore =>
    obtain ⟨htest', hbody', hmore'⟩ := settled_cond hsettled
    cases hplanned with
    | cond _ hpbody hpmore =>
      obtain ⟨hknown₁, hbody⟩ := ihbody hpbody hknown hbody'
      obtain ⟨hknown₂, hmore⟩ := ihmore hpmore hknown₁ hmore'
      refine ⟨hknown₂, ?_⟩
      rw [lowerPiece, lowerPiece] at hbody hmore
      rw [lowerPiece, lowerPiece, lowerStmt_cond, lowerStmt_cond]
      simp only [lowerTest_eq h hknown htest htest', hbody, hmore]
  | nil => exact ⟨hknown, rfl⟩
  | cons _ _ ihx ihrest =>
    rw [Piece.settled, blockSettled, Bool.and_eq_true] at hsettled
    cases hplanned with
    | cons hpx hprest =>
      obtain ⟨hknown₁, hx⟩ := ihx hpx hknown hsettled.1
      obtain ⟨hknown₂, hrest⟩ := ihrest hprest hknown₁ hsettled.2
      refine ⟨hknown₂, ?_⟩
      rw [lowerPiece, lowerPiece] at hx
      rw [lowerPiece, lowerPiece] at hrest
      rw [lowerPiece, lowerPiece, lowerBlock, lowerBlock, hx, hrest]

end Lowering

end RegisterLang
