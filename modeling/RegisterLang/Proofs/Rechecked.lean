import RegisterLang.Proofs.Annotated

/-!
# Checking twice

Checking a tree that was checked without a report changes nothing and reports nothing. The second
check finds a type at declarations that had none, so it expects of an initial value what the first one
inferred of it. An expression of a type keeps its annotations where that type is expected: its numbers
have taken the type already, and an operator passes on to its operands what they have.
-/
namespace RegisterLang
open Lowering

namespace Typing

/-- The check reports nothing, gives `a` and takes the variables from `vars` to `vars'`. -/
def Silent {α : Type} (m : Check α) (vars : TypeEnv) (a : α) (vars' : TypeEnv) : Prop :=
  ∀ ds, m.run ⟨vars, ds⟩ = (a, ⟨vars', ds⟩)

namespace Silent
variable {α β : Type} {m : Check α} {vars vars₁ vars₂ : TypeEnv} {a : α} {b : β}

theorem bind {f : α → Check β} (h : Silent m vars a vars₁) (hf : Silent (f a) vars₁ b vars₂) :
    Silent (m >>= f) vars b vars₂ := by
  intro ds
  rw [StateT.run_bind, h ds]
  exact hf ds

theorem ofPure (a : α) (vars : TypeEnv) : Silent (pure a) vars a vars := by
  intro ds
  rfl

end Silent

theorem isNumeric_intType (value : UInt64) (negative : Bool) (want : Option Ty) :
    (intType value negative want).isNumeric = true := by
  unfold intType
  split
  next t ht => exact (Option.filter_eq_some_iff.mp ht).2
  next => split_ifs <;> rfl

/-- A whole number keeps its type where that type is expected. -/
theorem intType_self (value : UInt64) (negative : Bool) (want : Option Ty) :
    intType value negative (some (intType value negative want)) = intType value negative want := by
  have hnumeric := isNumeric_intType value negative want
  generalize intType value negative want = t at hnumeric
  simp [intType, Option.filter, hnumeric]

/-- A float keeps its type where that type is expected. -/
theorem floatType_self (own : Ty) (want : Option Ty) :
    floatType own (some (floatType own want)) = floatType own want := by
  unfold floatType
  split_ifs <;> simp_all

theorem checkName_silent {vars : TypeEnv} {name : String} {t : Option Ty}
    (h : vars.lookup name = some t) (pos : Pos) : Silent (checkName pos name) vars (some t) vars := by
  intro ds
  simp only [checkName, StateT.run_bind, StateT.run_get, pure_bind, h]
  rfl

end Typing

open Typing

theorem Expr.isNumber_of_elaborates {sig : Signatures} {vars : TypeEnv} {want : Option Ty}
    {x x' : Expr} {t : Ty} (h : Elaborates sig vars (.expr want x x' t)) :
    x'.isNumber = x.isNumber := by
  cases h <;> rfl

section
variable {functions : List Function} {vars : TypeEnv}

/-- The expression is checked to itself, where `want` is expected. -/
def Expr.Stays (functions : List Function) (vars : TypeEnv) (want : Option Ty) (x : Expr) (t : Ty) :
    Prop :=
  Silent (checkExpr functions want x) vars (x, some t) vars

theorem join_silent (pos : Pos) (op : Op) (left right : Expr) (t : Ty) :
    Silent (join pos op left (some t) right (some t)) vars
      (.op pos (some t) op true left right, some t) vars := by
  intro ds
  simp [join]
  rfl

/-- Operands are checked one after the other, the right one first if the left one follows it. -/
theorem Expr.Stays.pair {want : Option Ty} {left right : Expr} {t : Ty} {pos : Pos} {op : Op}
    (hfollow : follows (op.operandWant want) left right = true →
      right.Stays functions vars none t ∧ left.Stays functions vars (some t) t)
    (hlead : follows (op.operandWant want) left right = false →
      left.Stays functions vars (op.operandWant want) t ∧
        right.Stays functions vars ((op.operandWant want).or (some t)) t) :
    Expr.Stays functions vars want (.op pos (some t) op true left right) t := by
  unfold Expr.Stays
  rw [checkExpr_op]
  change Silent (if follows (op.operandWant want) left right = true then _ else _) _ _ _
  by_cases hf : follows (op.operandWant want) left right = true
  · obtain ⟨hright, hleft⟩ := hfollow hf
    rw [if_pos hf]
    exact hright.bind (hleft.bind (join_silent pos op left right t))
  · obtain ⟨hleft, hright⟩ := hlead (by simpa using hf)
    rw [if_neg hf]
    exact hleft.bind (hright.bind (join_silent pos op left right t))

/-- An operator of a type, where that type is expected: a comparison expects nothing of its operands,
and other operators what the operands have already. -/
theorem Expr.Stays.pair_self {want : Option Ty} {left right : Expr} {t : Ty} {pos : Pos} {op : Op}
    (h : Expr.Stays functions vars want (.op pos (some t) op true left right) t)
    (hleft : left.Stays functions vars (some t) t) (hright : right.Stays functions vars (some t) t) :
    Expr.Stays functions vars (some t) (.op pos (some t) op true left right) t := by
  by_cases hop : op.isComparison = true
  · have hwant : checkExpr functions (some t) (.op pos (some t) op true left right) =
        checkExpr functions want (.op pos (some t) op true left right) := by
      simp only [checkExpr_op, hop, if_true]
    unfold Expr.Stays
    rw [hwant]
    exact h
  · have hoperand : op.operandWant (some t) = some t := if_neg hop
    apply Expr.Stays.pair
    · intro hfollows
      rw [hoperand] at hfollows
      cases hfollows
    · intro _
      rw [hoperand]
      exact ⟨hleft, hright⟩

def Goal.Stays (functions : List Function) (vars : TypeEnv) : Goal → Prop
  | .expr want _ x' t => x'.Stays functions vars want t ∧ x'.Stays functions vars (some t) t
  | .args want _ xs' => ∀ done, Silent (checkArgs functions done want xs') vars (done.toList ++ xs') vars

theorem follows_of_elaborates {sig : Signatures} {wl wr : Option Ty} {left left' right right' : Expr}
    {t t' : Ty} (hleft : Elaborates sig vars (.expr wl left left' t))
    (hright : Elaborates sig vars (.expr wr right right' t')) (want : Option Ty) :
    follows want left' right' = follows want left right := by
  rw [follows, follows, Expr.isNumber_of_elaborates hleft, Expr.isNumber_of_elaborates hright]

/-- A call is checked to itself if its arguments are. -/
theorem Expr.Stays.call {name : String} {t : Ty} {params : List (Option Ty)} {args : List Expr}
    (hsig : signatures functions name = some (some t, params)) (hlength : args.length = params.length)
    (hargs : ∀ done, Silent (checkArgs functions done params args) vars (done.toList ++ args) vars)
    (want : Option Ty) (pos : Pos) :
    Expr.Stays functions vars want (.call pos (some t) name (some t) args) t := by
  obtain ⟨f, hf, heq⟩ := Option.map_eq_some_iff.mp hsig
  obtain ⟨hret, rfl⟩ := Prod.mk.inj heq
  unfold function? at hf
  unfold Expr.Stays
  rw [checkExpr, hf]
  dsimp only
  rw [if_neg (by simpa using hlength), hret]
  exact (hargs #[]).bind (.ofPure _ _)

theorem Elaborates.length_eq {sig : Signatures} {want : List (Option Ty)} {xs xs' : List Expr}
    (h : Elaborates sig vars (.args want xs xs')) : xs'.length = want.length := by
  generalize hg : Goal.args want xs xs' = g at h
  induction h generalizing want xs xs' with
  | nil =>
    cases hg
    rfl
  | cons _ _ _ ih =>
    cases hg
    simp [ih rfl]
  | _ => cases hg

theorem Elaborates.stays {g : Goal} (h : Elaborates (signatures functions) vars g) :
    g.Stays functions vars := by
  induction h with
  | @ident want pos name t hname =>
    have hstays : ∀ want, Expr.Stays functions vars want (.ident pos (some t) name) t := by
      intro want
      unfold Expr.Stays
      rw [checkExpr]
      exact (checkName_silent hname pos).bind (.ofPure _ _)
    exact ⟨hstays _, hstays _⟩
  | @int want pos value negative t ht =>
    subst ht
    refine ⟨.ofPure _ _, ?_⟩
    unfold Expr.Stays
    rw [checkExpr, intType_self]
    exact .ofPure _ _
  | @float want pos bits t ht =>
    subst ht
    refine ⟨.ofPure _ _, ?_⟩
    unfold Expr.Stays
    rw [checkExpr, floatType_self]
    exact .ofPure _ _
  | @double want pos bits t ht =>
    subst ht
    refine ⟨.ofPure _ _, ?_⟩
    unfold Expr.Stays
    rw [checkExpr, floatType_self]
    exact .ofPure _ _
  | char => exact ⟨.ofPure _ _, .ofPure _ _⟩
  | string => exact ⟨.ofPure _ _, .ofPure _ _⟩
  | neg _ ih => exact ⟨ih.1.bind (.ofPure _ _), ih.2.bind (.ofPure _ _)⟩
  | @follow want pos op left left' right right' t hfollows hright hleft ihr ihl =>
    have hsame := follows_of_elaborates hleft hright (op.operandWant want)
    have hpair : Expr.Stays functions vars want (.op pos (some t) op true left' right') t := by
      apply Expr.Stays.pair
      · intro _
        exact ⟨ihr.1, ihl.1⟩
      · intro hlead
        rw [hsame, hfollows] at hlead
        cases hlead
    exact ⟨hpair, hpair.pair_self ihl.2 ihr.2⟩
  | @lead want pos op left left' right right' t hlead hleft hright ihl ihr =>
    have hsame := follows_of_elaborates hleft hright (op.operandWant want)
    have hpair : Expr.Stays functions vars want (.op pos (some t) op true left' right') t := by
      apply Expr.Stays.pair
      · intro hfollows
        rw [hsame, hlead] at hfollows
        cases hfollows
      · intro _
        exact ⟨ihl.1, ihr.1⟩
    exact ⟨hpair, hpair.pair_self ihl.2 ihr.2⟩
  | call hsig hargs ih =>
    exact ⟨.call hsig hargs.length_eq ih _ _, .call hsig hargs.length_eq ih _ _⟩
  | nil =>
    intro done
    rw [checkArgs, List.append_nil]
    exact .ofPure _ _
  | @cons w want a a' rest rest' ha hrest iha ihrest =>
    intro done
    have hnext := ihrest (done.push a')
    rw [Array.toList_push, List.append_assoc, List.singleton_append] at hnext
    rw [checkArgs]
    refine Silent.bind iha.1 ?_
    simp only [List.headD_cons, List.tail_cons, ne_eq, not_true_eq_false, if_false]
    exact Silent.bind (.ofPure _ _) hnext

mutual

def Stmt.returnsNothing : Stmt → Bool
  | .ret _ x => x.isMissing
  | .cond _ _ body none => blockReturnsNothing body
  | .cond _ _ body (some more) => blockReturnsNothing body && blockReturnsNothing more
  | .var _ | .assign .. | .expr .. | .other .. => true
termination_by structural x => x

def blockReturnsNothing : List Stmt → Bool
  | [] => true
  | x :: rest => x.returnsNothing && blockReturnsNothing rest
termination_by structural x => x

end

theorem returnsNothing_cond (pos : Pos) (test : Expr) (body : Block) (more : Option Block) :
    (Stmt.cond pos test body more).returnsNothing =
      (blockReturnsNothing body && blockReturnsNothing (elseStmts more)) := by
  cases more <;> simp [Stmt.returnsNothing, elseStmts, blockReturnsNothing]

/-- A function that returns nothing is checked without a report only if no value is returned. -/
theorem checkStmt_returnsNothing (functions : List Function) :
    (∀ x, Checks (checkStmt functions (some .void) x) fun _ r _ => r.returnsNothing = true) ∧
    ∀ xs, Checks (checkBlock functions (some .void) xs) fun _ r _ => blockReturnsNothing r = true := by
  have hexpr : ∀ want x, Checks (checkExpr functions want x) fun _ _ _ => True := by
    intro want x
    exact ((annotates_all functions).1 x want).mono fun _ _ _ _ => trivial
  have hdeclare : ∀ v init t, Checks (declareAs v init t) fun _ r _ => r.returnsNothing = true := by
    intro v init t
    refine Quiet.mono (Quiet.bind (Quiet.ofModify fun _ => rfl) fun _ => Quiet.ofPure _) ?_
    rintro _ _ _ ⟨_, _, rfl, rfl, rfl⟩
    rfl
  apply Stmt.forall_of
  case var =>
    intro v
    rw [checkStmt_var]
    split
    · exact hdeclare _ _ _
    · refine ((hexpr v.type v.init).bind fun y => hdeclare v y.1 (v.type.or y.2)).mono ?_
      rintro _ _ _ ⟨_, _, -, hr⟩
      exact hr
  case assign =>
    intro pos name nt x
    rw [checkStmt]
    refine ((checkName_checks pos name).bind fun t => (hexpr (t.getD none) x).bind fun y =>
      Quiet.ofPure (Stmt.assign pos name (t.getD nt) y.1)).mono ?_
    rintro _ _ _ ⟨_, _, -, _, _, -, rfl, rfl⟩
    rfl
  case ret =>
    intro pos x
    rw [checkStmt]
    by_cases hx : x.isMissing = true
    · rw [if_pos hx]
      refine (Quiet.ofPure _).mono ?_
      rintro _ _ _ ⟨rfl, rfl⟩
      exact hx
    · rw [if_neg hx, if_pos rfl]
      exact Quiet.bind_of_false (report_checks _) fun _ => (hexpr _ x).bind fun _ => Quiet.ofPure _
  case expr =>
    intro pos x
    refine ((hexpr none x).bind fun y => Quiet.ofPure (Stmt.expr pos y.1)).mono ?_
    rintro _ _ _ ⟨_, _, -, rfl, rfl⟩
    rfl
  case cond =>
    intro pos test body more hbody hmore
    cases more with
    | none =>
      rw [checkStmt]
      refine ((hexpr none test).bind fun y => hbody.bind fun body' =>
        Quiet.ofPure (Stmt.cond pos y.1 body' none)).mono ?_
      rintro _ _ _ ⟨_, _, -, _, _, hb, rfl, rfl⟩
      exact hb
    | some more =>
      rw [checkStmt]
      refine ((hexpr none test).bind fun y => hbody.bind fun body' => hmore.bind fun more' =>
        Quiet.ofPure (Stmt.cond pos y.1 body' (some more'))).mono ?_
      rintro _ _ _ ⟨_, _, -, _, _, hb, _, _, hm, rfl, rfl⟩
      simp [Stmt.returnsNothing, hb, hm]
  case other =>
    intro kind pos
    refine (Quiet.ofPure _).mono ?_
    rintro _ _ _ ⟨rfl, rfl⟩
    rfl
  case nil =>
    refine (Quiet.ofPure _).mono ?_
    rintro _ _ _ ⟨rfl, rfl⟩
    rfl
  case cons =>
    intro x rest hx hrest
    refine (hx.bind fun x' => hrest.bind fun rest' => Quiet.ofPure (x' :: rest')).mono ?_
    rintro _ _ _ ⟨_, _, hx, _, _, hrest, rfl, rfl⟩
    simp [blockReturnsNothing, hx, hrest]

def Piece.returnsNothing : Piece → Bool
  | .one x => x.returnsNothing
  | .all xs => blockReturnsNothing xs

def Piece.Stays (functions : List Function) (ret : Option Ty) (vars vars' : TypeEnv) : Piece → Prop
  | .one x => Silent (checkStmt functions ret x) vars x vars'
  | .all xs => Silent (checkBlock functions ret xs) vars xs vars'

theorem declareAs_silent (v : Var) (init : Expr) (t : Ty) (vars : TypeEnv) :
    Silent (declareAs v init (some t)) vars
      (.var { v with init, type := some t, nameType := some t }) ((v.name, some t) :: vars) := by
  intro ds
  rfl

theorem Elaborates.not_missing {sig : Signatures} {want : Option Ty} {x x' : Expr} {t : Ty}
    (h : Elaborates sig vars (.expr want x x' t)) : ¬ x'.isMissing = true := by
  cases h <;> simp [Expr.isMissing]

/-- An annotated declaration is checked to itself if its initial value is. -/
theorem Expr.Stays.declaration {x : Expr} {t t' : Ty} (h : x.Stays functions vars (some t) t')
    (hx : ¬ x.isMissing = true) (ret : Option Ty) (pos : Pos) (name : String) :
    Piece.Stays functions ret vars ((name, some t) :: vars)
      (.one (.var { pos, name, nameType := some t, type := some t, init := x })) := by
  rw [Piece.Stays, checkStmt_var, if_neg hx]
  exact h.bind (declareAs_silent _ _ _ _)

theorem ElaboratesStmt.stays {ret : Option Ty} {vars vars' : TypeEnv} {p p' : Piece}
    (h : ElaboratesStmt (signatures functions) ret vars p p' vars')
    (hret : ret = some .void → p'.returnsNothing = true) : p'.Stays functions ret vars vars' := by
  induction h with
  | declared => exact declareAs_silent _ _ _ _
  | typed hx => exact hx.stays.1.declaration hx.not_missing _ _ _
  | inferred hx => exact hx.stays.2.declaration hx.not_missing _ _ _
  | @assign vars pos name t t' x x' hname hx =>
    rw [Piece.Stays, checkStmt]
    exact (checkName_silent hname pos).bind (hx.stays.1.bind (.ofPure _ _))
  | retNothing => exact .ofPure _ _
  | ret hx =>
    have hvalue : ¬ ret = some .void := fun hvoid => hx.not_missing (hret hvoid)
    rw [Piece.Stays, checkStmt, if_neg hx.not_missing, if_neg hvalue]
    exact hx.stays.1.bind (.ofPure _ _)
  | expr hx => exact hx.stays.1.bind (.ofPure _ _)
  | @cond vars vars₁ vars₂ pos test test' t body body' more more' htest _ _ ihbody ihmore =>
    have hparts : ret = some .void → blockReturnsNothing body' = true ∧
        blockReturnsNothing (elseStmts more') = true := by
      intro hvoid
      have h := hret hvoid
      rw [Piece.returnsNothing, returnsNothing_cond, Bool.and_eq_true] at h
      exact h
    have hbody := ihbody fun hvoid => (hparts hvoid).1
    have hmore := ihmore fun hvoid => (hparts hvoid).2
    cases more' with
    | none =>
      -- an absent `else` declares nothing
      obtain rfl : vars₁ = vars₂ := congrArg (fun r => r.2.vars) (hmore #[])
      exact htest.stays.1.bind (Silent.bind hbody (.ofPure _ _))
    | some more' => exact htest.stays.1.bind (Silent.bind hbody (Silent.bind hmore (.ofPure _ _)))
  | nil => exact .ofPure _ _
  | cons _ _ ihx ihrest =>
    have hparts : ret = some .void → _ ∧ _ := fun hvoid => Bool.and_eq_true_iff.mp (hret hvoid)
    exact Silent.bind (ihx fun hvoid => (hparts hvoid).1)
      (Silent.bind (ihrest fun hvoid => (hparts hvoid).2) (.ofPure _ _))

end

/-! ### Functions and files -/

namespace Typing
variable {functions : List Function}

/-- A function that was checked: the same with another body, and without a value where nothing is
returned. -/
def Rebodied (f r : Function) : Prop :=
  (∃ body, r = { f with body }) ∧ (f.ret = some .void → blockReturnsNothing r.body = true)

theorem checkFunction_rebodied (functions : List Function) (f : Function) :
    Checks (checkFunction functions f) fun _ r _ => Rebodied f r := by
  have hblock : Checks (checkBlock functions f.ret f.body) fun _ body _ =>
      f.ret = some .void → blockReturnsNothing body = true := by
    by_cases hvoid : f.ret = some .void
    · rw [hvoid]
      exact ((checkStmt_returnsNothing functions).2 f.body).mono fun _ _ _ h _ => h
    · exact ((checksTo_all functions f.ret).2 f.body).mono fun _ _ _ _ h => absurd h hvoid
  refine Quiet.mono (Quiet.bind (Quiet.ofModify fun _ => rfl) fun _ => Quiet.bind hblock fun body =>
    Quiet.ofPure { f with body }) ?_
  rintro _ _ _ ⟨_, _, rfl, body, _, hbody, rfl, rfl⟩
  exact ⟨⟨body, rfl⟩, hbody⟩

theorem mapM_rebodied (functions fs : List Function) :
    Checks (fs.mapM (checkFunction functions)) fun _ rs _ => List.Forall₂ Rebodied fs rs := by
  induction fs with
  | nil =>
    refine (Quiet.ofPure _).mono ?_
    rintro _ _ _ ⟨rfl, rfl⟩
    exact .nil
  | cons f fs ih =>
    rw [List.mapM_cons]
    refine ((checkFunction_rebodied functions f).bind fun r => ih.bind fun rs =>
      Quiet.ofPure (r :: rs)).mono ?_
    rintro _ _ _ ⟨r, _, hr, rs, _, hrs, rfl, rfl⟩
    exact .cons hr hrs

/-- Names that are annotated stay so. -/
theorem annotateNames_rebodied {seen : List String} {fs rs : List Function}
    (h : List.Forall₂ Rebodied (annotateNames seen fs) rs) : annotateNames seen rs = rs := by
  induction fs generalizing seen rs with
  | nil =>
    cases h
    rfl
  | cons f fs ih =>
    rw [annotateNames] at h
    cases h with
    | cons hr hrs =>
      obtain ⟨⟨body, rfl⟩, -⟩ := hr
      by_cases hseen : seen.contains f.name = true
      · rw [if_pos hseen, annotateNames, if_pos hseen, ih hrs]
      · rw [if_neg hseen, annotateNames, if_neg hseen, ih hrs]

theorem checkFunction_silent {f : Function} {vars' : TypeEnv}
    (h : Piece.Stays functions f.ret (f.params.map fun p => (p.name, p.type)).reverse vars'
      (.all f.body)) (vars : TypeEnv) : Silent (checkFunction functions f) vars f vars' := by
  have hscope : Silent (modify fun s => { s with vars := (f.params.map fun p =>
      (p.name, p.type)).reverse } : Check Unit) vars () (f.params.map fun p => (p.name, p.type)).reverse := by
    intro ds
    rfl
  exact hscope.bind (Silent.bind h (.ofPure _ _))

theorem mapM_silent {fs : List Function}
    (h : ∀ f ∈ fs, ∃ vars', ∀ vars, Silent (checkFunction functions f) vars f vars') (vars : TypeEnv) :
    ∃ vars', Silent (fs.mapM (checkFunction functions)) vars fs vars' := by
  induction fs generalizing vars with
  | nil => exact ⟨vars, .ofPure _ _⟩
  | cons f fs ih =>
    rw [List.forall_mem_cons] at h
    obtain ⟨vars₁, hf⟩ := h.1
    obtain ⟨vars₂, hfs⟩ := ih h.2 vars₁
    refine ⟨vars₂, ?_⟩
    rw [List.mapM_cons]
    exact (hf vars).bind (hfs.bind (.ofPure _ _))

end Typing

theorem exists_left_of_mem {α β : Type} {R : α → β → Prop} {as : List α} {bs : List β}
    (h : List.Forall₂ R as bs) {b : β} (hb : b ∈ bs) : ∃ a, R a b := by
  induction h with
  | nil => cases hb
  | cons hr _ ih =>
    rcases List.mem_cons.mp hb with rfl | hb
    · exact ⟨_, hr⟩
    · exact ih hb

theorem interfaces_of_elaborates {sig : Signatures} {fs rs : List Function}
    (h : List.Forall₂ (ElaboratesFunction sig) fs rs) : rs.map interface = fs.map interface := by
  induction h with
  | nil => rfl
  | cons hr _ ih =>
    obtain ⟨nameType, body, rfl⟩ := hr.same
    simp only [List.map_cons, ih]
    rfl

/-- An elaborated function is checked to itself, among functions of the same signatures. -/
theorem ElaboratesFunction.silent {functions : List Function} {f r : Function}
    (h : ElaboratesFunction (signatures functions) f r)
    (hret : r.ret = some .void → blockReturnsNothing r.body = true) :
    ∃ vars', ∀ vars, Silent (checkFunction functions r) vars r vars' := by
  obtain ⟨nameType, body, rfl⟩ := h.same
  obtain ⟨vars', hbody⟩ := h.body
  exact ⟨vars', checkFunction_silent (hbody.stays hret)⟩

/-- A plain file that was checked without a report is checked to itself. -/
theorem check_checked {g : Registry} {file : File} (hfile : ∀ f ∈ file.functions, PlainFunction g f)
    {ds : Array Diagnostic} (hquiet : (check file ds).2.size = ds.size) (ds' : Array Diagnostic) :
    check (check file ds).1 ds' = ((check file ds).1, ds') := by
  have helaborates := check_elaborates hfile hquiet
  have hrebodied : List.Forall₂ Rebodied (annotateNames [] file.functions)
      (check file ds).1.functions := (mapM_rebodied _ _ { diagnostics := ds }).2 hquiet
  generalize (check file ds).1 = file' at *
  have hsig : signatures file'.functions = signatures file.functions :=
    signatures_eq_of_interfaces (interfaces_of_elaborates helaborates)
  have hstays : ∀ r ∈ file'.functions, ∃ vars', ∀ vars,
      Silent (checkFunction file'.functions r) vars r vars' := by
    intro r hr
    obtain ⟨f, hf⟩ := exists_left_of_mem helaborates hr
    obtain ⟨f', ⟨body, rfl⟩, hvoid⟩ := exists_left_of_mem hrebodied hr
    rw [← hsig] at hf
    exact hf.silent hvoid
  obtain ⟨vars', hmap⟩ := mapM_silent hstays []
  have hnames : annotateNames [] file'.functions = file'.functions := annotateNames_rebodied hrebodied
  unfold check
  rw [hnames]
  dsimp only
  rw [hmap ds']

/-- A text that is parsed and checked without a report: checking its file again changes no annotation
and reports nothing. -/
theorem check_again {name : String} {text : Text.Bytes}
    (hparse : (Parser.parse name text).diagnostics = #[]) {ds : Array Diagnostic}
    (hcheck : (check (Parser.parse name text).file ds).2 = ds) (ds' : Array Diagnostic) :
    check (check (Parser.parse name text).file ds).1 ds' =
      ((check (Parser.parse name text).file ds).1, ds') :=
  check_checked (Parser.parse_plain hparse).functions (congrArg Array.size hcheck) ds'

def inferring : Text.Bytes :=
  "f::(a:u8){b:=1+-a;c:=2.5<1f;}".toList.map fun c => c.toNat.toUInt8

theorem check_again_inferring : (Parser.parse "p" inferring).diagnostics = #[] ∧
    (check (Parser.parse "p" inferring).file #[]).2 = #[] ∧
    ((check (Parser.parse "p" inferring).file #[]).1.functions.map fun f => declarations f.events) =
      [[("c", some .double), ("b", some .u8), ("a", some .u8)]] ∧
    check (check (Parser.parse "p" inferring).file #[]).1 #[] =
      ((check (Parser.parse "p" inferring).file #[]).1, #[]) := by
  have h : ((Parser.parse "p" inferring).diagnostics.isEmpty &&
      (check (Parser.parse "p" inferring).file #[]).2.isEmpty &&
      decide (((check (Parser.parse "p" inferring).file #[]).1.functions.map fun f =>
        declarations f.events) = [[("c", some .double), ("b", some .u8), ("a", some .u8)]])) = true := by
    decide +kernel
  rw [Bool.and_eq_true, Bool.and_eq_true, Array.isEmpty_iff, Array.isEmpty_iff,
    decide_eq_true_eq] at h
  obtain ⟨⟨hparse, hcheck⟩, hdeclared⟩ := h
  exact ⟨hparse, hcheck, hdeclared, check_again hparse hcheck #[]⟩

end RegisterLang
