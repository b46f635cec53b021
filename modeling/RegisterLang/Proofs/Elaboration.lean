import Mathlib.Data.List.Forall2
import RegisterLang.Proofs.Plain
import RegisterLang.Proofs.Typed

/-!
# Elaboration

What checking makes of a plain tree when it reports nothing, as rules: `Elaborates` relates an
expression to its annotated form and its type, where the context expects a type, and `ElaboratesStmt`
does so for statements, between the variables before and after them. Every expression has a type.
-/
namespace RegisterLang
open Lowering Typing

abbrev TypeEnv := List (String × Option Ty)

def TypeEnv.Filled (vars : TypeEnv) : Prop := ∀ name t, vars.lookup name = some t → t ≠ none

/-- What is elaborated: an expression of the type `t` where `want` is expected, or arguments for
parameters of the types `want`. -/
inductive Goal where
  | expr (want : Option Ty) (x x' : Expr) (t : Ty)
  | args (want : List (Option Ty)) (xs xs' : List Expr)

def Op.operandWant (op : Op) (want : Option Ty) : Option Ty := if op.isComparison then .none else want

/-- A number on the left follows the right operand. -/
def follows (want : Option Ty) (left right : Expr) : Bool :=
  want.isNone && left.isNumber && !right.isNumber

/-- The annotated form of expressions. -/
inductive Elaborates (sig : Signatures) (vars : TypeEnv) : Goal → Prop
  | ident {want : Option Ty} {pos : Pos} {name : String} {t : Ty} :
      vars.lookup name = some (some t) →
      Elaborates sig vars (.expr want (.ident pos none name) (.ident pos (some t) name) t)
  | int {want : Option Ty} {pos : Pos} {value : UInt64} {negative : Bool} {t : Ty} :
      intType value negative want = t →
      Elaborates sig vars (.expr want (.int pos none value negative) (.int pos (some t) value negative) t)
  | float {want : Option Ty} {pos : Pos} {bits : UInt32} {t : Ty} : floatType .float want = t →
      Elaborates sig vars (.expr want (.float pos none bits) (.float pos (some t) bits) t)
  | double {want : Option Ty} {pos : Pos} {bits : UInt64} {t : Ty} : floatType .double want = t →
      Elaborates sig vars (.expr want (.double pos none bits) (.double pos (some t) bits) t)
  | char {want : Option Ty} {pos : Pos} {value : Int32} :
      Elaborates sig vars (.expr want (.char pos none value) (.char pos (some .char) value) .char)
  | string {want : Option Ty} {pos : Pos} {value : Text.Bytes} :
      Elaborates sig vars
        (.expr want (.string pos none value) (.string pos (some .string) value) .string)
  | neg {want : Option Ty} {pos : Pos} {x x' : Expr} {t : Ty} :
      Elaborates sig vars (.expr want x x' t) →
      Elaborates sig vars (.expr want (.op pos none .neg false .missing x)
        (.op pos (some t) .neg false .missing x') t)
  | follow {want : Option Ty} {pos : Pos} {op : Op} {left left' right right' : Expr} {t : Ty} :
      follows (op.operandWant want) left right = true →
      Elaborates sig vars (.expr none right right' t) →
      Elaborates sig vars (.expr (some t) left left' t) →
      Elaborates sig vars (.expr want (.op pos none op true left right)
        (.op pos (some t) op true left' right') t)
  | lead {want : Option Ty} {pos : Pos} {op : Op} {left left' right right' : Expr} {t : Ty} :
      follows (op.operandWant want) left right = false →
      Elaborates sig vars (.expr (op.operandWant want) left left' t) →
      Elaborates sig vars (.expr ((op.operandWant want).or (some t)) right right' t) →
      Elaborates sig vars (.expr want (.op pos none op true left right)
        (.op pos (some t) op true left' right') t)
  | call {want : Option Ty} {pos : Pos} {name : String} {args args' : List Expr} {t : Ty}
      {params : List (Option Ty)} : sig name = some (some t, params) →
      Elaborates sig vars (.args params args args') →
      Elaborates sig vars (.expr want (.call pos none name none args)
        (.call pos (some t) name (some t) args') t)
  | nil : Elaborates sig vars (.args [] [] [])
  | cons {w : Ty} {want : List (Option Ty)} {a a' : Expr} {rest rest' : List Expr} :
      Elaborates sig vars (.expr (some w) a a' w) → Elaborates sig vars (.args want rest rest') →
      Elaborates sig vars (.args (some w :: want) (a :: rest) (a' :: rest'))

def Signatures.Filled (sig : Signatures) : Prop :=
  ∀ name ret params, sig name = some (ret, params) → ret ≠ none ∧ ∀ p ∈ params, p ≠ none

section
variable {functions : List Function}

def CheckElaborates (functions : List Function) (x : Expr) : Prop :=
  ∀ want, Checks (checkExpr functions want x) fun s r s' => s'.vars = s.vars ∧
    (TypeEnv.Filled s.vars → ∃ t, r.2 = some t ∧
      Elaborates (signatures functions) s.vars (.expr want x r.1 t))

theorem checkExpr_pair_elaborates {left right : Expr} (hl : CheckElaborates functions left)
    (hr : CheckElaborates functions right) (pos : Pos) (op : Op) :
    CheckElaborates functions (.op pos none op true left right) := by
  intro want
  rw [checkExpr_op]
  change Checks (if follows (op.operandWant want) left right = true then _ else _) _
  split
  next hfollows =>
    refine Quiet.mono (Quiet.bind (hr none) fun x => Quiet.bind (hl x.2) fun y =>
      join_checks pos op y.1 y.2 x.1 x.2) ?_
    rintro s _ _ ⟨x, s₁, ⟨hv, hx⟩, y, s₂, ⟨hv', hy⟩, rfl, rfl, hlt, hrt⟩
    refine ⟨hv'.trans hv, fun hfilled => ?_⟩
    obtain ⟨t, ht, hright⟩ := hx hfilled
    rw [hv] at hy
    obtain ⟨t', ht', hleft⟩ := hy hfilled
    rw [ht, ht', Option.some_or] at hrt
    obtain rfl : t = t' := by simpa using hrt
    rw [ht] at hleft
    rw [ht, ht', Option.some_or]
    exact ⟨t, rfl, .follow hfollows hright hleft⟩
  next hfollows =>
    refine Quiet.mono (Quiet.bind (hl _) fun x => Quiet.bind (hr _) fun y =>
      join_checks pos op x.1 x.2 y.1 y.2) ?_
    rintro s _ _ ⟨x, s₁, ⟨hv, hx⟩, y, s₂, ⟨hv', hy⟩, rfl, rfl, hlt, hrt⟩
    refine ⟨hv'.trans hv, fun hfilled => ?_⟩
    obtain ⟨t, ht, hleft⟩ := hx hfilled
    rw [hv] at hy
    obtain ⟨t', ht', hright⟩ := hy hfilled
    rw [ht, ht', Option.some_or] at hrt
    obtain rfl : t' = t := by simpa using hrt
    rw [ht] at hright
    rw [ht, ht', Option.some_or]
    exact ⟨t', rfl, .lead (by simpa using hfollows) hleft hright⟩

theorem checkArgs_elaborates {xs : List Expr} (hxs : ∀ a ∈ xs, CheckElaborates functions a)
    (done : Array Expr) (want : List (Option Ty)) (hlength : xs.length = want.length)
    (hwant : ∀ w ∈ want, w ≠ none) :
    Checks (checkArgs functions done want xs) fun s r s' => s'.vars = s.vars ∧
      (TypeEnv.Filled s.vars → ∃ new, r = done.toList ++ new ∧
        Elaborates (signatures functions) s.vars (.args want xs new)) := by
  induction xs generalizing done want with
  | nil =>
    obtain rfl : want = [] := List.eq_nil_of_length_eq_zero hlength.symm
    refine Quiet.mono (Quiet.ofPure _) ?_
    rintro s _ _ ⟨rfl, rfl⟩
    exact ⟨rfl, fun _ => ⟨[], by simp, .nil⟩⟩
  | cons a rest ih =>
    rw [List.forall_mem_cons] at hxs
    cases want with
    | nil => cases hlength
    | cons w want =>
      rw [List.forall_mem_cons] at hwant
      obtain ⟨w, rfl⟩ := Option.ne_none_iff_exists'.mp hwant.1
      have hnext := ih hxs.2
      rw [checkArgs]
      refine Quiet.mono (Quiet.bind (hxs.1 (some w)) fun x => (?_ : Checks _ fun s r s' =>
        s'.vars = s.vars ∧ (TypeEnv.Filled s.vars → x.2 ≠ none → x.2 = some w ∧
          ∃ new, r = done.toList ++ x.1 :: new ∧
            Elaborates (signatures functions) s.vars (.args want rest new)))) ?_
      · obtain ⟨a', t⟩ := x
        dsimp only [List.headD, List.tail]
        cases t with
        | none =>
          refine Quiet.mono (hnext (done.push a') want (by simpa using hlength) hwant.2) ?_
          exact fun s r s' h => ⟨h.1, fun _ hne => absurd rfl hne⟩
        | some t =>
          dsimp only
          split
          · exact Quiet.bind_of_false (report_checks _) fun _ =>
              hnext (done.push a') want (by simpa using hlength) hwant.2
          next heq =>
            refine Quiet.mono (hnext (done.push a') want (by simpa using hlength) hwant.2) ?_
            rintro s r s' ⟨hv, hr⟩
            refine ⟨hv, fun hfilled _ => ?_⟩
            obtain ⟨new, rfl, hnew⟩ := hr hfilled
            exact ⟨by rw [Decidable.not_not.mp heq], new, by simp, hnew⟩
      · rintro s _ s' ⟨x, s₁, ⟨hv, hx⟩, hv', hr⟩
        refine ⟨hv'.trans hv, fun hfilled => ?_⟩
        obtain ⟨t, ht, ha⟩ := hx hfilled
        rw [hv] at hr
        obtain ⟨htw, new, rfl, hnew⟩ := hr hfilled (by rw [ht]; exact Option.some_ne_none t)
        rw [ht] at htw
        cases htw
        exact ⟨x.1 :: new, rfl, .cons ha hnew⟩

theorem checkExpr_call_elaborates (hsig : (signatures functions).Filled) {args : List Expr}
    (hargs : ∀ a ∈ args, CheckElaborates functions a) (pos : Pos) (name : String) :
    CheckElaborates functions (.call pos none name none args) := by
  intro want
  rw [checkExpr]
  cases hf : functions.find? fun f => decide (f.name = name) with
  | none =>
    dsimp only
    exact Quiet.bind_of_false (report_checks _) fun _ =>
      Quiet.bind ((annotates_all functions).2 args #[] []) fun _ => Quiet.ofPure _
  | some f =>
    have hname : signatures functions name = some (f.ret, f.params.map Var.type) := by
      rw [signatures, function?, hf]
      rfl
    obtain ⟨hret, hparams⟩ := hsig name _ _ hname
    dsimp only
    split
    · exact Quiet.bind_of_false (report_checks _) fun _ =>
        Quiet.bind ((annotates_all functions).2 args #[] _) fun _ => Quiet.ofPure _
    next hlength =>
      have hlength : args.length = (f.params.map Var.type).length := by simpa using hlength
      refine Quiet.mono (Quiet.bind (checkArgs_elaborates hargs #[] _ hlength hparams)
        fun args' => Quiet.ofPure (Expr.call pos f.ret name f.ret args', f.ret)) ?_
      rintro s _ _ ⟨args', s₁, ⟨hv, hr⟩, rfl, rfl⟩
      refine ⟨hv, fun hfilled => ?_⟩
      obtain ⟨new, rfl, hnew⟩ := hr hfilled
      obtain ⟨t, ht⟩ := Option.ne_none_iff_exists'.mp hret
      rw [ht] at hname ⊢
      exact ⟨t, rfl, .call hname hnew⟩

/-- Checking a plain expression without a report elaborates it. -/
theorem checkExpr_elaborates (hsig : (signatures functions).Filled) {x : Expr} (h : x.Plain) :
    CheckElaborates functions x := by
  have hleaf : ∀ (x x' : Expr) (want : Option Ty) (t : Ty),
      (∀ vars, Elaborates (signatures functions) vars (.expr want x x' t)) →
      Checks (pure (x', some t)) fun s r s' => s'.vars = s.vars ∧ (TypeEnv.Filled s.vars →
        ∃ t, r.2 = some t ∧ Elaborates (signatures functions) s.vars (.expr want x r.1 t)) := by
    intro x x' want t h
    refine Quiet.mono (Quiet.ofPure _) ?_
    rintro s _ _ ⟨rfl, rfl⟩
    exact ⟨rfl, fun _ => ⟨t, rfl, h _⟩⟩
  induction h with
  | @ident pos name hname =>
    intro want
    rw [checkExpr]
    refine Quiet.mono (Quiet.bind (checkName_checks pos name) fun r => (?_ : Checks _
      fun s x s' => s' = s ∧ ∀ ty, r = some ty → x = (Expr.ident pos ty name, ty))) ?_
    · cases r with
      | none => exact Quiet.mono (Quiet.ofPure _) fun _ _ _ h => ⟨h.2, fun _ hr => by cases hr⟩
      | some ty =>
        refine Quiet.mono (Quiet.ofPure _) ?_
        rintro s _ _ ⟨rfl, rfl⟩
        exact ⟨rfl, fun _ hr => by cases hr; rfl⟩
    · rintro s _ _ ⟨_, _, ⟨rfl, ty, hty, rfl⟩, rfl, hx⟩
      obtain rfl := hx ty rfl
      refine ⟨rfl, fun hfilled => ?_⟩
      obtain ⟨t, rfl⟩ := Option.ne_none_iff_exists'.mp (hfilled name ty hty)
      exact ⟨t, rfl, .ident hty⟩
  | int => exact fun want => hleaf _ _ want _ fun _ => .int rfl
  | float => exact fun want => hleaf _ _ want _ fun _ => .float rfl
  | double => exact fun want => hleaf _ _ want _ fun _ => .double rfl
  | char => exact fun want => hleaf _ _ want _ fun _ => .char
  | string => exact fun want => hleaf _ _ want _ fun _ => .string
  | @neg pos x hx hnumber ih =>
    intro want
    refine Quiet.mono (Quiet.bind (ih want) fun r => Quiet.ofPure
      (Expr.op pos r.2 .neg false .missing r.1, r.2)) ?_
    rintro s _ _ ⟨r, s₁, ⟨hv, hr⟩, rfl, rfl⟩
    refine ⟨hv, fun hfilled => ?_⟩
    obtain ⟨t, ht, hx'⟩ := hr hfilled
    rw [ht]
    exact ⟨t, rfl, .neg hx'⟩
  | pair _ _ _ ihx ihy => exact checkExpr_pair_elaborates ihx ihy _ _
  | call _ _ ih => exact checkExpr_call_elaborates hsig ih _ _

end

inductive ElaboratesStmt (sig : Signatures) (ret : Option Ty) :
    TypeEnv → Piece → Piece → TypeEnv → Prop
  | declared {vars : TypeEnv} {pos : Pos} {name : String} {t : Ty} :
      ElaboratesStmt sig ret vars (.one (.var { pos, name, type := some t }))
        (.one (.var { pos, name, nameType := some t, type := some t })) ((name, some t) :: vars)
  | typed {vars : TypeEnv} {pos : Pos} {name : String} {t t' : Ty} {init init' : Expr} :
      Elaborates sig vars (.expr (some t) init init' t') →
      ElaboratesStmt sig ret vars (.one (.var { pos, name, type := some t, init }))
        (.one (.var { pos, name, nameType := some t, type := some t, init := init' }))
        ((name, some t) :: vars)
  | inferred {vars : TypeEnv} {pos : Pos} {name : String} {t : Ty} {init init' : Expr} :
      Elaborates sig vars (.expr none init init' t) →
      ElaboratesStmt sig ret vars (.one (.var { pos, name, init }))
        (.one (.var { pos, name, nameType := some t, type := some t, init := init' }))
        ((name, some t) :: vars)
  | assign {vars : TypeEnv} {pos : Pos} {name : String} {t t' : Ty} {x x' : Expr} :
      vars.lookup name = some (some t) → Elaborates sig vars (.expr (some t) x x' t') →
      ElaboratesStmt sig ret vars (.one (.assign pos name none x))
        (.one (.assign pos name (some t) x')) vars
  | retNothing {vars : TypeEnv} {pos : Pos} :
      ElaboratesStmt sig ret vars (.one (.ret pos .missing)) (.one (.ret pos .missing)) vars
  | ret {vars : TypeEnv} {pos : Pos} {x x' : Expr} {t : Ty} :
      Elaborates sig vars (.expr ret x x' t) →
      ElaboratesStmt sig ret vars (.one (.ret pos x)) (.one (.ret pos x')) vars
  | expr {vars : TypeEnv} {pos : Pos} {x x' : Expr} {t : Ty} :
      Elaborates sig vars (.expr none x x' t) →
      ElaboratesStmt sig ret vars (.one (.expr pos x)) (.one (.expr pos x')) vars
  | cond {vars vars₁ vars₂ : TypeEnv} {pos : Pos} {test test' : Expr} {t : Ty} {body body' : Block}
      {more more' : Option Block} : Elaborates sig vars (.expr none test test' t) →
      ElaboratesStmt sig ret vars (.all body) (.all body') vars₁ →
      ElaboratesStmt sig ret vars₁ (.all (elseStmts more)) (.all (elseStmts more')) vars₂ →
      ElaboratesStmt sig ret vars (.one (.cond pos test body more))
        (.one (.cond pos test' body' more')) vars₂
  | nil {vars : TypeEnv} : ElaboratesStmt sig ret vars (.all []) (.all []) vars
  | cons {vars vars₁ vars₂ : TypeEnv} {x x' : Stmt} {rest rest' : Block} :
      ElaboratesStmt sig ret vars (.one x) (.one x') vars₁ →
      ElaboratesStmt sig ret vars₁ (.all rest) (.all rest') vars₂ →
      ElaboratesStmt sig ret vars (.all (x :: rest)) (.all (x' :: rest')) vars₂

theorem TypeEnv.Filled.cons {vars : TypeEnv} (h : vars.Filled) (name : String) (t : Ty) :
    TypeEnv.Filled ((name, some t) :: vars) := by
  intro n u hu
  by_cases hn : n = name
  · subst hn
    rw [List.lookup_cons_self] at hu
    cases hu
    exact nofun
  · have hb : (n == name) = false := by simpa using hn
    rw [List.lookup_cons, hb] at hu
    exact h n u hu

section
variable (functions : List Function) (ret : Option Ty)

def CheckStmtElaborates : Piece → Prop
  | .one x => Checks (checkStmt functions ret x) fun s r s' => TypeEnv.Filled s.vars →
      TypeEnv.Filled s'.vars ∧
        ElaboratesStmt (signatures functions) ret s.vars (.one x) (.one r) s'.vars
  | .all xs => Checks (checkBlock functions ret xs) fun s r s' => TypeEnv.Filled s.vars →
      TypeEnv.Filled s'.vars ∧
        ElaboratesStmt (signatures functions) ret s.vars (.all xs) (.all r) s'.vars

variable {functions ret}

theorem declareAs_checks (v : Var) (init : Expr) (t : Ty) :
    Checks (declareAs v init (some t)) fun s r s' => s'.vars = (v.name, some t) :: s.vars ∧
      r = .var { v with init, type := some t, nameType := some t } := by
  refine Quiet.mono (Quiet.bind (Quiet.ofModify fun _ => rfl) fun _ => Quiet.ofPure _) ?_
  rintro s _ _ ⟨_, _, rfl, rfl, rfl⟩
  exact ⟨rfl, rfl⟩

theorem Expr.Plain.not_missing {x : Expr} (h : x.Plain) : ¬ x.isMissing = true := by
  cases h <;> exact nofun

theorem Expr.eq_missing {x : Expr} (h : x.isMissing = true) : x = .missing := by
  cases x <;> first | rfl | cases h

theorem checkRet_elaborates (hsig : (signatures functions).Filled) {pos : Pos} {x : Expr}
    (hx : x.isMissing = true ∨ x.Plain) : CheckStmtElaborates functions ret (.one (.ret pos x)) := by
  rw [CheckStmtElaborates, checkStmt]
  rcases hx with hx | hx
  · rw [if_pos hx]
    refine Quiet.mono (Quiet.ofPure _) ?_
    rintro s _ _ ⟨rfl, rfl⟩ hfilled
    obtain rfl := Expr.eq_missing hx
    exact ⟨hfilled, .retNothing⟩
  · rw [if_neg hx.not_missing]
    have hcheck : Checks (do
        let r ← checkExpr functions ret x
        return Stmt.ret pos r.1) fun s r s' => TypeEnv.Filled s.vars → TypeEnv.Filled s'.vars ∧
        ElaboratesStmt (signatures functions) ret s.vars (.one (.ret pos x)) (.one r) s'.vars := by
      refine Quiet.mono (Quiet.bind (checkExpr_elaborates hsig hx ret) fun r => Quiet.ofPure
        (Stmt.ret pos r.1)) ?_
      rintro s _ _ ⟨r, s₁, ⟨hv, hr⟩, rfl, rfl⟩ hfilled
      obtain ⟨t, -, hx'⟩ := hr hfilled
      rw [hv]
      exact ⟨hfilled, .ret hx'⟩
    split
    · exact Quiet.bind_of_false (report_checks _) fun _ => hcheck
    · exact hcheck

/-- Checking plain statements without a report elaborates them. -/
theorem checkStmt_elaborates (hsig : (signatures functions).Filled) {g : Registry} {p : Piece}
    (h : Plain g p) : CheckStmtElaborates functions ret p := by
  induction h with
  | @typed pos name t init hname ht hinit =>
    rw [CheckStmtElaborates, checkStmt_var]
    rcases hinit with hinit | hinit
    · rw [if_pos hinit]
      refine Quiet.mono (declareAs_checks _ _ _) ?_
      rintro s _ s' ⟨hv, rfl⟩ hfilled
      obtain rfl := Expr.eq_missing hinit
      rw [hv]
      exact ⟨hfilled.cons _ _, .declared⟩
    · rw [if_neg hinit.not_missing]
      refine Quiet.mono (Quiet.bind (checkExpr_elaborates hsig hinit (some t)) fun r =>
        declareAs_checks _ _ _) ?_
      rintro s _ s' ⟨r, s₁, ⟨hv, hr⟩, hv', rfl⟩ hfilled
      obtain ⟨t', -, hx⟩ := hr hfilled
      rw [hv', hv]
      exact ⟨hfilled.cons _ _, .typed hx⟩
  | @inferred pos name init hname hinit =>
    rw [CheckStmtElaborates, checkStmt_var, if_neg hinit.not_missing]
    refine Quiet.mono (Quiet.bind (checkExpr_elaborates hsig hinit none) fun r =>
      (?_ : Checks _ fun s r' s' => ∀ t, r.2 = some t → s'.vars = (name, some t) :: s.vars ∧
        r' = .var { pos, name, nameType := some t, type := some t, init := r.1 })) ?_
    · obtain ⟨init', _ | t⟩ := r
      · exact Quiet.mono (declareAs_checks _ _ .s32) fun _ _ _ _ t ht => nomatch ht
      · refine Quiet.mono (declareAs_checks _ _ t) ?_
        rintro s _ s' ⟨hv, rfl⟩ t' ht
        cases ht
        exact ⟨hv, rfl⟩
    · rintro s _ s' ⟨r, s₁, ⟨hv, hr⟩, h⟩ hfilled
      obtain ⟨t, ht, hx⟩ := hr hfilled
      obtain ⟨hv', rfl⟩ := h t ht
      rw [hv', hv]
      exact ⟨hfilled.cons _ _, .inferred hx⟩
  | @assign pos name x hname hx =>
    rw [CheckStmtElaborates, checkStmt]
    refine Quiet.mono (Quiet.bind (checkName_checks pos name) fun t => Quiet.bind
      (checkExpr_elaborates hsig hx (t.getD none)) fun y => Quiet.ofPure
      (Stmt.assign pos name (t.getD none) y.1)) ?_
    rintro s _ _ ⟨_, _, ⟨rfl, t, ht, rfl⟩, y, s₁, ⟨hv, hy⟩, rfl, rfl⟩ hfilled
    obtain ⟨t, rfl⟩ := Option.ne_none_iff_exists'.mp (hfilled name t ht)
    obtain ⟨t', -, hx'⟩ := hy hfilled
    rw [hv]
    exact ⟨hfilled, .assign ht hx'⟩
  | ret hx => exact checkRet_elaborates hsig hx
  | @call pos name args hname hargs =>
    rw [CheckStmtElaborates, checkStmt]
    refine Quiet.mono (Quiet.bind (checkExpr_elaborates hsig (.call hname hargs) none) fun y =>
      Quiet.ofPure (Stmt.expr pos y.1)) ?_
    rintro s _ _ ⟨y, s₁, ⟨hv, hy⟩, rfl, rfl⟩ hfilled
    obtain ⟨t, -, hx⟩ := hy hfilled
    rw [hv]
    exact ⟨hfilled, .expr hx⟩
  | @cond pos test body more hcondition htest _ _ hbody hmore =>
    have hexpr := checkExpr_elaborates hsig htest none
    rw [CheckStmtElaborates] at hbody hmore
    cases more with
    | none =>
      rw [CheckStmtElaborates, checkStmt]
      refine Quiet.mono (Quiet.bind hexpr fun y => Quiet.bind hbody fun body' =>
        Quiet.ofPure (Stmt.cond pos y.1 body' none)) ?_
      rintro s _ _ ⟨y, s₁, ⟨hv, hy⟩, body', s₂, hb, rfl, rfl⟩ hfilled
      obtain ⟨t, -, hx⟩ := hy hfilled
      rw [hv] at hb
      obtain ⟨hfilled', hb⟩ := hb hfilled
      exact ⟨hfilled', .cond hx hb .nil⟩
    | some more =>
      rw [CheckStmtElaborates, checkStmt]
      refine Quiet.mono (Quiet.bind hexpr fun y => Quiet.bind hbody fun body' =>
        Quiet.bind hmore fun more' => Quiet.ofPure (Stmt.cond pos y.1 body' (some more'))) ?_
      rintro s _ _ ⟨y, s₁, ⟨hv, hy⟩, body', s₂, hb, more', s₃, hm, rfl, rfl⟩ hfilled
      obtain ⟨t, -, hx⟩ := hy hfilled
      rw [hv] at hb
      obtain ⟨hfilled', hb⟩ := hb hfilled
      obtain ⟨hfilled'', hm⟩ := hm hfilled'
      exact ⟨hfilled'', .cond hx hb hm⟩
  | nil =>
    rw [CheckStmtElaborates, checkBlock]
    refine Quiet.mono (Quiet.ofPure _) ?_
    rintro s _ _ ⟨rfl, rfl⟩ hfilled
    exact ⟨hfilled, .nil⟩
  | cons _ _ hx hrest =>
    rw [CheckStmtElaborates] at hx
    rw [CheckStmtElaborates] at hrest
    rw [CheckStmtElaborates, checkBlock]
    refine Quiet.mono (Quiet.bind hx fun x' => Quiet.bind hrest fun rest' => Quiet.ofPure
      (x' :: rest')) ?_
    rintro s _ _ ⟨x', s₁, h, rest', s₂, h', rfl, rfl⟩ hfilled
    obtain ⟨hfilled', hx'⟩ := h hfilled
    obtain ⟨hfilled'', hrest'⟩ := h' hfilled'
    exact ⟨hfilled'', .cons hx' hrest'⟩

end

structure ElaboratesFunction (sig : Signatures) (f f' : Function) : Prop where
  same : ∃ nameType body, f' = { f with nameType, body }
  params : ∀ p ∈ f.params, p.init.isMissing = true ∧ ∃ t, p.type = some t
  body : ∃ vars, ElaboratesStmt sig f.ret (f.params.map fun p => (p.name, p.type)).reverse
    (.all f.body) (.all f'.body) vars

section
variable {g : Registry} {functions : List Function}

theorem PlainFunction.filled {f : Function} (h : PlainFunction g f) :
    TypeEnv.Filled (f.params.map fun p => (p.name, p.type)).reverse := by
  intro name t hlookup
  obtain ⟨before, after, hsplit, -⟩ := List.lookup_eq_some_iff.mp hlookup
  have hmem : (name, t) ∈ (f.params.map fun p => (p.name, p.type)).reverse := by
    rw [hsplit]
    simp
  obtain ⟨p, hp, heq⟩ := List.mem_map.mp (List.mem_reverse.mp hmem)
  obtain ⟨-, ty, -, hty⟩ := h.params p hp
  cases heq
  rw [hty]
  exact nofun

theorem signatures_filled (h : ∀ f ∈ functions, PlainFunction g f) :
    (signatures functions).Filled := by
  intro name ret params hsig
  obtain ⟨f, hf, heq⟩ := Option.map_eq_some_iff.mp hsig
  have hplain := h f (List.mem_of_find?_eq_some hf)
  cases heq
  obtain ⟨t, ht, -⟩ := hplain.ret
  refine ⟨by rw [ht]; exact nofun, fun p hp => ?_⟩
  obtain ⟨q, hq, rfl⟩ := List.mem_map.mp hp
  obtain ⟨-, ty, -, hty⟩ := hplain.params q hq
  rw [hty]
  exact nofun

theorem annotateNames_interface (seen : List String) (fs : List Function) :
    (annotateNames seen fs).map interface = fs.map interface := by
  induction fs generalizing seen with
  | nil => rfl
  | cons f fs ih =>
    rw [annotateNames, List.map_cons, List.map_cons, ih]
    split <;> rfl

theorem checkFunction_elaborates (hsig : (signatures functions).Filled) {f : Function}
    (hf : PlainFunction g f) (nameType : Option Ty) :
    Checks (checkFunction functions { f with nameType }) fun _ r _ =>
      ElaboratesFunction (signatures functions) f r := by
  have hblock : CheckStmtElaborates functions f.ret (.all f.body) := checkStmt_elaborates hsig hf.body
  rw [CheckStmtElaborates] at hblock
  refine Quiet.mono (Quiet.bind (Quiet.ofModify fun _ => rfl) fun _ => Quiet.bind hblock
    fun body => Quiet.ofPure { f with nameType, body }) ?_
  rintro s _ _ ⟨_, _, rfl, body, _, hbody, rfl, rfl⟩
  refine ⟨⟨nameType, body, rfl⟩, fun p hp => ?_, _, (hbody hf.filled).2⟩
  obtain ⟨-, t, -, heq⟩ := hf.params p hp
  rw [heq]
  exact ⟨rfl, t, rfl⟩

theorem mapM_elaborates (hsig : (signatures functions).Filled) (seen : List String)
    {fs : List Function} (hfs : ∀ f ∈ fs, PlainFunction g f) :
    Checks ((annotateNames seen fs).mapM (checkFunction functions)) fun _ rs _ =>
      List.Forall₂ (ElaboratesFunction (signatures functions)) fs rs := by
  induction fs generalizing seen with
  | nil =>
    refine Quiet.mono (Quiet.ofPure _) ?_
    rintro s _ _ ⟨rfl, rfl⟩
    exact .nil
  | cons f fs ih =>
    rw [List.forall_mem_cons] at hfs
    rw [annotateNames, List.mapM_cons]
    have hf : Checks (checkFunction functions
        (if seen.contains f.name then f else { f with nameType := f.ret })) fun _ r _ =>
        ElaboratesFunction (signatures functions) f r := by
      split
      · exact checkFunction_elaborates hsig hfs.1 f.nameType
      · exact checkFunction_elaborates hsig hfs.1 f.ret
    refine Quiet.mono (Quiet.bind hf fun r => Quiet.bind (ih (f.name :: seen) hfs.2) fun rs =>
      Quiet.ofPure (r :: rs)) ?_
    rintro s _ _ ⟨r, _, hr, rs, _, hrs, rfl, rfl⟩
    exact .cons hr hrs

/-- A file whose functions are plain is elaborated by a check that reports nothing. -/
theorem check_elaborates {file : File} (hfile : ∀ f ∈ file.functions, PlainFunction g f)
    {ds : Array Diagnostic} (h : (check file ds).2.size = ds.size) :
    List.Forall₂ (ElaboratesFunction (signatures file.functions)) file.functions
      (check file ds).1.functions := by
  have hsig : signatures (annotateNames [] file.functions) = signatures file.functions :=
    signatures_eq_of_interfaces (annotateNames_interface _ _)
  have hfilled : (signatures (annotateNames [] file.functions)).Filled := by
    rw [hsig]
    exact signatures_filled hfile
  have hmap := mapM_elaborates hfilled [] hfile { diagnostics := ds }
  rw [hsig] at hmap
  exact hmap.2 h

end

end RegisterLang
