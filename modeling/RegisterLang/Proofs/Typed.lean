import RegisterLang.Compiler
import RegisterLang.Proofs.Parsed
import RegisterLang.Proofs.Planned

/-!
# Trees that are checked

What holds of the annotations of a tree when checking reports nothing: names have the types of their
variables, operands the type of their operator, calls the type that their function returns, and
arguments the types of the parameters. An operand or an argument may also have no type at all; it has
no value then.
-/
namespace RegisterLang
open Lowering

/-- What callers know of functions: for each name the type that is returned and those of the
parameters. -/
abbrev Signatures := String → Option (Option Ty × List (Option Ty))

def Function.signature (f : Function) : Option Ty × List (Option Ty) :=
  (f.ret, f.params.map Var.type)

def signatures (functions : List Function) : Signatures :=
  fun name => (function? functions name).map Function.signature

section
variable (sig : Signatures) (l : Layout)

mutual

def Typed : Expr → Prop
  | .ident _ t name => ∃ v, l.var? name = some v ∧ v.ty = t
  | .op _ t _ binary left right =>
    (binary = true → Typed left ∧ (left.type = none ∨ left.type = t)) ∧
      Typed right ∧ (right.type = none ∨ right.type = t)
  | .call _ t name _ args => ∃ params, sig name = some (t, params) ∧ TypedArgs params args
  | .int _ t _ _ | .char _ t _ => t ≠ none
  | .float _ t _ | .double _ t _ => t = some .float ∨ t = some .double
  | .missing | .string .. => True
termination_by structural x => x

def TypedArgs (types : List (Option Ty)) : List Expr → Prop
  | [] => True
  | a :: rest =>
    (Typed a ∧ (types.headD none = none ∨ a.type = none ∨ a.type = types.headD none)) ∧
      TypedArgs types.tail rest
termination_by structural x => x

end

variable {sig l} in
theorem TypedArgs.type_eq {types : List (Option Ty)} {xs : List Expr} (h : TypedArgs sig l types xs)
    {i : Nat} {a : Expr} {ty : Option Ty} (ha : xs[i]? = some a) (hty : types[i]? = some ty) :
    ty = none ∨ a.type = none ∨ a.type = ty := by
  induction xs generalizing types i with
  | nil => simp at ha
  | cons b rest ih =>
    cases types with
    | nil => simp at hty
    | cons t types =>
      cases i with
      | zero =>
        cases ha
        cases hty
        exact h.1.2
      | succ i => exact ih h.2 ha hty

/-- An annotation says what the type is. -/
theorem typeOf_eq_type (scope : Scope) (want : Option Ty) (x : Expr) (h : x.type ≠ none) :
    scope.typeOf want x = x.type := by
  cases hty : x.type with
  | none => exact absurd hty h
  | some ty => cases x <;> cases hty <;> rfl

theorem regType?_typeOf {scope : Scope} {want : Option Ty} {x : Expr} {t : RegType}
    (h : regType? (scope.typeOf want x) = some t) {t' : RegType} (h' : regType? x.type = some t') :
    t' = t := by
  have hne : x.type ≠ none := by
    intro hnone
    rw [hnone] at h'
    cases h'
  rw [typeOf_eq_type scope want x hne, h'] at h
  exact Option.some.inj h

theorem function?_of_callee? {s : Scope} {functions : List Function}
    (hf : ∀ l ∈ s.layouts, function? functions l.function.name = some l.function) {name : String}
    {callee : Layout} (h : s.callee? name = some callee) :
    function? functions name = some callee.function := by
  have hname := List.find?_some h
  rw [← hf callee (List.mem_of_find?_eq_some h)]
  exact congrArg _ (beq_iff_eq.mp hname).symm

variable {l} in
/-- The annotation of a call is what its function says. -/
theorem typed_call {functions : List Function} {pos : Pos} {ty : Option Ty} {name : String}
    {nt : Option Ty} {args : List Expr} {f : Function} (hf : function? functions name = some f)
    (h : Typed (signatures functions) l (.call pos ty name nt args)) :
    ty = f.ret ∧ TypedArgs (signatures functions) l (f.params.map Var.type) args := by
  obtain ⟨params, hsig, hargs⟩ := h
  rw [signatures, hf] at hsig
  cases hsig
  exact ⟨rfl, hargs⟩

inductive WellTyped (ret : Option Ty) : Piece → Prop
  | var {v : Var} : v.type ≠ none →
      (v.init.isMissing = false → Typed sig l v.init ∧ v.init.type = v.type) →
      WellTyped ret (.one (.var v))
  | assign {pos : Pos} {name : String} {nt : Option Ty} {x : Expr} {v : Variable} :
      l.var? name = some v → v.ty = nt → Typed sig l x → x.type = nt →
      WellTyped ret (.one (.assign pos name nt x))
  | ret {pos : Pos} {x : Expr} : (x.isMissing = false → Typed sig l x ∧ x.type = ret) →
      WellTyped ret (.one (.ret pos x))
  | expr {pos : Pos} {x : Expr} : Typed sig l x → WellTyped ret (.one (.expr pos x))
  | cond {pos : Pos} {test : Expr} {body : Block} {more : Option Block} : Typed sig l test →
      WellTyped ret (.all body) → WellTyped ret (.all (elseStmts more)) →
      WellTyped ret (.one (.cond pos test body more))
  | other {kind : NodeKind} {pos : Pos} : WellTyped ret (.one (.other kind pos))
  | nil : WellTyped ret (.all [])
  | cons {x : Stmt} {rest : Block} : WellTyped ret (.one x) → WellTyped ret (.all rest) →
      WellTyped ret (.all (x :: rest))

end

namespace Typing

abbrev Checks {α : Type} (m : Check α) (P : State → α → State → Prop) : Prop :=
  Quiet (fun s : State => s.diagnostics.size) m P

theorem report_checks (d : Diagnostic) : Checks (report d) fun _ _ _ => False :=
  Quiet.ofReport fun s => by simp

theorem checkName_checks (pos : Pos) (name : String) :
    Checks (checkName pos name) fun s r s' => s' = s ∧ ∃ t, s.vars.lookup name = some t ∧ r = some t := by
  unfold checkName
  refine Quiet.mono (Quiet.bind Quiet.ofGet fun s₀ => (?_ : Checks _ fun s r s' =>
    s = s₀ → s' = s ∧ ∃ t, s.vars.lookup name = some t ∧ r = some t)) ?_
  · cases h : s₀.vars.lookup name with
    | some t =>
      refine Quiet.mono (Quiet.ofPure _) ?_
      rintro s r s' ⟨rfl, rfl⟩ rfl
      exact ⟨rfl, t, h, rfl⟩
    | none =>
      exact Quiet.bind_of_false (report_checks _) fun _ => Quiet.ofPure _
  · rintro s r s' ⟨_, _, ⟨rfl, rfl⟩, hr⟩
    exact hr rfl

def Scoped (l : Layout) (s : State) : Prop :=
  ∀ name t, s.vars.lookup name = some t → ∃ v, l.var? name = some v ∧ v.ty = t

def Annotates (functions : List Function) (x : Expr) : Prop :=
  ∀ want, Checks (checkExpr functions want x) fun s r s' => s'.vars = s.vars ∧ r.1.type = r.2 ∧
    (x.IsPair → r.1.IsPair) ∧ ∀ l, Scoped l s → Typed (signatures functions) l r.1

theorem Scoped.congr {l : Layout} {s s' : State} (h : Scoped l s) (hs : s'.vars = s.vars) :
    Scoped l s' := by
  unfold Scoped
  rw [hs]
  exact h

def join (pos : Pos) (op : Op) (left : Expr) (lt : Option Ty) (right : Expr) (rt : Option Ty) :
    Check (Expr × Option Ty) := do
  match lt, rt with
  | some l, some r =>
    if l ≠ r then report ⟨"mismatched operand types", pos, l.name, r.name⟩
  | _, _ => pure ()
  let t := lt.or rt
  return (.op pos t op true left right, t)

theorem checkExpr_op (functions : List Function) (want : Option Ty) (pos : Pos) (t : Option Ty)
    (op : Op) (left right : Expr) : checkExpr functions want (.op pos t op true left right) = (do
      let operand := if op.isComparison then none else want
      if operand.isNone && left.isNumber && !right.isNumber then
        let (right', rt) ← checkExpr functions none right
        let (left', lt) ← checkExpr functions rt left
        join pos op left' lt right' rt
      else
        let (left', lt) ← checkExpr functions operand left
        let (right', rt) ← checkExpr functions (operand.or lt) right
        join pos op left' lt right' rt) := by
  rw [checkExpr]
  rfl

theorem join_checks (pos : Pos) (op : Op) (left : Expr) (lt : Option Ty) (right : Expr)
    (rt : Option Ty) : Checks (join pos op left lt right rt) fun s r s' => s' = s ∧
      r = (Expr.op pos (lt.or rt) op true left right, lt.or rt) ∧
      (lt = none ∨ lt = lt.or rt) ∧ (rt = none ∨ rt = lt.or rt) := by
  unfold join
  have hpure : ((lt = none ∨ lt = lt.or rt) ∧ (rt = none ∨ rt = lt.or rt)) →
      Checks (pure (Expr.op pos (lt.or rt) op true left right, lt.or rt)) fun s r s' => s' = s ∧
        r = (Expr.op pos (lt.or rt) op true left right, lt.or rt) ∧
        (lt = none ∨ lt = lt.or rt) ∧ (rt = none ∨ rt = lt.or rt) := by
    intro h
    exact Quiet.mono (Quiet.ofPure _) fun _ _ _ hp => ⟨hp.2, hp.1, h⟩
  cases lt with
  | none => exact hpure ⟨.inl rfl, .inr rfl⟩
  | some x =>
    cases rt with
    | none => exact hpure ⟨.inr rfl, .inl rfl⟩
    | some y =>
      by_cases hxy : x = y
      · subst hxy
        simp only [ne_eq, not_true_eq_false, if_false]
        exact hpure ⟨.inr rfl, .inr rfl⟩
      · simp only [ne_eq, hxy, not_false_eq_true, if_true]
        exact Quiet.bind_of_false (report_checks _) fun _ => Quiet.ofPure _

theorem op_annotates {functions : List Function} {left right : Expr} (hl : Annotates functions left)
    (hr : Annotates functions right) (pos : Pos) (t : Option Ty) (op : Op) (binary : Bool) :
    Annotates functions (.op pos t op binary left right) := by
  intro want
  cases binary with
  | false =>
    refine Quiet.mono (Quiet.bind (hr want) fun x => Quiet.ofPure
      (Expr.op pos x.2 op false left x.1, x.2)) ?_
    rintro s _ _ ⟨x, s₁, ⟨hv, ht, -, hs⟩, rfl, rfl⟩
    exact ⟨hv, rfl, fun h => h, fun l hscope => ⟨nofun, hs l hscope, .inr ht⟩⟩
  | true =>
    rw [checkExpr_op]
    generalize (if op.isComparison = true then none else want) = operand
    dsimp only
    split
    · refine Quiet.mono (Quiet.bind (hr none) fun x => Quiet.bind (hl x.2) fun y =>
        join_checks pos op y.1 y.2 x.1 x.2) ?_
      rintro s _ _ ⟨x, s₁, ⟨hv, ht, -, hs⟩, y, s₂, ⟨hv', ht', -, hs'⟩, rfl, rfl, hlt, hrt⟩
      refine ⟨hv'.trans hv, rfl, fun _ => rfl, fun l hscope => ?_⟩
      rw [Typed, ht, ht']
      exact ⟨fun _ => ⟨hs' l (hscope.congr hv), hlt⟩, hs l hscope, hrt⟩
    · refine Quiet.mono (Quiet.bind (hl _) fun x => Quiet.bind (hr _) fun y =>
        join_checks pos op x.1 x.2 y.1 y.2) ?_
      rintro s _ _ ⟨x, s₁, ⟨hv, ht, -, hs⟩, y, s₂, ⟨hv', ht', -, hs'⟩, rfl, rfl, hlt, hrt⟩
      refine ⟨hv'.trans hv, rfl, fun _ => rfl, fun l hscope => ?_⟩
      rw [Typed, ht, ht']
      exact ⟨fun _ => ⟨hs l hscope, hlt⟩, hs' l (hscope.congr hv), hrt⟩

def AnnotatesArgs (functions : List Function) (xs : List Expr) : Prop :=
  ∀ done want, Checks (checkArgs functions done want xs) fun s r s' => s'.vars = s.vars ∧ ∃ new,
    r = done.toList ++ new ∧ ∀ l, Scoped l s → TypedArgs (signatures functions) l want new

theorem args_annotates {functions : List Function} {a : Expr} {rest : List Expr}
    (ha : Annotates functions a) (hrest : AnnotatesArgs functions rest) :
    AnnotatesArgs functions (a :: rest) := by
  intro done want
  rw [checkArgs]
  refine Quiet.mono (Quiet.bind (ha (want.headD none)) fun x => (?_ : Checks _ fun s r s' =>
    s'.vars = s.vars ∧ (want.headD none = none ∨ x.2 = none ∨ x.2 = want.headD none) ∧
    ∃ new, r = done.toList ++ x.1 :: new ∧
      ∀ l, Scoped l s → TypedArgs (signatures functions) l want.tail new)) ?_
  · have hnext : (want.headD none = none ∨ x.2 = none ∨ x.2 = want.headD none) →
        Checks (checkArgs functions (done.push x.1) want.tail rest) fun s r s' =>
          s'.vars = s.vars ∧ (want.headD none = none ∨ x.2 = none ∨ x.2 = want.headD none) ∧
          ∃ new, r = done.toList ++ x.1 :: new ∧
            ∀ l, Scoped l s → TypedArgs (signatures functions) l want.tail new := by
      intro h
      refine Quiet.mono (hrest (done.push x.1) want.tail) ?_
      rintro s r s' ⟨hv, new, rfl, hs⟩
      exact ⟨hv, h, new, by simp, hs⟩
    obtain ⟨a', t⟩ := x
    generalize want.headD none = expected at hnext ⊢
    cases expected with
    | none => exact hnext (.inl rfl)
    | some w =>
      cases t with
      | none => exact hnext (.inr (.inl rfl))
      | some t =>
        dsimp only
        split
        · exact Quiet.bind_of_false (report_checks _) fun _ => hrest _ _
        next htw => exact hnext (.inr (.inr (congrArg some (Decidable.not_not.mp htw))))
  · rintro s _ s' ⟨x, s₁, ⟨hv, ht, -, hs⟩, hv', htype, new, rfl, hs'⟩
    refine ⟨hv'.trans hv, x.1 :: new, rfl, fun l hscope => ⟨⟨hs l hscope, ?_⟩, ?_⟩⟩
    · rw [ht]
      exact htype
    · exact hs' l (hscope.congr hv)

theorem call_annotates {functions : List Function} {args : List Expr}
    (hargs : AnnotatesArgs functions args) (pos : Pos) (t : Option Ty) (name : String)
    (nt : Option Ty) : Annotates functions (.call pos t name nt args) := by
  intro want
  rw [checkExpr]
  cases hf : functions.find? fun f => decide (f.name = name) with
  | none =>
    exact Quiet.bind_of_false (report_checks _) fun _ => Quiet.bind (hargs _ _) fun _ => Quiet.ofPure _
  | some f =>
    have hsig : signatures functions name = some (f.ret, f.params.map Var.type) := by
      rw [signatures, function?, hf]
      rfl
    dsimp only
    split
    · exact Quiet.bind_of_false (report_checks _) fun _ => Quiet.bind (hargs _ _) fun _ =>
        Quiet.ofPure _
    · refine Quiet.mono (Quiet.bind (hargs #[] (f.params.map Var.type)) fun args' => Quiet.ofPure
        (Expr.call pos f.ret name f.ret args', f.ret)) ?_
      rintro s _ _ ⟨_, s₁, ⟨hv, new, rfl, hs⟩, rfl, rfl⟩
      refine ⟨hv, rfl, False.elim, fun l hscope => ⟨_, hsig, ?_⟩⟩
      exact hs l hscope

theorem floatType_eq {own : Ty} (hown : own = .float ∨ own = .double) (want : Option Ty) :
    some (floatType own want) = some .float ∨ some (floatType own want) = some .double := by
  unfold floatType
  split
  · exact .inl rfl
  · split
    · exact .inr rfl
    · exact hown.imp (congrArg some) (congrArg some)

theorem annotates_all (functions : List Function) :
    (∀ x, Annotates functions x) ∧ ∀ xs, AnnotatesArgs functions xs := by
  have hleaf : ∀ (x : Expr) (t : Option Ty), x.type = t → ¬ x.IsPair →
      (∀ l, Typed (signatures functions) l x) → Checks (pure (x, t)) fun s r s' =>
        s'.vars = s.vars ∧ r.1.type = r.2 ∧ (x.IsPair → r.1.IsPair) ∧
        ∀ l, Scoped l s → Typed (signatures functions) l r.1 := by
    intro x t ht hpair htyped
    refine Quiet.mono (Quiet.ofPure _) ?_
    rintro s _ _ ⟨rfl, rfl⟩
    exact ⟨rfl, ht, fun h => absurd h hpair, fun l _ => htyped l⟩
  apply Expr.forall_of
  case missing => exact fun want => hleaf .missing none rfl id fun _ => trivial
  case ident =>
    intro pos t name want
    rw [checkExpr]
    refine Quiet.mono (Quiet.bind (checkName_checks pos name) fun r => (?_ : Checks _
      fun s x s' => s' = s ∧ ∀ ty, r = some ty → x = (Expr.ident pos ty name, ty))) ?_
    · cases r with
      | none => exact Quiet.mono (Quiet.ofPure _) fun _ _ _ h => ⟨h.2, fun _ hr => nomatch hr⟩
      | some ty =>
        refine Quiet.mono (Quiet.ofPure _) ?_
        rintro s _ _ ⟨rfl, rfl⟩
        exact ⟨rfl, fun _ hr => by cases hr; rfl⟩
    · rintro s _ _ ⟨_, _, ⟨rfl, ty, hty, rfl⟩, rfl, hx⟩
      obtain rfl := hx ty rfl
      exact ⟨rfl, rfl, False.elim, fun l hscope => hscope name ty hty⟩
  case int => exact fun pos t v n want => hleaf (.int pos _ v n) _ rfl id fun _ => nofun
  case float =>
    exact fun pos t b want => hleaf (.float pos _ b) _ rfl id fun _ => floatType_eq (.inl rfl) want
  case double =>
    exact fun pos t b want => hleaf (.double pos _ b) _ rfl id fun _ => floatType_eq (.inr rfl) want
  case char => exact fun pos t v want => hleaf (.char pos _ v) _ rfl id fun _ => nofun
  case string => exact fun pos t v want => hleaf (.string pos _ v) _ rfl id fun _ => trivial
  case op => exact fun pos t op binary left right hl hr => op_annotates hl hr pos t op binary
  case call => exact fun pos t name nt args hargs => call_annotates hargs pos t name nt
  case nil =>
    intro done want
    refine Quiet.mono (Quiet.ofPure _) ?_
    rintro s _ _ ⟨rfl, rfl⟩
    exact ⟨rfl, [], by simp, fun _ _ => trivial⟩
  case cons => exact fun a rest ha hrest => args_annotates ha hrest

/-- What checking statements gives: conditions stay comparisons of two operands, and in a layout that
was planned for the annotated statements, the annotations fit. -/
def ChecksTo (functions : List Function) (ret : Option Ty) (p p' : Piece) (typed : Bool)
    (s s' : State) : Prop :=
  (Paired p → Paired p') ∧ ∀ l, Planned l p' → typed = true → Scoped l s →
    Scoped l s' ∧ WellTyped (signatures functions) l ret p'

def declareAs (v : Var) (init : Expr) (t : Option Ty) : Check Stmt := do
  declare v.name (t.or (some .s32))
  return .var { v with init, type := t.or (some .s32), nameType := t.or (some .s32) }

theorem checkStmt_var (functions : List Function) (ret : Option Ty) (v : Var) :
    checkStmt functions ret (.var v) =
      (if v.init.isMissing then declareAs v v.init v.type
      else do
        let (init, t) ← checkExpr functions v.type v.init
        declareAs v init (v.type.or t)) := by
  rw [checkStmt]
  split <;> rfl

theorem declareAs_checksTo (functions : List Function) (ret : Option Ty) (v : Var) (init : Expr)
    (t : Option Ty) : Checks (declareAs v init t) fun s r s' =>
      ∀ s₀, s.vars = s₀.vars → (init.isMissing = false → ∀ l, Scoped l s₀ →
        Typed (signatures functions) l init) →
      ChecksTo functions ret (.one (.var v)) (.one r) (r.targetsTyped ret) s₀ s' := by
  refine Quiet.mono (Quiet.bind (Quiet.ofModify fun _ => rfl) fun _ => Quiet.ofPure _) ?_
  rintro s _ _ ⟨_, _, rfl, rfl, rfl⟩ s₀ hv htyped
  refine ⟨fun _ => .var, fun l hplan htargets hscope => ?_⟩
  have hne : t.or (some .s32) ≠ none := by cases t <;> simp
  cases hplan with
  | var hw hty _ =>
    refine ⟨fun name ty hlookup => ?_, .var hne fun hinit => ⟨htyped hinit l hscope, ?_⟩⟩
    · by_cases hname : name = v.name
      · subst hname
        rw [List.lookup_cons_self] at hlookup
        cases hlookup
        exact ⟨_, hw, hty hne⟩
      · have hb : (name == v.name) = false := by simpa using hname
        rw [List.lookup_cons, hb, hv] at hlookup
        exact hscope name ty hlookup
    · simpa [Stmt.targetsTyped, hinit] using htargets

/-- A `return` of an expression that is checked. -/
theorem checkRet_checksTo {functions : List Function} {x : Expr} (hx : Annotates functions x)
    (ret : Option Ty) (pos : Pos) : Checks (checkStmt functions ret (.ret pos x)) fun s r s' =>
      ChecksTo functions ret (.one (.ret pos x)) (.one r) (r.targetsTyped ret) s s' := by
  have hcheck : Checks (do
      let (x, _) ← checkExpr functions ret x
      return Stmt.ret pos x) fun s r s' =>
      ChecksTo functions ret (.one (.ret pos x)) (.one r) (r.targetsTyped ret) s s' := by
    refine Quiet.mono (Quiet.bind (hx ret) fun y => Quiet.ofPure (Stmt.ret pos y.1)) ?_
    rintro s _ _ ⟨y, s₁, ⟨hv, -, -, hs⟩, rfl, rfl⟩
    refine ⟨fun _ => .ret, fun l _ htyped hscope => ⟨hscope.congr hv, .ret fun hy => ?_⟩⟩
    exact ⟨hs l hscope, by simpa [Stmt.targetsTyped, hy] using htyped⟩
  rw [checkStmt]
  by_cases hm : x.isMissing = true
  · rw [if_pos hm]
    refine Quiet.mono (Quiet.ofPure _) ?_
    rintro s _ _ ⟨rfl, rfl⟩
    exact ⟨id, fun l _ _ hscope => ⟨hscope, .ret fun h => by rw [hm] at h; cases h⟩⟩
  · rw [if_neg hm]
    split
    · exact Quiet.bind_of_false (report_checks _) fun _ => hcheck
    · exact hcheck

theorem checksTo_all (functions : List Function) (ret : Option Ty) :
    (∀ x, Checks (checkStmt functions ret x) fun s r s' =>
      ChecksTo functions ret (.one x) (.one r) (r.targetsTyped ret) s s') ∧
    ∀ xs, Checks (checkBlock functions ret xs) fun s r s' =>
      ChecksTo functions ret (.all xs) (.all r) (blockTargetsTyped ret r) s s' := by
  have hexpr := (annotates_all functions).1
  apply Stmt.forall_of
  case var =>
    intro v
    rw [checkStmt_var]
    split
    next hm =>
      refine Quiet.mono (declareAs_checksTo functions ret v v.init v.type) ?_
      exact fun s r s' h => h s rfl fun hinit => by rw [hm] at hinit; cases hinit
    next =>
      refine Quiet.mono (Quiet.bind (hexpr v.init v.type) fun y =>
        declareAs_checksTo functions ret v y.1 (v.type.or y.2)) ?_
      rintro s r s' ⟨y, s₁, ⟨hv, -, -, hs⟩, h⟩
      exact h s hv fun _ l hscope => hs l hscope
  case assign =>
    intro pos name nt x
    rw [checkStmt]
    refine Quiet.mono (Quiet.bind (checkName_checks pos name) fun t => Quiet.bind
      (hexpr x (t.getD none)) fun y => Quiet.ofPure (Stmt.assign pos name (t.getD nt) y.1)) ?_
    rintro s _ _ ⟨_, _, ⟨rfl, t, ht, rfl⟩, y, s₁, ⟨hv, -, -, hs⟩, rfl, rfl⟩
    refine ⟨fun _ => .assign, fun l _ htyped hscope => ⟨hscope.congr hv, ?_⟩⟩
    obtain ⟨w, hw, hty⟩ := hscope name t ht
    exact .assign hw hty (hs l hscope) (by simpa [Stmt.targetsTyped] using htyped)
  case ret => exact fun pos x => checkRet_checksTo (hexpr x) ret pos
  case expr =>
    intro pos x
    refine Quiet.mono (Quiet.bind (hexpr x none) fun y => Quiet.ofPure (Stmt.expr pos y.1)) ?_
    rintro s _ _ ⟨y, s₁, ⟨hv, -, -, hs⟩, rfl, rfl⟩
    exact ⟨fun _ => .expr, fun l _ _ hscope => ⟨hscope.congr hv, .expr (hs l hscope)⟩⟩
  case cond =>
    intro pos test body more hbody hmore
    cases more with
    | none =>
      rw [checkStmt]
      refine Quiet.mono (Quiet.bind (hexpr test none) fun y => Quiet.bind hbody fun body' =>
        Quiet.ofPure (Stmt.cond pos y.1 body' none)) ?_
      rintro s _ _ ⟨y, s₁, ⟨hv, -, hpair, hs⟩, body', s₂, ⟨hp, hb⟩, rfl, rfl⟩
      refine ⟨fun h => ?_, fun l hplan htyped hscope => ?_⟩
      · cases h with
        | cond htest hbody _ => exact .cond (hpair htest) (hp hbody) .nil
      · cases hplan with
        | cond _ hplan _ =>
          obtain ⟨hscope₂, hbody⟩ := hb l hplan htyped (hscope.congr hv)
          exact ⟨hscope₂, .cond (hs l hscope) hbody .nil⟩
    | some more =>
      rw [checkStmt]
      refine Quiet.mono (Quiet.bind (hexpr test none) fun y => Quiet.bind hbody fun body' =>
        Quiet.bind hmore fun more' => Quiet.ofPure (Stmt.cond pos y.1 body' (some more'))) ?_
      rintro s _ _ ⟨y, s₁, ⟨hv, -, hpair, hs⟩, body', s₂, ⟨hp, hb⟩, more', s₃, ⟨hp', hm⟩, rfl, rfl⟩
      refine ⟨fun h => ?_, fun l hplan htyped hscope => ?_⟩
      · cases h with
        | cond htest hbody hmore => exact .cond (hpair htest) (hp hbody) (hp' hmore)
      · rw [Stmt.targetsTyped, Bool.and_eq_true] at htyped
        cases hplan with
        | cond _ hplan hplan' =>
          obtain ⟨hscope₂, hbody⟩ := hb l hplan htyped.1 (hscope.congr hv)
          obtain ⟨hscope₃, hmore⟩ := hm l hplan' htyped.2 hscope₂
          exact ⟨hscope₃, .cond (hs l hscope) hbody hmore⟩
  case other =>
    intro kind pos
    refine Quiet.mono (Quiet.ofPure _) ?_
    rintro s _ _ ⟨rfl, rfl⟩
    exact ⟨id, fun l _ _ hscope => ⟨hscope, .other⟩⟩
  case nil =>
    refine Quiet.mono (Quiet.ofPure _) ?_
    rintro s _ _ ⟨rfl, rfl⟩
    exact ⟨id, fun l _ _ hscope => ⟨hscope, .nil⟩⟩
  case cons =>
    intro x rest hx hrest
    refine Quiet.mono (Quiet.bind hx fun x' => Quiet.bind hrest fun rest' => Quiet.ofPure
      (x' :: rest')) ?_
    rintro s _ _ ⟨x', s₁, ⟨hp, hw⟩, rest', s₂, ⟨hp', hw'⟩, rfl, rfl⟩
    refine ⟨fun h => ?_, fun l hplan htyped hscope => ?_⟩
    · cases h with
      | cons hx hrest => exact .cons (hp hx) (hp' hrest)
    · rw [blockTargetsTyped, Bool.and_eq_true] at htyped
      cases hplan with
      | cons hplan hplan' =>
        obtain ⟨hscope₁, hx⟩ := hw l hplan htyped.1 hscope
        obtain ⟨hscope₂, hrest⟩ := hw' l hplan' htyped.2 hscope₁
        exact ⟨hscope₂, .cons hx hrest⟩

structure CheckedFunction (functions : List Function) (f : Function) : Prop extends
    Parser.ParsedFunction f where
  typed : ∀ l, (∀ p ∈ f.params, ∃ v, l.var? p.name = some v ∧ v.ty = p.type) →
    Planned l (.all f.body) → blockTargetsTyped f.ret f.body = true →
    WellTyped (signatures functions) l f.ret (.all f.body)

/-- What of a function does not change when it is checked. -/
def interface (f : Function) : String × (Option Ty × List (Option Ty)) := (f.name, f.signature)

theorem checkFunction_checks (functions : List Function) {f : Function}
    (hf : Parser.ParsedFunction f) : Checks (checkFunction functions f) fun _ r _ =>
      interface r = interface f ∧ CheckedFunction functions r := by
  refine Quiet.mono (Quiet.bind (Quiet.ofModify fun _ => rfl) fun _ => Quiet.bind
    ((checksTo_all functions f.ret).2 f.body) fun body => Quiet.ofPure { f with body }) ?_
  rintro s _ _ ⟨_, _, rfl, body, s', ⟨hp, hw⟩, rfl, rfl⟩
  refine ⟨rfl, ⟨hf.params, hf.ret, hp hf.paired⟩, fun l hparams hplan htyped => ?_⟩
  refine (hw l hplan htyped fun name t hlookup => ?_).2
  obtain ⟨before, after, hsplit, -⟩ := List.lookup_eq_some_iff.mp hlookup
  dsimp only at hsplit
  have hmem : (name, t) ∈ (f.params.map fun p => (p.name, p.type)).reverse := by
    rw [hsplit]
    simp
  obtain ⟨p, hp, heq⟩ := List.mem_map.mp (List.mem_reverse.mp hmem)
  cases heq
  exact hparams p hp

theorem mapM_checks (functions : List Function) (fs : List Function)
    (hfs : ∀ f ∈ fs, Parser.ParsedFunction f) : Checks (fs.mapM (checkFunction functions))
      fun _ rs _ => rs.map interface = fs.map interface ∧ ∀ r ∈ rs, CheckedFunction functions r := by
  induction fs with
  | nil =>
    refine Quiet.mono (Quiet.ofPure _) ?_
    rintro s _ _ ⟨rfl, rfl⟩
    exact ⟨rfl, fun r hr => nomatch hr⟩
  | cons f fs ih =>
    rw [List.forall_mem_cons] at hfs
    rw [List.mapM_cons]
    refine Quiet.mono (Quiet.bind (checkFunction_checks functions hfs.1) fun r =>
      Quiet.bind (ih hfs.2) fun rs => Quiet.ofPure (r :: rs)) ?_
    rintro s _ _ ⟨r, _, ⟨hr, hc⟩, rs, _, ⟨hrs, hcs⟩, rfl, rfl⟩
    exact ⟨by rw [List.map_cons, List.map_cons, hr, hrs], List.forall_mem_cons.mpr ⟨hc, hcs⟩⟩

theorem signatures_eq_of_interfaces {fs gs : List Function}
    (h : fs.map interface = gs.map interface) : signatures fs = signatures gs := by
  have hfind : ∀ fs : List Function, signatures fs =
      fun name => ((fs.map interface).find? fun x => decide (x.1 = name)).map Prod.snd := by
    intro fs
    funext name
    rw [List.find?_map, Option.map_map]
    rfl
  rw [hfind fs, hfind gs, h]

theorem annotateNames_parsed {seen : List String} {fs : List Function}
    (h : ∀ f ∈ fs, Parser.ParsedFunction f) :
    ∀ f ∈ annotateNames seen fs, Parser.ParsedFunction f := by
  induction fs generalizing seen with
  | nil => exact h
  | cons f fs ih =>
    rw [List.forall_mem_cons] at h
    rw [annotateNames, List.forall_mem_cons]
    refine ⟨?_, ih h.2⟩
    split
    · exact h.1
    · exact ⟨h.1.params, h.1.ret, h.1.paired⟩

end Typing

/-- The functions of a text that is parsed and checked without a report. -/
theorem parseChecked_checked {name : String} {text : Text.Bytes} {file : File}
    (h : parseChecked name text = .ok file) :
    ∀ f ∈ file.functions, Typing.CheckedFunction file.functions f := by
  unfold parseChecked at h
  have hparsed := Parser.parse_parsed name text
  generalize Parser.parse name text = p at h hparsed
  dsimp only at h
  split at h
  · cases h
  split at h
  · cases h
  next hds =>
    obtain rfl := Except.ok.inj h
    have hchecks := Typing.mapM_checks (Typing.annotateNames [] p.file.functions)
      (Typing.annotateNames [] p.file.functions) (Typing.annotateNames_parsed hparsed) {}
    unfold Typing.check at hds ⊢
    dsimp only at hds ⊢
    generalize (List.mapM (Typing.checkFunction (Typing.annotateNames [] p.file.functions))
      (Typing.annotateNames [] p.file.functions)).run {} = r at hds hchecks ⊢
    obtain ⟨functions, s⟩ := r
    obtain ⟨hinterfaces, hchecked⟩ := hchecks.2 (by simpa using hds)
    intro f hf
    have hc := hchecked f hf
    refine ⟨hc.toParsedFunction, ?_⟩
    rw [Typing.signatures_eq_of_interfaces hinterfaces]
    exact hc.typed

end RegisterLang
