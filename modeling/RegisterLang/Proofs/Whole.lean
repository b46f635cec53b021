import RegisterLang.Proofs.Untyped

/-!
# Checking keeps trees whole

Checking only annotates a tree. So no expression is missing afterwards where one is needed if none was
missing before, whatever is reported.
-/
namespace RegisterLang

@[simp] theorem Expr.isMissing_untyped (x : Expr) : x.untyped.isMissing = x.isMissing := by
  cases x <;> rfl

@[simp] theorem Expr.isPair_untyped (x : Expr) : x.untyped.IsPair ↔ x.IsPair := by
  cases x <;> exact Iff.rfl

theorem isWhole_untyped_all : (∀ x : Expr, x.untyped.isWhole = x.isWhole) ∧
    ∀ xs, argsWhole (untypedArgs xs) = argsWhole xs := by
  apply Expr.forall_of
  case op =>
    intro pos t op binary left right hl hr
    rw [Expr.untyped, Expr.isWhole, Expr.isWhole, hl, hr, Expr.isMissing_untyped]
  case call =>
    intro pos t name nt args hargs
    rw [Expr.untyped, Expr.isWhole, Expr.isWhole, hargs]
  case cons =>
    intro a rest ha hrest
    rw [untypedArgs, argsWhole, argsWhole, ha, hrest]
  all_goals intros; rfl

@[simp] theorem Expr.isWhole_untyped (x : Expr) : x.untyped.isWhole = x.isWhole :=
  isWhole_untyped_all.1 x

section
variable {pos : Pos} {name : String} {nt : Option Ty} {v : Var} {x : Expr} {y : Stmt}
  {body rest : Block} {more : Option Block}

theorem whole_var_iff : Whole (.one (.var v)) ↔ v.init.isMissing = true ∨ v.init.isWhole = true :=
  ⟨fun h => by cases h with | var h => exact h, .var⟩

theorem whole_assign_iff : Whole (.one (.assign pos name nt x)) ↔ x.isWhole = true :=
  ⟨fun h => by cases h with | assign h => exact h, .assign⟩

theorem whole_ret_iff : Whole (.one (.ret pos x)) ↔ x.isMissing = true ∨ x.isWhole = true :=
  ⟨fun h => by cases h with | ret h => exact h, .ret⟩

theorem whole_expr_iff : Whole (.one (.expr pos x)) ↔ x.isWhole = true :=
  ⟨fun h => by cases h with | expr h => exact h, .expr⟩

theorem whole_cond_iff : Whole (.one (.cond pos x body more)) ↔
    x.IsPair ∧ x.isWhole = true ∧ Whole (.all body) ∧ Whole (.all (elseStmts more)) :=
  ⟨fun h => by cases h with | cond hpair hx hbody hmore => exact ⟨hpair, hx, hbody, hmore⟩,
    fun h => .cond h.1 h.2.1 h.2.2.1 h.2.2.2⟩

theorem whole_cons_iff : Whole (.all (y :: rest)) ↔ Whole (.one y) ∧ Whole (.all rest) :=
  ⟨fun h => by cases h with | cons hy hrest => exact ⟨hy, hrest⟩, fun h => .cons h.1 h.2⟩

end

/-- Whether statements are whole does not depend on annotations. -/
theorem whole_untyped : (∀ x : Stmt, Whole (.one x.untyped) ↔ Whole (.one x)) ∧
    ∀ xs, Whole (.all (untypedBlock xs)) ↔ Whole (.all xs) := by
  apply Stmt.forall_of
  case var =>
    intro v
    simp [Stmt.untyped, Var.untyped, whole_var_iff]
  case assign =>
    intro pos name nt x
    simp [Stmt.untyped, whole_assign_iff]
  case ret =>
    intro pos x
    simp [Stmt.untyped, whole_ret_iff]
  case expr =>
    intro pos x
    simp [Stmt.untyped, whole_expr_iff]
  case cond =>
    intro pos test body more hbody hmore
    cases more <;> simp_all [Stmt.untyped, whole_cond_iff, elseStmts, untypedBlock]
  case other => exact fun kind pos => Iff.rfl
  case nil => exact Iff.rfl
  case cons =>
    intro x rest hx hrest
    rw [untypedBlock, whole_cons_iff, whole_cons_iff, hx, hrest]

namespace Typing

structure WholeFunction (f : Function) : Prop where
  params : ∀ p ∈ f.params, p.init.isMissing = true
  body : Whole (.all f.body)

theorem WholeFunction.of_underlies {f f' : Function} (hf : WholeFunction f) (h : Underlies f f') :
    WholeFunction f' := by
  have hparams : f'.untyped.params = f.untyped.params := congrArg Function.params h.untyped
  have hbody : f'.untyped.body = f.untyped.body := congrArg Function.body h.untyped
  change f'.params = f.params at hparams
  change untypedBlock f'.body = untypedBlock f.body at hbody
  refine ⟨hparams ▸ hf.params, ?_⟩
  rw [← whole_untyped.2, hbody, whole_untyped.2]
  exact hf.body

/-- A file stays whole when it is checked, whatever is reported. -/
theorem check_whole {file : File} (h : ∀ f ∈ file.functions, WholeFunction f)
    (ds : Array Diagnostic) : ∀ f ∈ (check file ds).1.functions, WholeFunction f := by
  have hunder := check_underlies file ds
  generalize file.functions = fs, (check file ds).1.functions = fs' at h hunder ⊢
  induction hunder with
  | nil => exact h
  | cons hf _ ih =>
    rw [List.forall_mem_cons] at h ⊢
    exact ⟨h.1.of_underlies hf, ih h.2⟩

end Typing

/-- The tree of a text, as it was parsed or after it was checked. -/
inductive File.IsRead : File → Prop
  | parsed (name : String) (text : Text.Bytes) : IsRead (Parser.parse name text).file
  | checked (name : String) (text : Text.Bytes) (ds : Array Diagnostic) :
      IsRead (Typing.check (Parser.parse name text).file ds).1

theorem isRead_of_parseChecked {name : String} {text : Text.Bytes} {file : File}
    (h : parseChecked name text = .ok file) : file.IsRead := by
  unfold parseChecked at h
  dsimp only at h
  split at h
  · cases h
  · split at h
    · cases h
    · cases h
      exact .checked name text #[]

theorem File.IsRead.whole {file : File} (h : file.IsRead) :
    ∀ f ∈ file.functions, Typing.WholeFunction f := by
  have hparsed : ∀ name text, ∀ f ∈ (Parser.parse name text).file.functions,
      Typing.WholeFunction f := fun name text f hf =>
    ⟨(Parser.parse_parsed name text f hf).params, Parser.parse_whole name text f hf⟩
  cases h with
  | parsed name text => exact hparsed name text
  | checked name text ds => exact Typing.check_whole (hparsed name text) ds

end RegisterLang
