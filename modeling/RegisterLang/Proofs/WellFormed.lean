import RegisterLang.Proofs.Calls

/-!
# Trees that mean something

The evaluator calls a tree ill-formed where it cannot go by the annotations. Where code was lowered
this does not happen: an annotation is there for every operator and literal, since it comes from the
operands, floats are numbers, and lowering has looked up the rest. So an evaluation of an accepted
program is undefined only where a variable or a value is missing.
-/
namespace RegisterLang.Reference
open Lowering Number

def Outcome.Formed {α : Type} (r : Outcome α) : Prop := r ≠ .illFormed

namespace Outcome
variable {α β : Type}

theorem Formed.bind {r : Outcome α} {f : α → Outcome β} (h : r.Formed) (hf : ∀ a, (f a).Formed) :
    (r >>= f).Formed := by
  cases r with
  | value a => exact hf a
  | illFormed => exact absurd rfl h
  | divisionByZero | undefined | tooDeep => exact nofun

theorem formed_value (a : α) : (Outcome.value a).Formed := nofun

theorem formed_divisionByZero : (Outcome.divisionByZero : Outcome α).Formed := nofun

theorem formed_read (o : Option α) : (read o).Formed := by
  cases o <;> exact nofun

theorem formed_part {o : Option α} {a : α} (h : o = some a) : (part o).Formed := by
  rw [h]
  exact formed_value a

end Outcome

theorem formed_math {op : Op} {code : Opcode} (h : mathOp? op = some code) (k : Kind) (x y : Nat) :
    (math op k x y).Formed := by
  have hwhole : ∀ m n : Int, (wholeMath op m n).Formed := by
    intro m n
    cases op <;> cases h
    case add | sub | mul => exact Outcome.formed_value _
    case div | mod =>
      rw [wholeMath]
      split
      · exact Outcome.formed_divisionByZero
      · exact Outcome.formed_value _
  have hfloat : ∀ f, (floatMath f op x y).Formed := by
    intro f
    cases op <;> cases h <;> exact Outcome.formed_value _
  cases k with
  | whole => exact (hwhole _ _).bind fun _ => Outcome.formed_value _
  | float f => exact (hfloat f).bind fun _ => Outcome.formed_value _

theorem formed_ofFloat {ty : Option Ty} (hty : ty = some .float ∨ ty = some .double) {k : Kind}
    (hk : kind? ty = some k) {f : Format} {bits : Nat} (hbits : f.biased bits ≠ f.top) :
    (k.ofFloat f bits).Formed := by
  rcases hty with rfl | rfl
  all_goals
    cases hk
    rw [Kind.ofFloat, if_neg hbits]
    exact Outcome.formed_value _

end RegisterLang.Reference

namespace RegisterLang.Lowering
open Reference

section
variable {s : Scope} {functions : List Function} {call : Caller}

structure Knows (s : Scope) (functions : List Function) : Prop where
  sound : s.current.Sound
  function?_eq : ∀ l ∈ s.layouts, function? functions l.function.name = some l.function
  ret : ∀ l ∈ s.layouts, l.function.ret ≠ none

/-- The expressions of a task have annotations if these fit; arguments are looked at one by one. -/
def Task.Annotated (s : Scope) (functions : List Function) : Task → Prop
  | .value _ _ _ x | .operand _ _ x _ => Typed (signatures functions) s.current x → x.type ≠ none
  | .args .. => True

/-- An operator has the annotation of its operands. -/
theorem annotation_ne_none {x : Expr} {ty : Option Ty} (hne : x.type ≠ none)
    (h : x.type = none ∨ x.type = ty) : ty ≠ none := by
  rcases h with h | rfl
  · exact absurd h hne
  · exact hne

theorem annotated_literal {x : Expr} {t : RegType} {bits : UInt64}
    (hbits : literalBits? t x = some bits) (htyped : Typed (signatures functions) s.current x) :
    x.type ≠ none := by
  cases x with
  | int | char => exact htyped
  | float | double =>
    rintro rfl
    rcases htyped with h | h <;> cases h
  | _ => cases hbits

theorem annotated_call (hk : Knows s functions) {pos : Pos} {ty : Option Ty} {name : String}
    {nt : Option Ty} {args : List Expr} {callee : Layout} (hcallee : s.callee? name = some callee)
    (htyped : Typed (signatures functions) s.current (.call pos ty name nt args)) : ty ≠ none := by
  obtain ⟨rfl, -⟩ := typed_call (function?_of_callee? hk.function?_eq hcallee) htyped
  exact hk.ret callee (List.mem_of_find?_eq_some hcallee)

theorem Lowers.annotated (hk : Knows s functions) {task : Task} {code : List Instr}
    (h : Lowers s task code) : task.Annotated s functions := by
  induction h with
  | ident hv | operandIdent hv =>
    rintro ⟨w, hw, rfl⟩ hnone
    have hnone : w.ty = none := hnone
    have hreg := hk.sound.regType?_eq hw
    rw [hnone] at hreg
    cases hreg
  | literal _ hbits => exact annotated_literal hbits
  | negation _ _ ih => exact fun htyped => annotation_ne_none (ih htyped.2.1) htyped.2.2
  | operation _ _ _ _ ih _ =>
    exact fun htyped => annotation_ne_none (ih (htyped.1 rfl).1) (htyped.1 rfl).2
  | call hcallee | callWaiting hcallee => exact annotated_call hk hcallee
  | operandValue _ _ ih => exact ih
  | nil | cons => trivial

/-- An expression that is whole and has annotations means something. -/
def Meant (s : Scope) (functions : List Function) (call : Caller) (x : Expr) : Prop :=
  x.isWhole = true → Typed (signatures functions) s.current x →
    ∀ env, (evalExpr functions call env x).Formed

def Task.Meant (s : Scope) (functions : List Function) (call : Caller) : Task → Prop
  | .value _ _ _ x | .operand _ _ x _ => Lowering.Meant s functions call x
  | .args _ _ _ types xs => argsWhole xs = true →
    TypedArgs (signatures functions) s.current types xs →
    ∀ env, (evalArgs functions call env xs).Formed

theorem exists_kind? {want : Option Ty} {x : Expr} {t : RegType}
    (ht : regType? (s.typeOf want x) = some t) (hne : x.type ≠ none) :
    ∃ k, kind? x.type = some k := by
  rw [typeOf_eq_type s want x hne] at ht
  exact ⟨kindOf t, by rw [kind?_eq, ht]; rfl⟩

theorem meant_literal {want : Option Ty} {x : Expr} {t : RegType} {bits : UInt64}
    (ht : regType? (s.typeOf want x) = some t) (hbits : literalBits? t x = some bits) :
    Meant s functions call x := by
  intro hwhole htyped env
  obtain ⟨k, hk⟩ := exists_kind? ht (annotated_literal hbits htyped)
  rw [evalExpr_literal hbits, hk]
  cases x with
  | int | char => exact Outcome.formed_value _
  | float | double => exact formed_ofFloat htyped hk (of_decide_eq_true hwhole)
  | _ => cases hbits

theorem meant_negation {want : Option Ty} {pos : Pos} {ty : Option Ty} {op : Op} {left right : Expr}
    {t : RegType} (hne : Typed (signatures functions) s.current right → right.type ≠ none)
    (ht : regType? (s.typeOf want (.op pos ty op false left right)) = some t)
    (hright : Meant s functions call right) :
    Meant s functions call (.op pos ty op false left right) := by
  intro hwhole htyped env
  obtain ⟨-, hwhole⟩ := Bool.and_eq_true_iff.mp hwhole
  obtain ⟨k, hk⟩ := exists_kind? ht (annotation_ne_none (hne htyped.2.1) htyped.2.2)
  have hop : mathOp? .sub = some .sub := rfl
  rw [evalExpr]
  exact (Outcome.formed_part hk).bind fun k => (hright hwhole htyped.2.1 env).bind fun y =>
    formed_math hop k 0 y

theorem meant_operation {want : Option Ty} {pos : Pos} {ty : Option Ty} {op : Op}
    {left right : Expr} {t : RegType} {m : Opcode}
    (hne : Typed (signatures functions) s.current left → left.type ≠ none)
    (ht : regType? (s.typeOf want (.op pos ty op true left right)) = some t)
    (hm : mathOp? op = some m) (hleft : Meant s functions call left)
    (hright : Meant s functions call right) :
    Meant s functions call (.op pos ty op true left right) := by
  intro hwhole htyped env
  obtain ⟨hwhole, hwhole'⟩ := Bool.and_eq_true_iff.mp hwhole
  obtain ⟨hleftTyped, hty⟩ := htyped.1 rfl
  obtain ⟨k, hk⟩ := exists_kind? ht (annotation_ne_none (hne hleftTyped) hty)
  rw [evalExpr]
  exact (Outcome.formed_part hk).bind fun k => (hleft hwhole hleftTyped env).bind fun x =>
    (hright hwhole' htyped.2.1 env).bind fun y => formed_math hm k x y

def CallsFormed (s : Scope) (call : Caller) : Prop :=
  ∀ l ∈ s.layouts, ∀ vs, (call l.function vs).Formed

theorem meant_call (hk : Knows s functions) (hcalls : CallsFormed s call) {pos : Pos}
    {ty : Option Ty} {name : String} {nt : Option Ty} {args : List Expr} {callee : Layout}
    (hcallee : s.callee? name = some callee)
    (hargs : argsWhole args = true →
      TypedArgs (signatures functions) s.current (callee.function.params.map Var.type) args →
      ∀ env, (evalArgs functions call env args).Formed) :
    Meant s functions call (.call pos ty name nt args) := by
  intro hwhole htyped env
  have hf := function?_of_callee? hk.function?_eq hcallee
  have hmem := List.mem_of_find?_eq_some hcallee
  rw [evalExpr, named?_eq, hf, Outcome.part_some_bind]
  exact (hargs hwhole (typed_call hf htyped).2 env).bind fun vs =>
    (hcalls callee hmem vs).bind fun v => Outcome.formed_read v

/-- Expressions for which there is code mean something. -/
theorem Lowers.meant (hk : Knows s functions) (hcalls : CallsFormed s call) {task : Task}
    {code : List Instr} (h : Lowers s task code) : task.Meant s functions call := by
  induction h with
  | ident | operandIdent => exact fun _ _ env => Outcome.formed_read _
  | literal ht hbits => exact meant_literal ht hbits
  | negation ht h ih => exact meant_negation (h.annotated hk) ht ih
  | operation ht hm h _ iha ihb => exact meant_operation (h.annotated hk) ht hm iha ihb
  | call hcallee _ _ _ ih => exact meant_call hk hcalls hcallee ih
  | callWaiting hcallee _ _ _ ih => exact meant_call hk hcalls hcallee ih
  | operandValue _ _ ih => exact ih
  | nil => exact fun _ _ _ => Outcome.formed_value _
  | cons _ _ iha ihrest =>
    intro hwhole htyped env
    obtain ⟨ha, hrest⟩ := Bool.and_eq_true_iff.mp hwhole
    rw [evalArgs]
    exact (iha ha htyped.1.1 env).bind fun v => (ihrest hrest htyped.2 env).bind fun vs =>
      Outcome.formed_value _

theorem formed_evalCall (hk : Knows s functions) (hcalls : CallsFormed s call)
    {want : Option Ty} {dst free : Reg} {pos : Pos}
    {ty ty' : Option Ty} {name : String} {nt nt' : Option Ty} {args : List Expr} {code : List Instr}
    (h : Lowers s (.value want dst free (.call pos ty name nt args)) code)
    (hwhole : argsWhole args = true)
    (htyped : Typed (signatures functions) s.current (.call pos ty' name nt' args)) (env : Env) :
    (evalCall functions call env (.call pos ty' name nt' args)).Formed := by
  obtain ⟨callee, hcallee, hargs⟩ : ∃ callee, s.callee? name = some callee ∧
      (TypedArgs (signatures functions) s.current (callee.function.params.map Var.type) args →
        ∀ env, (evalArgs functions call env args).Formed) := by
    cases h with
    | literal _ hbits => cases hbits
    | call hcallee _ _ hargs => exact ⟨_, hcallee, hargs.meant hk hcalls hwhole⟩
    | callWaiting hcallee _ _ hargs => exact ⟨_, hcallee, hargs.meant hk hcalls hwhole⟩
  have hf := function?_of_callee? hk.function?_eq hcallee
  rw [evalCall, named?_eq, hf, Outcome.part_some_bind]
  exact (hargs (typed_call hf htyped).2 env).bind fun vs =>
    (hcalls callee (List.mem_of_find?_eq_some hcallee) vs).bind fun _ => Outcome.formed_value _

theorem LowersTest.meant (hk : Knows s functions) (hcalls : CallsFormed s call) {first : Nat}
    {test : Expr} {code : List Instr} (h : LowersTest s first test code) (hpair : test.IsPair)
    (hwhole : test.isWhole = true) (htyped : Typed (signatures functions) s.current test) (env : Env) :
    (evalTest functions call env test).Formed := by
  cases test with
  | op pos ty op binary left right =>
    obtain rfl : binary = true := hpair
    obtain ⟨hwhole, hwhole'⟩ := Bool.and_eq_true_iff.mp hwhole
    have hkind := @exists_kind? s none (.op pos ty op true left right)
    cases h with
    | intro hcomparison ht hjumps hleft hright =>
      cases hcomparison
      obtain ⟨hleftTyped, hty⟩ := htyped.1 rfl
      have hmeant := hleft.meant hk hcalls hwhole hleftTyped env
      have hmeant' := hright.meant hk hcalls hwhole' htyped.2.1 env
      obtain ⟨k, hk⟩ := hkind ht (annotation_ne_none (hleft.annotated hk hleftTyped) hty)
      refine (Outcome.formed_part hk).bind fun k => hmeant.bind fun x => hmeant'.bind fun y => ?_
      rw [Operation.taken_jumps hjumps]
      exact Outcome.formed_value _
  | _ => exact hpair.elim

/-- Statements for which there is code mean something. -/
theorem LowersStmt.meant (hk : Knows s functions) (hcalls : CallsFormed s call) {ret : Option Ty}
    {p : Piece} {n n' : Nat}
    {items : List Item} (h : LowersStmt s p n items n')
    (htyped : WellTyped (signatures functions) s.current ret p) (hwhole : Whole p) (env : Env) :
    (runPiece functions call env p).Formed := by
  induction h generalizing env with
  | declare hinit =>
    rw [runPiece, runStmt, isAbsent_eq, if_pos hinit]
    exact Outcome.formed_value _
  | init hinit hcode =>
    rw [runPiece, runStmt, isAbsent_eq, if_neg (by simp [hinit])]
    cases htyped with
    | var _ hx =>
      cases hwhole with
      | var hwhole =>
        have hwhole := hwhole.resolve_left (by simp [hinit])
        exact (hcode.meant hk hcalls hwhole (hx hinit).1 env).bind fun _ => Outcome.formed_value _
  | assign hw hcode =>
    cases htyped with
    | assign _ _ hx _ =>
      cases hwhole with
      | assign hwhole =>
        exact (hcode.meant hk hcalls hwhole hx env).bind fun _ => Outcome.formed_value _
  | retNothing hx =>
    rw [runPiece, runStmt, isAbsent_eq, if_pos hx]
    exact Outcome.formed_value _
  | ret hx hcode =>
    rw [runPiece, runStmt, isAbsent_eq, if_neg (by simp [hx])]
    cases htyped with
    | ret htyped =>
      cases hwhole with
      | ret hwhole =>
        have hwhole := hwhole.resolve_left (by simp [hx])
        exact (hcode.meant hk hcalls hwhole (htyped hx).1 env).bind fun _ => Outcome.formed_value _
  | call hcode =>
    cases htyped with
    | expr htyped =>
      cases hwhole with
      | expr hwhole =>
        exact (formed_evalCall hk hcalls hcode hwhole htyped env).bind fun _ => Outcome.formed_value _
  | cond htest _ _ ihbody ihmore =>
    rw [runPiece, runStmt_cond]
    cases htyped with
    | cond htyped hbody hmore =>
      cases hwhole with
      | cond hpair hwhole hbody' hmore' =>
        refine (htest.meant hk hcalls hpair hwhole htyped env).bind fun b => ?_
        cases b with
        | true => exact ihbody hbody hbody' env
        | false => exact ihmore hmore hmore' env
  | nil => exact Outcome.formed_value _
  | cons _ _ ihx ihrest =>
    cases htyped with
    | cons hx hrest =>
      cases hwhole with
      | cons hx' hrest' =>
        rw [runPiece, runBlock]
        refine (ihx hx hx' env).bind fun flow => ?_
        cases flow with
        | next env' => exact ihrest hrest hrest' env'
        | returned v => exact Outcome.formed_value _

end

end RegisterLang.Lowering

namespace RegisterLang.Machine.Accepted
open Lowering Reference

/-- An accepted program means something, to every depth of calls. -/
theorem formed_callFunction {a : Accepted} (htyped : ProgramTyped a.functions a.layouts)
    (hret : ∀ l ∈ a.layouts, l.function.ret ≠ none)
    (hwhole : ∀ l ∈ a.layouts, Whole (.all l.function.body)) {l : Layout} (hl : l ∈ a.layouts)
    (bare : Bare) (n : Nat) (vs : List Nat) :
    (callFunction a.functions bare n l.function vs).Formed := by
  induction n generalizing l vs with
  | zero => exact nofun
  | succ n ih =>
    obtain ⟨_, _, -, ⟨_, _, body, hbody, -⟩, -⟩ := a.linked.body l hl
    have hknows : Knows ⟨a.layouts, l⟩ a.functions := ⟨a.sound l hl, a.function?_eq, hret⟩
    refine (hbody.meant hknows (fun l' hl' vs => ih hl' vs) (htyped l hl).2 (hwhole l hl) _).bind
      fun flow => ?_
    cases flow <;> exact Outcome.formed_value _

end RegisterLang.Machine.Accepted
