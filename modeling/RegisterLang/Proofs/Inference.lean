import RegisterLang.Proofs.Elaboration

/-!
# Types without annotations

Where a tree is not annotated, lowering infers the types of its expressions. An inferred type follows
one operand down to what decides it. If that is a whole number and no number is expected there, the
inferred type may differ from the one that checking gives: `Expr.leads` says that it does not. Apart
from this, inference agrees with elaboration, and the code of a plain tree is that of its annotated
form.
-/
namespace RegisterLang
open Lowering Typing

namespace Expr

/-- The whole number that decides the type of an expression, if it is one and no number is expected
there, has the type that is inferred for it. -/
def leads (want : Option Ty) : Expr → Bool
  | .int _ _ value negative => (want.filter Ty.isNumeric).isSome ||
      intType value negative none = (if value > 0x7FFFFFFF then .s64 else .s32)
  | .op _ _ o _ left right =>
    if left.isMissing || left.isNumber && !right.isNumber then right.leads (o.operandWant want)
    else left.leads (o.operandWant want)
  | _ => true

mutual

def comparisonsLead : Expr → Bool
  | .op _ _ o _ left right =>
    (!o.isComparison ||
      (if left.isMissing || left.isNumber && !right.isNumber then right.leads none
        else left.leads none)) && left.comparisonsLead && right.comparisonsLead
  | .call _ _ _ _ args => argsComparisonsLead args
  | _ => true
termination_by structural x => x

def argsComparisonsLead : List Expr → Bool
  | [] => true
  | a :: rest => a.comparisonsLead && argsComparisonsLead rest
termination_by structural x => x

end

/-- The type that is inferred for an expression where `want` is expected, and those that are inferred
for the comparisons in it, are those that checking gives. -/
def settled (want : Option Ty) (x : Expr) : Bool := x.leads want && x.comparisonsLead

end Expr

def KnowsTypes (known : Variables) (vars : TypeEnv) : Prop :=
  ∀ name t, vars.lookup name = some t → (known.lookup name).bind Variable.ty = t

theorem KnowsTypes.cons {known : Variables} {vars : TypeEnv} (h : KnowsTypes known vars)
    {name : String} {t : Ty} (hname : (known.lookup name).bind Variable.ty = some t) :
    KnowsTypes known ((name, some t) :: vars) := by
  intro n u hu
  by_cases hn : n = name
  · subst hn
    rw [List.lookup_cons_self] at hu
    cases hu
    exact hname
  · have hb : (n == name) = false := by simpa using hn
    rw [List.lookup_cons, hb] at hu
    exact h n u hu

structure SameCost (x x' : Expr) : Prop where
  ident : ident? x' = ident? x
  isIdent : isIdent x' = isIdent x
  call : makesCall x' = makesCall x
  temps : temporaries x' = temporaries x
  widest : widestCall x' = widestCall x

structure SameCosts (xs xs' : List Expr) : Prop where
  length : xs'.length = xs.length
  call : xs'.any makesCall = xs.any makesCall
  temps : ∀ waiting index most,
    argTemporaries waiting index most xs' = argTemporaries waiting index most xs
  widest : ∀ most, widestArg most xs' = widestArg most xs

namespace Elaborates
variable {sig : Signatures} {vars : TypeEnv}

/-- The expression and its annotated form are there, and only the latter has a type. -/
theorem types {want : Option Ty} {x x' : Expr} {t : Ty} (h : Elaborates sig vars (.expr want x x' t)) :
    x.type = none ∧ x'.type = some t ∧ x.isMissing = false ∧ x'.isMissing = false := by
  cases h <;> exact ⟨rfl, rfl, rfl, rfl⟩

def CostGoal : Goal → Prop
  | .expr _ x x' _ => SameCost x x'
  | .args _ xs xs' => SameCosts xs xs'

theorem costGoal {g : Goal} (h : Elaborates sig vars g) : CostGoal g := by
  induction h with
  | ident | int | float | double | char | string => exact ⟨rfl, rfl, rfl, rfl, rfl⟩
  | neg _ ih =>
    exact ⟨rfl, rfl, by simp [makesCall, ih.call], by simp [temporaries, ih.isIdent, ih.temps],
      by simp [widestCall, ih.widest]⟩
  | follow _ _ _ ihr ihl | lead _ _ _ ihl ihr =>
    exact ⟨rfl, rfl, by simp [makesCall, ihl.call, ihr.call],
      by simp [temporaries, ihl.isIdent, ihl.temps, ihr.isIdent, ihr.temps],
      by simp [widestCall, ihl.widest, ihr.widest]⟩
  | call _ _ ih =>
    exact ⟨rfl, rfl, rfl, by simp [temporaries, ih.call, ih.temps],
      by simp [widestCall, ih.length, ih.widest]⟩
  | nil => exact ⟨rfl, rfl, fun _ _ _ => rfl, fun _ => rfl⟩
  | cons _ _ iha ih =>
    exact ⟨by simp [ih.length], by simp [iha.call, ih.call],
      fun waiting index most => by simp [argTemporaries, iha.temps, ih.temps],
      fun most => by simp [widestArg, iha.widest, ih.widest]⟩

theorem cost {want : Option Ty} {x x' : Expr} {t : Ty} (h : Elaborates sig vars (.expr want x x' t)) :
    SameCost x x' := h.costGoal

theorem costs {want : List (Option Ty)} {xs xs' : List Expr}
    (h : Elaborates sig vars (.args want xs xs')) : SameCosts xs xs' := h.costGoal

end Elaborates

theorem intType_isNumeric (value : UInt64) (negative : Bool) (want : Option Ty) :
    (intType value negative want).isNumeric = true := by
  unfold intType
  split
  next t ht => exact (Option.filter_eq_some_iff.mp ht).2
  · repeat' split
    all_goals rfl

theorem floatType_cases (own : Ty) (want : Option Ty) :
    floatType own want = .float ∨ floatType own want = .double ∨ floatType own want = own := by
  unfold floatType
  repeat' split
  all_goals simp

section
variable {functions : List Function} {known : Variables} {vars : TypeEnv}

/-- What is inferred for a pair of operands without annotations. -/
theorem typeOf_pair {want : Option Ty} {pos : Pos} {op : Op} {binary : Bool} {left right : Expr}
    (hl : left.type = none) (hr : right.type = none) :
    typeOf functions known want (.op pos none op binary left right) =
      if left.isMissing || left.isNumber && !right.isNumber then
        typeOf functions known (op.operandWant want) right
      else typeOf functions known (op.operandWant want) left := by
  rw [typeOf]
  simp only [isUntyped, hl, hr, Option.isNone_none, Bool.and_true, Option.none_or]
  rfl

def Elaborates.InferGoal (functions : List Function) (known : Variables) : Goal → Prop
  | .expr want x _ t => x.leads want = true → typeOf functions known want x = some t
  | .args .. => True

theorem Elaborates.inferGoal (hknown : KnowsTypes known vars) {g : Goal}
    (h : Elaborates (signatures functions) vars g) : InferGoal functions known g := by
  induction h with
  | ident hname =>
    intro _
    exact hknown _ _ hname
  | @int want pos value negative t ht =>
    intro hleads
    rw [typeOf, Option.none_or]
    rw [Expr.leads] at hleads
    unfold intType at ht hleads
    cases hwant : want.filter Ty.isNumeric with
    | some w =>
      rw [hwant] at ht
      rw [← ht]
      rfl
    | none =>
      rw [hwant] at ht hleads
      rw [← ht]
      simpa using (of_decide_eq_true hleads).symm
  | @float want pos bits t ht | @double want pos bits t ht =>
    intro _
    rw [typeOf, ← ht, floatType]
    split <;> simp_all
  | char => exact fun _ => rfl
  | string => exact fun _ => rfl
  | neg hx ih => exact ih
  | follow hfollows hright hleft ihr ihl =>
    intro hleads
    simp only [follows, Bool.and_eq_true] at hfollows
    rw [typeOf_pair hleft.types.1 hright.types.1]
    rw [Expr.leads] at hleads
    rw [hleft.types.2.2.1, hfollows.1.2, hfollows.2] at hleads ⊢
    rw [Option.isNone_iff_eq_none.mp hfollows.1.1] at hleads ⊢
    exact ihr hleads
  | @lead want pos op left left' right right' t hfollows hleft hright ihl ihr =>
    intro hleads
    rw [typeOf_pair hleft.types.1 hright.types.1]
    rw [Expr.leads] at hleads
    rw [hleft.types.2.2.1, Bool.false_or] at hleads ⊢
    unfold InferGoal at ihl ihr
    split at hleads
    next hcond =>
      rw [if_pos hcond]
      cases hwant : op.operandWant want with
      | none =>
        rw [follows, hwant, Option.isNone_none, Bool.true_and] at hfollows
        rw [hcond] at hfollows
        cases hfollows
      | some w =>
        rw [hwant] at hleads ihr
        exact ihr hleads
    next hcond =>
      rw [if_neg hcond]
      exact ihl hleads
  | @call want pos name args args' t params hname hargs =>
    intro _
    obtain ⟨f, hf, hsig⟩ := Option.map_eq_some_iff.mp hname
    rw [typeOf, hf, Option.none_or, Option.bind_some]
    exact congrArg Prod.fst hsig
  | nil => trivial
  | cons => trivial

/-- The type that is inferred where the context expects what checking expects there. -/
theorem Elaborates.typeOf_eq (hknown : KnowsTypes known vars) {want : Option Ty} {x x' : Expr}
    {t : Ty} (h : Elaborates (signatures functions) vars (.expr want x x' t)) (hleads : x.leads want = true) :
    typeOf functions known want x = some t :=
  h.inferGoal hknown hleads

def Elaborates.OwnGoal (functions : List Function) (known : Variables) : Goal → Prop
  | .expr _ x _ t => x.comparisonsLead = true → typeOf functions known (some t) x = some t
  | .args .. => True

theorem Elaborates.own_pair (hknown : KnowsTypes known vars) {want : Option Ty} {pos : Pos} {op : Op}
    {left right x' : Expr} {t : Ty} (h : Elaborates (signatures functions) vars
      (.expr want (.op pos none op true left right) x' t))
    (hl : left.type = none) (hr : right.type = none)
    (hlead : (Expr.op pos none op true left right).comparisonsLead = true)
    (hleft : typeOf functions known (some t) left = some t)
    (hright : typeOf functions known (some t) right = some t) :
    typeOf functions known (some t) (.op pos none op true left right) = some t := by
  rw [Expr.comparisonsLead, Bool.and_eq_true, Bool.and_eq_true] at hlead
  cases hop : op.isComparison with
  | true =>
    -- a comparison expects nothing of its operands, so what its context expects does not matter
    have hwant : ∀ w, op.operandWant w = none := fun w => by simp [Op.operandWant, hop]
    have htype := h.typeOf_eq hknown (by simpa [Expr.leads, hwant, hop] using hlead.1.1)
    rw [typeOf_pair hl hr, hwant] at htype ⊢
    exact htype
  | false =>
    rw [typeOf_pair hl hr]
    simp only [Op.operandWant, hop, Bool.false_eq_true, if_false]
    split
    · exact hright
    · exact hleft

theorem Elaborates.ownGoal (hknown : KnowsTypes known vars) {g : Goal}
    (h : Elaborates (signatures functions) vars g) : OwnGoal functions known g := by
  induction h with
  | ident hname =>
    intro _
    exact hknown _ _ hname
  | @int want pos value negative t ht =>
    intro _
    have hnumeric : t.isNumeric = true := ht ▸ intType_isNumeric value negative want
    rw [typeOf, Option.none_or, Option.filter_some_pos hnumeric, Option.some_or]
  | @float want pos bits t ht | @double want pos bits t ht =>
    intro _
    rw [typeOf]
    rcases floatType_cases _ want with h | h | h <;> rw [h] at ht <;> subst ht <;> rfl
  | char => exact fun _ => rfl
  | string => exact fun _ => rfl
  | neg hx ih =>
    intro hlead
    simp only [Expr.comparisonsLead, Bool.and_eq_true] at hlead
    exact ih hlead.2
  | follow hfollows hright hleft ihr ihl =>
    intro hlead
    have hparts := hlead
    simp only [Expr.comparisonsLead, Bool.and_eq_true] at hparts
    exact (Elaborates.follow hfollows hright hleft).own_pair hknown hleft.types.1 hright.types.1 hlead
      (ihl hparts.1.2) (ihr hparts.2)
  | lead hfollows hleft hright ihl ihr =>
    intro hlead
    have hparts := hlead
    simp only [Expr.comparisonsLead, Bool.and_eq_true] at hparts
    exact (Elaborates.lead hfollows hleft hright).own_pair hknown hleft.types.1 hright.types.1 hlead
      (ihl hparts.1.2) (ihr hparts.2)
  | @call want pos name args args' t params hname hargs =>
    intro _
    obtain ⟨f, hf, hsig⟩ := Option.map_eq_some_iff.mp hname
    rw [typeOf, hf, Option.none_or, Option.bind_some]
    exact congrArg Prod.fst hsig
  | nil => trivial
  | cons => trivial

/-- The type that is inferred where the context expects that type. -/
theorem Elaborates.typeOf_own (hknown : KnowsTypes known vars) {want : Option Ty} {x x' : Expr} {t : Ty}
    (h : Elaborates (signatures functions) vars (.expr want x x' t))
    (hlead : x.comparisonsLead = true) : typeOf functions known (some t) x = some t :=
  h.ownGoal hknown hlead

end

end RegisterLang
