import RegisterLang.Lowering.Emit
import RegisterLang.Proofs.Quiet
import RegisterLang.Proofs.Trees

/-!
# Lowered code

`Lowers` and `LowersStmt` say which instructions stand for an expression and which items for a
statement, as relations with one rule for each form of code. An emission that reports nothing adds
items that the relations allow, so what follows is about the rules and not about the emission.
-/
namespace RegisterLang

namespace Lowering
open Number

/-- What a piece of code is for: the value of an expression in `dst`, an operand in the register `r`,
or the values of arguments in the registers from `dst` on. -/
inductive Task where
  | value (want : Option Ty) (dst free : Reg) (x : Expr)
  | operand (want : Option Ty) (free : Reg) (x : Expr) (r : Reg)
  | args (waiting : Bool) (dst free : Reg) (types : List (Option Ty)) (xs : List Expr)

def moveTo (dst src : Reg) : List Instr := if src ≠ dst then [.mov dst src] else []

def moves (target source : Reg) (n : Nat) : List Instr :=
  (List.range n).map fun i => .mov (target + i.toUInt16) (source + i.toUInt16)

inductive Lowers (s : Scope) : Task → List Instr → Prop
  | ident {want : Option Ty} {dst free : Reg} {pos : Pos} {ty : Option Ty} {name : String}
      {v : Variable} : s.current.var? name = some v →
      Lowers s (.value want dst free (.ident pos ty name)) (moveTo dst v.reg)
  | literal {want : Option Ty} {dst free : Reg} {x : Expr} {t : RegType} {bits : UInt64} :
      regType? (s.typeOf want x) = some t → literalBits? t x = some bits →
      Lowers s (.value want dst free x) [.set t dst bits]
  | negation {want : Option Ty} {dst free : Reg} {pos : Pos} {ty : Option Ty} {op : Op}
      {left right : Expr} {t : RegType} {r : Reg} {code : List Instr} :
      regType? (s.typeOf want (.op pos ty op false left right)) = some t →
      Lowers s (.operand (s.typeOf want (.op pos ty op false left right)) (free + 1) right r) code →
      Lowers s (.value want dst free (.op pos ty op false left right))
        (.set t free 0 :: code ++ [.math .sub t dst free r])
  | operation {want : Option Ty} {dst free : Reg} {pos : Pos} {ty : Option Ty} {op : Op}
      {left right : Expr} {t : RegType} {m : Opcode} {a b : Reg} {codeA codeB : List Instr} :
      regType? (s.typeOf want (.op pos ty op true left right)) = some t → mathOp? op = some m →
      Lowers s (.operand (s.typeOf want (.op pos ty op true left right)) free left a) codeA →
      Lowers s (.operand (s.typeOf want (.op pos ty op true left right)) (free + 1) right b) codeB →
      Lowers s (.value want dst free (.op pos ty op true left right))
        (codeA ++ codeB ++ [.math m t dst a b])
  | call {want : Option Ty} {dst free : Reg} {pos : Pos} {ty : Option Ty} {name : String}
      {nt : Option Ty} {args : List Expr} {callee : Layout} {code : List Instr} :
      s.callee? name = some callee → args.length = callee.args → args.any makesCall = false →
      Lowers s (.args false (s.current.base args.length) free
        (callee.function.params.map Var.type) args) code →
      Lowers s (.value want dst free (.call pos ty name nt args))
        (code ++ .call callee.index.toUInt32 :: moveTo dst (s.current.base args.length))
  | callWaiting {want : Option Ty} {dst free : Reg} {pos : Pos} {ty : Option Ty} {name : String}
      {nt : Option Ty} {args : List Expr} {callee : Layout} {code : List Instr} :
      s.callee? name = some callee → args.length = callee.args → args.any makesCall = true →
      Lowers s (.args true free free (callee.function.params.map Var.type) args) code →
      Lowers s (.value want dst free (.call pos ty name nt args))
        (code ++ moves (s.current.base args.length) free args.length ++
          .call callee.index.toUInt32 :: moveTo dst (s.current.base args.length))
  | operandIdent {want : Option Ty} {free : Reg} {pos : Pos} {ty : Option Ty} {name : String}
      {v : Variable} : s.current.var? name = some v →
      Lowers s (.operand want free (.ident pos ty name) v.reg) []
  | operandValue {want : Option Ty} {free : Reg} {x : Expr} {code : List Instr} :
      isIdent x = false → Lowers s (.value want free (free + 1) x) code →
      Lowers s (.operand want free x free) code
  | nil {waiting : Bool} {dst free : Reg} {types : List (Option Ty)} :
      Lowers s (.args waiting dst free types []) []
  | cons {waiting : Bool} {dst free : Reg} {types : List (Option Ty)} {a : Expr} {rest : List Expr}
      {code code' : List Instr} :
      Lowers s (.value (types.headD none) dst (if waiting then dst + 1 else free) a) code →
      Lowers s (.args waiting (dst + 1) free types.tail rest) code' →
      Lowers s (.args waiting dst free types (a :: rest)) (code ++ code')

/-- What holds of an emission that reports nothing: the label before it, its result, the items that it
adds, and the label after it. -/
def Emits {α : Type} (m : Emit α) (P : Nat → α → List Item → Nat → Prop) : Prop :=
  Quiet (fun o : Output => o.diagnostics.size) m fun o a o' =>
    ∃ items, o'.items.toList = o.items.toList ++ items ∧ P o.label a items o'.label

namespace Emits
variable {α β : Type} {m : Emit α} {P P' : Nat → α → List Item → Nat → Prop}

theorem mono (h : Emits m P) (hP : ∀ n a items n', P n a items n' → P' n a items n') : Emits m P' :=
  Quiet.mono h fun _ _ _ ⟨items, hi, hp⟩ => ⟨items, hi, hP _ _ _ _ hp⟩

theorem bind {f : α → Emit β} {Q : α → Nat → β → List Item → Nat → Prop} (h : Emits m P)
    (hf : ∀ a, Emits (f a) (Q a)) :
    Emits (m >>= f) fun n b items n' => ∃ a n₁ items₁ items₂, items = items₁ ++ items₂ ∧
      P n a items₁ n₁ ∧ Q a n₁ b items₂ n' := by
  refine Quiet.mono (Quiet.bind h hf) ?_
  rintro o b o' ⟨a, o₁, ⟨items₁, h₁, hp⟩, items₂, h₂, hq⟩
  exact ⟨items₁ ++ items₂, by rw [h₂, h₁, List.append_assoc], a, _, items₁, items₂, rfl, hp, hq⟩

theorem pure (a : α) : Emits (Pure.pure a) fun n b items n' => b = a ∧ items = [] ∧ n' = n :=
  Quiet.mono (Quiet.ofPure a) fun o b o' ⟨hb, ho⟩ => ⟨[], by simp [ho], hb, rfl, by rw [ho]⟩

theorem instr (x : Instr) : Emits (Emit.instr x) fun n _ items n' => items = [.instr x] ∧ n' = n :=
  Quiet.mono (Quiet.ofModify fun _ => rfl) fun o _ o' ho => ⟨[.instr x], by simp [ho], rfl, by rw [ho]⟩

theorem place (l : Nat) : Emits (Emit.place l) fun n _ items n' => items = [.label l] ∧ n' = n :=
  Quiet.mono (Quiet.ofModify fun _ => rfl) fun o _ o' ho => ⟨[.label l], by simp [ho], rfl, by rw [ho]⟩

theorem report (d : Diagnostic) : Emits (Emit.report d) fun _ _ _ _ => False :=
  Quiet.mono (Quiet.ofReport fun o => by simp) fun _ _ _ h => h.elim

theorem labels (k : Nat) : Emits (Emit.labels k) fun n a items n' => a = n ∧ items = [] ∧ n' = n + k :=
  fun _ => ⟨Nat.le_refl _, fun _ => ⟨[], (List.append_nil _).symm, rfl, rfl, rfl⟩⟩

end Emits

def Codes {α : Type} (m : Emit α) (P : α → List Instr → Prop) : Prop :=
  Emits m fun n a items n' => n' = n ∧ ∃ code, items = code.map .instr ∧ P a code

namespace Codes
variable {α β : Type} {m : Emit α} {P P' : α → List Instr → Prop}

theorem mono (h : Codes m P) (hP : ∀ a code, P a code → P' a code) : Codes m P' :=
  Emits.mono h fun _ _ _ _ ⟨hn, code, hc, hp⟩ => ⟨hn, code, hc, hP _ _ hp⟩

theorem bind {f : α → Emit β} {Q : α → β → List Instr → Prop} (h : Codes m P)
    (hf : ∀ a, Codes (f a) (Q a)) :
    Codes (m >>= f) fun b code => ∃ a code₁ code₂, code = code₁ ++ code₂ ∧ P a code₁ ∧ Q a b code₂ := by
  refine Emits.mono (Emits.bind h hf) ?_
  rintro n b items n' ⟨a, n₁, _, _, rfl, ⟨rfl, code₁, rfl, hp⟩, rfl, code₂, rfl, hq⟩
  exact ⟨rfl, code₁ ++ code₂, by simp, a, code₁, code₂, rfl, hp, hq⟩

theorem pure (a : α) : Codes (Pure.pure a) fun b code => b = a ∧ code = [] :=
  Emits.mono (Emits.pure a) fun _ _ _ _ ⟨hb, hi, hn⟩ => ⟨hn, [], hi, hb, rfl⟩

theorem instr (x : Instr) : Codes (Emit.instr x) fun _ code => code = [x] :=
  Emits.mono (Emits.instr x) fun _ _ _ _ ⟨hi, hn⟩ => ⟨hn, [x], hi, rfl⟩

theorem report (d : Diagnostic) : Codes (Emit.report d) fun _ _ => False :=
  Emits.mono (Emits.report d) fun _ _ _ _ h => h.elim

theorem moveTo {dst src : Reg} : Codes (if src ≠ dst then Emit.instr (.mov dst src) else Pure.pure ())
    fun _ code => code = Lowering.moveTo dst src := by
  by_cases h : src ≠ dst
  · simp only [if_pos h, Lowering.moveTo]
    exact instr _
  · simp only [if_neg h, Lowering.moveTo]
    exact (pure ()).mono fun _ _ h => h.2

theorem moveAll (target source : Reg) (n : Nat) :
    Codes (moveAll target source n) fun _ code => code = moves target source n := by
  have hfold : ∀ items : Array Item, (n.fold (fun i _ items =>
      items.push (.instr (.mov (target + i.toUInt16) (source + i.toUInt16)))) items).toList =
      items.toList ++ (moves target source n).map .instr := by
    intro items
    induction n with
    | zero => simp [moves]
    | succ n ih => simp [Nat.fold_succ, ih, moves, List.range_succ]
  exact fun o => ⟨Nat.le_refl _, fun _ => ⟨(moves target source n).map .instr, hfold _, rfl, _, rfl, rfl⟩⟩

end Codes

theorem Scope.lookup_codes (s : Scope) (pos : Pos) (name : String) :
    Codes (s.lookup pos name) fun v code => ∃ w, s.current.var? name = some w ∧ v = some w ∧ code = [] := by
  unfold Scope.lookup
  cases h : s.current.var? name with
  | some v => exact (Codes.pure _).mono fun a code ⟨ha, hc⟩ => ⟨v, rfl, ha, hc⟩
  | none => exact ((Codes.report _).bind fun _ => Codes.pure _).mono fun a code ⟨_, _, _, _, hf, _⟩ => hf.elim

theorem lowerLiteral_codes (s : Scope) (want : Option Ty) (dst free : Reg) (x : Expr) :
    Codes (lowerLiteral s want dst x) fun _ code => Lowers s (.value want dst free x) code := by
  unfold lowerLiteral
  cases ht : regType? (s.typeOf want x) with
  | none =>
    simp only [ht]
    exact (Codes.report _).mono fun _ _ hf => hf.elim
  | some t =>
    simp only [ht]
    cases hb : literalBits? t x with
    | none => exact (Codes.report _).mono fun _ _ hf => hf.elim
    | some bits => exact (Codes.instr _).mono fun _ _ hc => hc ▸ .literal ht hb

theorem resolve_codes (s : Scope) (pos : Pos) (name : String) (n : Nat) :
    Codes (resolve s pos name n) fun r code =>
      ∃ callee, s.callee? name = some callee ∧ n = callee.args ∧ r = some callee ∧ code = [] := by
  unfold resolve
  cases h : s.callee? name with
  | none =>
    exact ((Codes.report _).bind fun _ => Codes.pure _).mono fun a code ⟨_, _, _, _, hf, _⟩ => hf.elim
  | some callee =>
    dsimp only
    by_cases hn : n = callee.args
    · simp only [hn, ne_eq, not_true_eq_false, if_false]
      exact (Codes.pure _).mono fun a code ⟨ha, hc⟩ => ⟨callee, rfl, rfl, ha, hc⟩
    · simp only [ne_eq, hn, not_false_eq_true, if_true]
      exact ((Codes.report _).bind fun _ => Codes.pure _).mono fun a code ⟨_, _, _, _, hf, _⟩ => hf.elim

def LowersAll (s : Scope) (x : Expr) : Prop :=
  ∀ want dst free, Codes (lower s want dst free x) fun _ code => Lowers s (.value want dst free x) code

theorem operand_codes {s : Scope} {x : Expr} (hx : LowersAll s x) (want : Option Ty) (free : Reg) :
    Codes (operand s want free x) fun r code => Lowers s (.operand want free x r) code := by
  have hvalue : isIdent x = false → Codes (do lower s want free (free + 1) x; pure free)
      fun r code => Lowers s (.operand want free x r) code := by
    intro hi
    refine ((hx want free (free + 1)).bind fun _ => Codes.pure free).mono ?_
    rintro r _ ⟨_, code, _, rfl, hc, rfl, rfl⟩
    rw [List.append_nil]
    exact .operandValue hi hc
  cases x with
  | ident pos ty name =>
    refine ((s.lookup_codes pos name).bind fun v => Codes.pure ((v.map Variable.reg).getD 0)).mono ?_
    rintro r _ ⟨_, _, _, rfl, ⟨v, hv, rfl, rfl⟩, rfl, rfl⟩
    exact .operandIdent hv
  | _ => exact hvalue rfl

/-- Lowering an operator, with its operands lowered by `operand`. -/
theorem lower_op (s : Scope) (want : Option Ty) (dst free : Reg) (pos : Pos) (ty : Option Ty) (op : Op)
    (binary : Bool) (left right : Expr) :
    lower s want dst free (.op pos ty op binary left right) =
      (let ty := s.typeOf want (.op pos ty op binary left right)
      match regType? ty with
      | none => Emit.report (unfit pos ty)
      | some t =>
        if binary then
          match mathOp? op with
          | none => Emit.report ⟨"unexpected operator", pos, "arithmetic operator", op.symbol⟩
          | some m => do
            let a ← operand s ty free left
            let b ← operand s ty (free + 1) right
            Emit.instr (.math m t dst a b)
        else do
          Emit.instr (.set t free 0)
          let r ← operand s ty (free + 1) right
          Emit.instr (.math .sub t dst free r)) := by
  have h2 : free + 1 + 1 = free + 2 := by
    rw [UInt16.add_assoc]
    rfl
  rw [lower]
  simp only [operand, h2]
  cases ident? left <;> cases ident? right <;> rfl

theorem lower_op_codes {s : Scope} {left right : Expr} (hl : LowersAll s left)
    (hr : LowersAll s right) (pos : Pos) (ty : Option Ty) (op : Op) (binary : Bool) :
    LowersAll s (.op pos ty op binary left right) := by
  intro want dst free
  rw [lower_op]
  dsimp only
  cases ht : regType? (s.typeOf want (.op pos ty op binary left right)) with
  | none => exact (Codes.report _).mono fun _ _ hf => hf.elim
  | some t =>
    cases binary with
    | true =>
      simp only [if_true]
      cases hm : mathOp? op with
      | none => exact (Codes.report _).mono fun _ _ hf => hf.elim
      | some m =>
        refine ((operand_codes hl _ free).bind fun a => (operand_codes hr _ (free + 1)).bind
          fun b => Codes.instr (.math m t dst a b)).mono ?_
        rintro _ _ ⟨a, codeA, _, rfl, ha, b, codeB, _, rfl, hb, rfl⟩
        rw [← List.append_assoc]
        exact .operation ht hm ha hb
    | false =>
      simp only [if_false, Bool.false_eq_true]
      refine ((Codes.instr (.set t free 0)).bind fun _ => (operand_codes hr _ (free + 1)).bind
        fun r => Codes.instr (.math .sub t dst free r)).mono ?_
      rintro _ _ ⟨_, _, _, rfl, rfl, r, code, _, rfl, hr', rfl⟩
      exact .negation ht hr'

def LowersAllArgs (s : Scope) (xs : List Expr) : Prop :=
  ∀ waiting dst free types, Codes (lowerArgs s waiting dst free types xs)
    fun _ code => Lowers s (.args waiting dst free types xs) code

theorem lower_call_codes {s : Scope} {args : List Expr} (hargs : LowersAllArgs s args) (pos : Pos)
    (ty : Option Ty) (name : String) (nt : Option Ty) : LowersAll s (.call pos ty name nt args) := by
  intro want dst free
  rw [lower]
  refine ((resolve_codes s pos name args.length).bind fun callee =>
    (?_ : Codes _ fun _ code => ∀ l, callee = some l → s.callee? name = some l →
      args.length = l.args → Lowers s (.value want dst free (.call pos ty name nt args)) code)).mono ?_
  · cases callee with
    | none => exact (Codes.pure ()).mono fun _ _ _ _ hl => by cases hl
    | some callee =>
      dsimp only
      by_cases hany : args.any makesCall = true
      · simp only [hany, if_true]
        refine (((hargs true free free (callee.function.params.map Var.type)).bind fun _ =>
          Codes.moveAll (s.current.base args.length) free args.length).bind fun _ =>
          (Codes.instr (.call callee.index.toUInt32)).bind fun _ => Codes.moveTo).mono ?_
        rintro _ _ ⟨_, _, _, rfl, ⟨_, code, _, rfl, hc, rfl⟩, _, _, _, rfl, rfl, rfl⟩ l hl hs hn
        cases hl
        exact .callWaiting hs hn hany hc
      · simp only [hany]
        refine ((hargs false (s.current.base args.length) free
          (callee.function.params.map Var.type)).bind fun _ =>
          (Codes.instr (.call callee.index.toUInt32)).bind fun _ => Codes.moveTo).mono ?_
        rintro _ _ ⟨_, code, _, rfl, hc, _, _, _, rfl, rfl, rfl⟩ l hl hs hn
        cases hl
        exact .call hs hn (Bool.eq_false_iff.mpr hany) hc
  · rintro _ _ ⟨_, _, code, rfl, ⟨callee, hs, hn, rfl, rfl⟩, hc⟩
    exact hc callee rfl hs hn

theorem lower_codes_all (s : Scope) : (∀ x, LowersAll s x) ∧ ∀ xs, LowersAllArgs s xs := by
  apply Expr.forall_of
  case missing =>
    intro want dst free
    exact (Codes.report _).mono fun _ _ hf => hf.elim
  case ident =>
    intro pos ty name want dst free
    rw [lower]
    refine ((s.lookup_codes pos name).bind fun v => (?_ : Codes _ fun _ code =>
      ∀ w, v = some w → code = moveTo dst w.reg)).mono ?_
    · cases v with
      | none => exact (Codes.pure ()).mono fun _ _ _ _ hw => by cases hw
      | some v => exact Codes.moveTo.mono fun _ _ hc w hw => by cases hw; exact hc
    · rintro _ _ ⟨_, _, _, rfl, ⟨v, hv, rfl, rfl⟩, hc⟩
      rw [List.nil_append, hc v rfl]
      exact .ident hv
  case int => exact fun pos ty value negative want dst free => lowerLiteral_codes s want dst free _
  case float => exact fun pos ty bits want dst free => lowerLiteral_codes s want dst free _
  case double => exact fun pos ty bits want dst free => lowerLiteral_codes s want dst free _
  case char => exact fun pos ty value want dst free => lowerLiteral_codes s want dst free _
  case string => exact fun pos ty value want dst free => lowerLiteral_codes s want dst free _
  case op => exact fun pos ty op binary left right hl hr => lower_op_codes hl hr pos ty op binary
  case call => exact fun pos ty name nt args hargs => lower_call_codes hargs pos ty name nt
  case nil =>
    intro waiting dst free types
    exact (Codes.pure ()).mono fun _ _ ⟨_, hc⟩ => hc ▸ .nil
  case cons =>
    intro a rest ha hrest waiting dst free types
    refine ((ha _ dst _).bind fun _ => hrest waiting (dst + 1) free types.tail).mono ?_
    rintro _ _ ⟨_, _, _, rfl, ha, hrest⟩
    exact .cons ha hrest

inductive LowersTest (s : Scope) (first : Nat) (test : Expr) : List Instr → Prop
  | intro {op : Op} {left right : Expr} {t : RegType} {js : List Opcode} {a b : Reg}
      {codeA codeB : List Instr} : comparison test = (op, left, right) →
      regType? (s.typeOf none test) = some t → jumps? op = some js →
      Lowers s (.operand (s.typeOf none test) s.current.free left a) codeA →
      Lowers s (.operand (s.typeOf none test) (s.current.free + 1) right b) codeB →
      LowersTest s first test (codeA ++ codeB ++ .cmp t a b :: js.map (.jump · first.toUInt32) ++
        [.jump .jmp (first + 1).toUInt32])

/-- The items that statements are lowered to, between the next label before and after them, where
nothing is reported. -/
inductive LowersStmt (s : Scope) : Piece → Nat → List Item → Nat → Prop
  | declare {n : Nat} {v : Var} : v.init.isMissing = true →
      LowersStmt s (.one (.var v)) n [.instr (.set ((s.current.var? v.name).getD {}).type
        ((s.current.var? v.name).getD {}).reg 0)] n
  | init {n : Nat} {v : Var} {code : List Instr} : v.init.isMissing = false →
      Lowers s (.value ((s.current.var? v.name).getD {}).ty ((s.current.var? v.name).getD {}).reg
        s.current.free v.init) code →
      LowersStmt s (.one (.var v)) n (code.map .instr) n
  | assign {n : Nat} {pos : Pos} {name : String} {nt : Option Ty} {x : Expr} {v : Variable}
      {code : List Instr} : s.current.var? name = some v →
      Lowers s (.value v.ty v.reg s.current.free x) code →
      LowersStmt s (.one (.assign pos name nt x)) n (code.map .instr) n
  | retNothing {n : Nat} {pos : Pos} {x : Expr} : x.isMissing = true →
      LowersStmt s (.one (.ret pos x)) n [.instr (.set .s32 0 0), .instr (.ret 0)] n
  | ret {n : Nat} {pos : Pos} {x : Expr} {code : List Instr} : x.isMissing = false →
      Lowers s (.value s.current.function.ret 0 s.current.free x) code →
      LowersStmt s (.one (.ret pos x)) n (code.map .instr ++ [.instr (.ret 0)]) n
  | call {n : Nat} {at' pos : Pos} {ty : Option Ty} {name : String} {nt : Option Ty}
      {args : List Expr} {code : List Instr} :
      Lowers s (.value none (s.current.base args.length) s.current.free
        (.call pos none name none args)) code →
      LowersStmt s (.one (.expr at' (.call pos ty name nt args))) n (code.map .instr) n
  | cond {n n₁ n₂ : Nat} {pos : Pos} {test : Expr} {body : Block} {more : Option Block}
      {code : List Instr} {items items' : List Item} : LowersTest s n test code →
      LowersStmt s (.all body) (n + branchLabels) items n₁ →
      LowersStmt s (.all (elseStmts more)) n₁ items' n₂ →
      LowersStmt s (.one (.cond pos test body more)) n
        (code.map .instr ++ .label n :: items ++ .instr (.jump .jmp (n + 2).toUInt32) ::
          .label (n + 1) :: items' ++ [.label (n + 2)]) n₂
  | nil {n : Nat} : LowersStmt s (.all []) n [] n
  | cons {n n₁ n₂ : Nat} {x : Stmt} {rest : Block} {items items' : List Item} :
      LowersStmt s (.one x) n items n₁ → LowersStmt s (.all rest) n₁ items' n₂ →
      LowersStmt s (.all (x :: rest)) n (items ++ items') n₂

theorem Codes.forM (f : Opcode → Instr) (js : List Opcode) :
    Codes (js.forM fun j => Emit.instr (f j)) fun _ code => code = js.map f := by
  induction js with
  | nil => exact (Codes.pure ()).mono fun _ _ h => h.2
  | cons j js ih =>
    refine ((Codes.instr (f j)).bind fun _ => ih).mono ?_
    rintro _ _ ⟨_, _, _, rfl, rfl, rfl⟩
    rfl

theorem lowerTest_codes (s : Scope) (first : Nat) (test : Expr) :
    Codes (lowerTest s first test) fun ok code => ok = true ∧ LowersTest s first test code := by
  unfold lowerTest
  rcases hc : comparison test with ⟨op, left, right⟩
  cases ht : regType? (s.typeOf none test) with
  | none =>
    simp only [ht]
    exact ((Codes.report _).bind fun _ => Codes.pure _).mono fun _ _ ⟨_, _, _, _, hf, _⟩ => hf.elim
  | some t =>
    simp only [ht]
    refine ((operand_codes ((lower_codes_all s).1 left) _ _).bind fun a =>
      (operand_codes ((lower_codes_all s).1 right) _ _).bind fun b =>
      (Codes.instr (.cmp t a b)).bind fun _ => (?_ : Codes _ fun ok code => ok = true ∧
        ∃ js, jumps? op = some js ∧ code = js.map (.jump · first.toUInt32) ++
          [.jump .jmp (first + 1).toUInt32])).mono ?_
    · cases hj : jumps? op with
      | none => exact ((Codes.report _).bind fun _ => (Codes.instr _).bind fun _ =>
          Codes.pure _).mono fun _ _ ⟨_, _, _, _, hf, _⟩ => hf.elim
      | some js =>
        refine ((Codes.forM _ js).bind fun _ => (Codes.instr _).bind fun _ => Codes.pure _).mono ?_
        rintro _ _ ⟨_, _, _, rfl, rfl, _, _, _, rfl, rfl, rfl, rfl⟩
        exact ⟨rfl, js, rfl, rfl⟩
    · rintro _ _ ⟨a, codeA, _, rfl, ha, b, codeB, _, rfl, hb, _, _, _, rfl, rfl, rfl, js, hj, rfl⟩
      have h : LowersTest s first test _ := .intro hc ht hj ha hb
      exact ⟨rfl, by simpa using h⟩

/-- An emission of instructions only, as one of items. -/
theorem Codes.emits {α : Type} {m : Emit α} {P : α → List Instr → Prop} (h : Codes m P)
    {Q : Nat → α → List Item → Nat → Prop}
    (hQ : ∀ n a code, P a code → Q n a (code.map .instr) n) : Emits m Q :=
  Emits.mono h fun n a _ _ ⟨hn, code, hi, hp⟩ => by rw [hn, hi]; exact hQ n a code hp

/-- A branch without an `else` is lowered like one with an empty one. -/
theorem lowerStmt_cond (s : Scope) (pos : Pos) (test : Expr) (body : Block) (more : Option Block) :
    lowerStmt s (.cond pos test body more) = (do
      let first ← Emit.labels branchLabels
      if ← lowerTest s first test then
        Emit.place first
        lowerBlock s body
        Emit.instr (.jump .jmp (first + 2).toUInt32)
        Emit.place (first + 1)
        lowerBlock s (elseStmts more)
        Emit.place (first + 2)
      else
        Emit.place first
        Emit.place (first + 1)
        Emit.place (first + 2)) := by
  cases more <;> rfl

theorem lowerStmt_emits_all (s : Scope) :
    (∀ x, Emits (lowerStmt s x) fun n _ items n' => LowersStmt s (.one x) n items n') ∧
    ∀ xs, Emits (lowerBlock s xs) fun n _ items n' => LowersStmt s (.all xs) n items n' := by
  have hlower := (lower_codes_all s).1
  apply Stmt.forall_of
  case var =>
    intro v
    rw [lowerStmt]
    split
    next hm => exact (Codes.instr _).emits fun n _ code hc => hc ▸ .declare hm
    next hm => exact (hlower _ _ _ _).emits fun n _ code hc => .init (Bool.eq_false_iff.mpr hm) hc
  case assign =>
    intro pos name nt x
    rw [lowerStmt]
    refine ((s.lookup_codes pos name).bind fun v => (?_ : Codes _ fun _ code =>
      ∀ w, v = some w → Lowers s (.value w.ty w.reg s.current.free x) code)).emits ?_
    · cases v with
      | none => exact (Codes.pure ()).mono fun _ _ _ _ hw => by cases hw
      | some v => exact (hlower _ _ _ _).mono fun _ _ hc w hw => by cases hw; exact hc
    · rintro n _ _ ⟨_, _, _, rfl, ⟨v, hv, rfl, rfl⟩, hc⟩
      exact .assign hv (hc v rfl)
  case ret =>
    intro pos x
    rw [lowerStmt]
    split
    next hm =>
      refine ((Codes.instr _).bind fun _ => Codes.instr _).emits ?_
      rintro n _ _ ⟨_, _, _, rfl, rfl, rfl⟩
      exact .retNothing hm
    next hm =>
      refine ((hlower _ _ _ _).bind fun _ => Codes.instr _).emits ?_
      rintro n _ _ ⟨_, code, _, rfl, hc, rfl⟩
      rw [List.map_append]
      exact .ret (Bool.eq_false_iff.mpr hm) hc
  case expr =>
    intro pos x
    cases x with
    | call pos ty name nt args =>
      exact (hlower (.call pos none name none args) _ _ _).emits fun n _ code hc => .call hc
    | _ => exact (Emits.report _).mono fun _ _ _ _ hf => hf.elim
  case cond =>
    intro pos test body more hbody hmore
    rw [lowerStmt_cond]
    refine ((Emits.labels branchLabels).bind fun first => Emits.bind (lowerTest_codes s first test)
      fun ok => (?_ : Emits _ fun n _ items n' => ok = true → ∃ n₁ items₁ items₂,
        LowersStmt s (.all body) n items₁ n₁ ∧ LowersStmt s (.all (elseStmts more)) n₁ items₂ n' ∧
        items = .label first :: items₁ ++ .instr (.jump .jmp (first + 2).toUInt32) ::
          .label (first + 1) :: items₂ ++ [.label (first + 2)])).mono ?_
    · cases ok with
      | false =>
        exact ((Emits.place _).bind fun _ => (Emits.place _).bind fun _ => Emits.place _).mono
          fun _ _ _ _ _ hok => by cases hok
      | true =>
        refine ((Emits.place _).bind fun _ => hbody.bind fun _ => (Emits.instr _).bind fun _ =>
          (Emits.place _).bind fun _ => hmore.bind fun _ => Emits.place _).mono ?_
        rintro n _ _ _ ⟨_, _, _, _, rfl, ⟨rfl, rfl⟩, _, n₁, items₁, _, rfl, h₁, _, _, _, _, rfl,
          ⟨rfl, rfl⟩, _, _, _, _, rfl, ⟨rfl, rfl⟩, _, n₂, items₂, _, rfl, h₂, rfl, rfl⟩ _
        exact ⟨_, items₁, items₂, h₁, h₂, by simp⟩
    · rintro n _ _ n' ⟨_, _, _, _, rfl, ⟨rfl, rfl, rfl⟩, _, _, _, _, rfl,
        ⟨rfl, code, rfl, hok, htest⟩, hitems⟩
      obtain ⟨n₁, items₁, items₂, h₁, h₂, rfl⟩ := hitems hok
      have h : LowersStmt s (.one (.cond pos test body more)) _ _ _ := .cond htest h₁ h₂
      simpa using h
  case other =>
    exact fun kind pos => (Emits.report _).mono fun _ _ _ _ hf => hf.elim
  case nil =>
    refine (Emits.pure ()).mono ?_
    rintro n _ _ _ ⟨_, rfl, rfl⟩
    exact .nil
  case cons =>
    intro x rest hx hrest
    refine (hx.bind fun _ => hrest).mono ?_
    rintro n _ _ n' ⟨_, n₁, items, items', rfl, h, h'⟩
    exact .cons h h'

/-- The items of a function, where nothing is reported. -/
theorem lowerFunction_emits (s : Scope) :
    Emits (lowerFunction s) fun n _ items n' => ∃ body,
      LowersStmt s (.all s.current.function.body) n body n' ∧
      items = .instr (.func s.current.regs.toUInt16 s.current.args.toUInt16) :: body ++
        if s.current.function.body.getLast?.any isReturn then [] else [Item.instr (.ret 0)] := by
  unfold lowerFunction
  refine ((Emits.instr _).bind fun _ => ((lowerStmt_emits_all s).2 _).bind fun _ =>
    (?_ : Emits _ fun n _ items n' => n' = n ∧ items =
      if s.current.function.body.getLast?.any isReturn then [] else [Item.instr (.ret 0)])).mono ?_
  · cases s.current.function.body.getLast?.any isReturn with
    | true => exact (Emits.pure ()).mono fun _ _ _ _ ⟨_, hi, hn⟩ => ⟨hn, hi⟩
    | false => exact (Emits.instr _).mono fun _ _ _ _ ⟨hi, hn⟩ => ⟨hn, hi⟩
  · rintro n _ _ n' ⟨_, _, _, _, rfl, ⟨rfl, rfl⟩, _, _, body, _, rfl, hbody, rfl, rfl⟩
    exact ⟨body, hbody, by simp⟩

end Lowering
end RegisterLang
