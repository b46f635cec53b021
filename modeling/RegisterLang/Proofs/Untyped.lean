import Mathlib.Data.List.Forall2
import RegisterLang.Proofs.Typed

/-!
# Checking only annotates

Checking changes nothing of a tree but its annotations, whatever it reports: the functions are the
same without them (`Function.untyped`), and a declaration that has a type keeps it.

The nodes and the declarations of a function are listed in the order of the text (`Function.events`),
so that what is declared before a node is what stands before it in the list.
-/
namespace RegisterLang
open Lowering Typing

/-! ### Trees without annotations -/

mutual

def Expr.untyped : Expr → Expr
  | .missing => .missing
  | .ident pos _ name => .ident pos none name
  | .int pos _ value negative => .int pos none value negative
  | .float pos _ bits => .float pos none bits
  | .double pos _ bits => .double pos none bits
  | .char pos _ value => .char pos none value
  | .string pos _ value => .string pos none value
  | .op pos _ op binary left right => .op pos none op binary left.untyped right.untyped
  | .call pos _ name _ args => .call pos none name none (untypedArgs args)
termination_by structural x => x

def untypedArgs : List Expr → List Expr
  | [] => []
  | a :: rest => a.untyped :: untypedArgs rest
termination_by structural x => x

end

theorem untypedArgs_eq (xs : List Expr) : untypedArgs xs = xs.map Expr.untyped := by
  induction xs with
  | nil => rfl
  | cons a rest ih => rw [untypedArgs, ih, List.map_cons]

def Var.untyped (v : Var) : Var :=
  { v with nameType := none, type := none, init := v.init.untyped }

mutual

def Stmt.untyped : Stmt → Stmt
  | .var v => .var v.untyped
  | .assign pos name _ x => .assign pos name none x.untyped
  | .ret pos x => .ret pos x.untyped
  | .expr pos x => .expr pos x.untyped
  | .cond pos test body none => .cond pos test.untyped (untypedBlock body) none
  | .cond pos test body (some more) =>
    .cond pos test.untyped (untypedBlock body) (some (untypedBlock more))
  | .other kind pos => .other kind pos
termination_by structural x => x

def untypedBlock : Block → Block
  | [] => []
  | x :: rest => x.untyped :: untypedBlock rest
termination_by structural x => x

end

def Function.untyped (f : Function) : Function :=
  { f with nameType := none, body := untypedBlock f.body }

/-! ### Nodes in the order of the text -/

mutual

def Expr.nodes : Expr → List Expr
  | .missing => []
  | .op pos t op binary left right =>
    .op pos t op binary left right :: (left.nodes ++ right.nodes)
  | .call pos t name nt args => .call pos t name nt args :: argNodes args
  | x => [x]
termination_by structural x => x

def argNodes : List Expr → List Expr
  | [] => []
  | a :: rest => a.nodes ++ argNodes rest
termination_by structural x => x

end

/-- What a text has in order: a node, or the end of the declaration of a name. -/
inductive Event where
  | node (x : Expr)
  | declares (name : String) (type : Option Ty)

/-- A name that is declared, like one that is assigned to, is a node too. -/
def Var.events (v : Var) : List Event :=
  v.init.nodes.map .node ++ [.declares v.name v.type, .node (.ident v.pos v.nameType v.name)]

mutual

def Stmt.events : Stmt → List Event
  | .var v => v.events
  | .assign pos name nt x => .node (.ident pos nt name) :: x.nodes.map .node
  | .ret _ x | .expr _ x => x.nodes.map .node
  | .cond _ test body none => test.nodes.map .node ++ blockEvents body
  | .cond _ test body (some more) =>
    test.nodes.map .node ++ (blockEvents body ++ blockEvents more)
  | .other .. => []
termination_by structural x => x

def blockEvents : Block → List Event
  | [] => []
  | x :: rest => x.events ++ blockEvents rest
termination_by structural x => x

end

def Function.events (f : Function) : List Event :=
  f.params.flatMap Var.events ++ blockEvents f.body

def Event.declared? : Event → Option (String × Option Ty)
  | .node _ => none
  | .declares name t => some (name, t)

def declarations (es : List Event) : List (String × Option Ty) :=
  (es.filterMap Event.declared?).reverse

@[simp] theorem declarations_nil : declarations [] = [] := rfl

@[simp] theorem declarations_append (es es' : List Event) :
    declarations (es ++ es') = declarations es' ++ declarations es := by
  simp [declarations]

@[simp] theorem declarations_nodes (xs : List Expr) : declarations (xs.map .node) = [] := by
  simp [declarations, Event.declared?]

theorem declarations_events (v : Var) : declarations v.events = [(v.name, v.type)] := by
  rw [Var.events, declarations_append, declarations_nodes]
  rfl

@[simp] theorem declarations_assign (pos : Pos) (name : String) (nt : Option Ty) (x : Expr) :
    declarations (Stmt.assign pos name nt x).events = [] :=
  declarations_nodes (.ident pos nt name :: x.nodes)

@[simp] theorem declarations_ret (pos : Pos) (x : Expr) :
    declarations (Stmt.ret pos x).events = [] :=
  declarations_nodes x.nodes

@[simp] theorem declarations_expr (pos : Pos) (x : Expr) :
    declarations (Stmt.expr pos x).events = [] :=
  declarations_nodes x.nodes

theorem events_cond (pos : Pos) (test : Expr) (body : Block) (more : Option Block) :
    (Stmt.cond pos test body more).events =
      test.nodes.map .node ++ (blockEvents body ++ blockEvents (elseStmts more)) := by
  cases more <;> simp [Stmt.events, elseStmts, blockEvents]

@[simp] theorem declarations_cond (pos : Pos) (test : Expr) (body : Block) (more : Option Block) :
    declarations (Stmt.cond pos test body more).events =
      declarations (blockEvents (elseStmts more)) ++ declarations (blockEvents body) := by
  simp [events_cond]

theorem declarations_params (params : List Var) : declarations (params.flatMap Var.events) =
    (params.map fun p => (p.name, p.type)).reverse := by
  induction params with
  | nil => rfl
  | cons p rest ih => simp [ih, declarations_events]

/-! ### Checking only annotates -/

def KeepsType (d d' : String × Option Ty) : Prop := d'.1 = d.1 ∧ (d.2 ≠ none → d'.2 = d.2)

/-- The function without the annotations of the other. -/
structure Underlies (f f' : Function) : Prop where
  untyped : f'.untyped = f.untyped
  kept : List.Forall₂ KeepsType (declarations f.events) (declarations f'.events)

namespace Typing

def Gives {α : Type} (m : Check α) (P : α → Prop) : Prop := ∀ s, P (m.run s).1

namespace Gives
variable {α β : Type} {m : Check α} {P : α → Prop} {Q : β → Prop}

theorem bind {f : α → Check β} (h : Gives m P) (hf : ∀ a, P a → Gives (f a) Q) :
    Gives (m >>= f) Q :=
  fun s => hf (m.run s).1 (h s) (m.run s).2

theorem ofPure {a : α} (h : P a) : Gives (pure a) P := fun _ => h

theorem any : Gives m fun _ => True := fun _ => trivial

end Gives

section
variable (functions : List Function)

theorem join_gives (pos : Pos) (op : Op) (left : Expr) (lt : Option Ty) (right : Expr)
    (rt : Option Ty) : Gives (join pos op left lt right rt) fun r =>
      r.1.untyped = .op pos none op true left.untyped right.untyped := by
  unfold join
  cases lt with
  | none => exact .ofPure rfl
  | some l =>
    cases rt with
    | none => exact .ofPure rfl
    | some r =>
      dsimp only
      split
      · exact Gives.any.bind fun _ _ => .ofPure rfl
      · exact .ofPure rfl

theorem checkPair_gives {left right : Expr}
    (hl : ∀ want, Gives (checkExpr functions want left) fun r => r.1.untyped = left.untyped)
    (hr : ∀ want, Gives (checkExpr functions want right) fun r => r.1.untyped = right.untyped)
    (want : Option Ty) (pos : Pos) (t : Option Ty) (op : Op) :
    Gives (checkExpr functions want (.op pos t op true left right)) fun r =>
      r.1.untyped = (Expr.op pos t op true left right).untyped := by
  rw [checkExpr_op, Expr.untyped]
  generalize (if op.isComparison = true then none else want) = operand
  dsimp only
  split
  · refine (hr none).bind fun x hx => (hl x.2).bind fun y hy => ?_
    rw [← hx, ← hy]
    exact join_gives pos op y.1 y.2 x.1 x.2
  · refine (hl _).bind fun x hx => (hr _).bind fun y hy => ?_
    rw [← hx, ← hy]
    exact join_gives pos op x.1 x.2 y.1 y.2

theorem checkCall_gives {args : List Expr}
    (hargs : ∀ want, Gives (checkArgs functions #[] want args) fun r =>
      r.map Expr.untyped = args.map Expr.untyped)
    (want : Option Ty) (pos : Pos) (t : Option Ty) (name : String) (nt : Option Ty) :
    Gives (checkExpr functions want (.call pos t name nt args)) fun r =>
      r.1.untyped = (Expr.call pos t name nt args).untyped := by
  have hcall : ∀ t' nt' args', args'.map Expr.untyped = args.map Expr.untyped →
      (Expr.call pos t' name nt' args').untyped = (Expr.call pos t name nt args).untyped := by
    intro t' nt' args' h
    rw [Expr.untyped, Expr.untyped, untypedArgs_eq, untypedArgs_eq, h]
  rw [checkExpr]
  cases functions.find? fun f => decide (f.name = name) with
  | none => exact Gives.any.bind fun _ _ => (hargs _).bind fun args' h => .ofPure (hcall _ _ _ h)
  | some f =>
    dsimp only
    split
    · exact Gives.any.bind fun _ _ => (hargs _).bind fun args' h => .ofPure (hcall _ _ _ h)
    · exact (hargs _).bind fun args' h => .ofPure (hcall _ _ _ h)

/-- Checking expressions only annotates them. -/
theorem checkExpr_gives :
    (∀ x want, Gives (checkExpr functions want x) fun r => r.1.untyped = x.untyped) ∧
    ∀ xs done want, Gives (checkArgs functions done want xs) fun r =>
      r.map Expr.untyped = done.toList.map Expr.untyped ++ xs.map Expr.untyped := by
  apply Expr.forall_of
  case missing => exact fun want => .ofPure rfl
  case ident =>
    intro pos t name want
    rw [checkExpr]
    refine Gives.any.bind fun r _ => ?_
    cases r <;> exact .ofPure rfl
  case int => exact fun pos t v n want => .ofPure rfl
  case float => exact fun pos t b want => .ofPure rfl
  case double => exact fun pos t b want => .ofPure rfl
  case char => exact fun pos t v want => .ofPure rfl
  case string => exact fun pos t v want => .ofPure rfl
  case op =>
    intro pos t op binary left right hl hr want
    cases binary with
    | true => exact checkPair_gives functions hl hr want pos t op
    | false =>
      rw [checkExpr]
      refine (hr want).bind fun x hx => .ofPure ?_
      rw [Expr.untyped, Expr.untyped, hx]
  case call =>
    intro pos t name nt args hargs want
    exact checkCall_gives functions (fun want => by simpa using hargs #[] want) want pos t name nt
  case nil =>
    intro done want
    rw [checkArgs, List.map_nil, List.append_nil]
    exact .ofPure rfl
  case cons =>
    intro a rest ha hrest done want
    rw [checkArgs]
    refine (ha _).bind fun x hx => ?_
    have hnext : Gives (checkArgs functions (done.push x.1) want.tail rest) fun r =>
        r.map Expr.untyped = done.toList.map Expr.untyped ++ (a :: rest).map Expr.untyped := by
      intro s
      rw [hrest (done.push x.1) want.tail s]
      simp [hx]
    dsimp only
    split
    · split
      · exact Gives.any.bind fun _ _ => hnext
      · exact hnext
    · exact hnext

variable (ret : Option Ty)

/-- The declaration is annotated with its type, or else with that of its initial value. -/
theorem checkVar_gives (v : Var) : Gives (checkStmt functions ret (.var v)) fun x =>
    x.untyped = (Stmt.var v).untyped ∧
      List.Forall₂ KeepsType (declarations (Stmt.var v).events) (declarations x.events) := by
  have hdeclare : ∀ init t, init.untyped = v.init.untyped → (v.type ≠ none → t = v.type) →
      Gives (declareAs v init t) fun x => x.untyped = (Stmt.var v).untyped ∧
        List.Forall₂ KeepsType (declarations (Stmt.var v).events) (declarations x.events) := by
    intro init t hinit ht
    refine Gives.any.bind fun _ _ => .ofPure ⟨?_, ?_⟩
    · change Stmt.var (Var.untyped _) = Stmt.var v.untyped
      rw [Var.untyped, hinit]
      rfl
    · change List.Forall₂ KeepsType (declarations v.events) (declarations (Var.events _))
      rw [declarations_events, declarations_events]
      refine .cons ⟨rfl, fun hne => ?_⟩ .nil
      dsimp only at hne ⊢
      rw [ht hne]
      exact Option.or_of_isSome (Option.isSome_iff_ne_none.mpr hne)
  rw [checkStmt_var]
  split
  · exact hdeclare _ _ rfl fun _ => rfl
  · refine ((checkExpr_gives functions).1 v.init v.type).bind fun x hx => ?_
    exact hdeclare _ _ hx fun hne => Option.or_of_isSome (Option.isSome_iff_ne_none.mpr hne)

theorem checkCond_gives {body : Block} {more : Option Block}
    (hbody : Gives (checkBlock functions ret body) fun xs' => untypedBlock xs' = untypedBlock body ∧
      List.Forall₂ KeepsType (declarations (blockEvents body)) (declarations (blockEvents xs')))
    (hmore : Gives (checkBlock functions ret (elseStmts more)) fun xs' =>
      untypedBlock xs' = untypedBlock (elseStmts more) ∧
      List.Forall₂ KeepsType (declarations (blockEvents (elseStmts more))) (declarations (blockEvents xs')))
    (pos : Pos) (test : Expr) : Gives (checkStmt functions ret (.cond pos test body more)) fun x' =>
      x'.untyped = (Stmt.cond pos test body more).untyped ∧
      List.Forall₂ KeepsType (declarations (Stmt.cond pos test body more).events)
        (declarations x'.events) := by
  have htest := (checkExpr_gives functions).1 test none
  cases more with
  | none =>
    rw [checkStmt]
    refine htest.bind fun y hy => hbody.bind fun body' hb => .ofPure ?_
    rw [Stmt.untyped, Stmt.untyped, hy, hb.1, declarations_cond, declarations_cond]
    exact ⟨rfl, hb.2⟩
  | some more =>
    rw [checkStmt]
    refine htest.bind fun y hy => hbody.bind fun body' hb => hmore.bind fun more' hm =>
      .ofPure ?_
    rw [Stmt.untyped, Stmt.untyped, hy, hb.1, hm.1, declarations_cond, declarations_cond]
    exact ⟨rfl, List.rel_append hm.2 hb.2⟩

/-- Checking statements only annotates them. -/
theorem checkStmt_gives :
    (∀ x, Gives (checkStmt functions ret x) fun x' => x'.untyped = x.untyped ∧
      List.Forall₂ KeepsType (declarations x.events) (declarations x'.events)) ∧
    ∀ xs, Gives (checkBlock functions ret xs) fun xs' => untypedBlock xs' = untypedBlock xs ∧
      List.Forall₂ KeepsType (declarations (blockEvents xs)) (declarations (blockEvents xs')) := by
  have hexpr := (checkExpr_gives functions).1
  apply Stmt.forall_of
  case var => exact checkVar_gives functions ret
  case assign =>
    intro pos name nt x
    rw [checkStmt, declarations_assign]
    refine Gives.any.bind fun t _ => (hexpr x _).bind fun y hy => .ofPure ?_
    exact ⟨congrArg (Stmt.assign pos name none) hy, (declarations_assign ..).symm ▸ .nil⟩
  case ret =>
    intro pos x
    rw [checkStmt, declarations_ret]
    have hret : Gives (do
        let r ← checkExpr functions ret x
        return Stmt.ret pos r.1) fun x' => x'.untyped = (Stmt.ret pos x).untyped ∧
          List.Forall₂ KeepsType [] (declarations x'.events) := by
      refine (hexpr x ret).bind fun y hy => .ofPure ?_
      exact ⟨congrArg (Stmt.ret pos) hy, (declarations_ret ..).symm ▸ .nil⟩
    split
    · exact .ofPure ⟨rfl, (declarations_ret ..).symm ▸ .nil⟩
    · split
      · exact Gives.any.bind fun _ _ => hret
      · exact hret
  case expr =>
    intro pos x
    rw [checkStmt, declarations_expr]
    refine (hexpr x none).bind fun y hy => .ofPure ?_
    exact ⟨congrArg (Stmt.expr pos) hy, (declarations_expr ..).symm ▸ .nil⟩
  case cond =>
    intro pos test body more hbody hmore
    exact checkCond_gives functions ret hbody hmore pos test
  case other => exact fun kind pos => .ofPure ⟨rfl, .nil⟩
  case nil => exact .ofPure ⟨rfl, .nil⟩
  case cons =>
    intro x rest hx hrest
    rw [checkBlock]
    refine hx.bind fun x' h => hrest.bind fun rest' h' => .ofPure ?_
    rw [untypedBlock, untypedBlock, h.1, h'.1, blockEvents, blockEvents, declarations_append,
      declarations_append]
    exact ⟨rfl, List.rel_append h'.2 h.2⟩

end

theorem checkFunction_gives (functions : List Function) (f : Function) (nameType : Option Ty) :
    Gives (checkFunction functions { f with nameType }) (Underlies f) := by
  refine Gives.any.bind fun _ _ => ((checkStmt_gives functions f.ret).2 f.body).bind fun body h =>
    .ofPure ⟨?_, ?_⟩
  · rw [Function.untyped, Function.untyped, h.1]
  · rw [Function.events, Function.events, declarations_append, declarations_append]
    exact List.rel_append h.2 (List.forall₂_same.mpr fun d _ => ⟨rfl, fun _ => rfl⟩)

theorem mapM_gives (functions : List Function) (seen : List String) (fs : List Function) :
    Gives ((annotateNames seen fs).mapM (checkFunction functions)) (List.Forall₂ Underlies fs) := by
  induction fs generalizing seen with
  | nil => exact .ofPure .nil
  | cons f fs ih =>
    rw [annotateNames, List.mapM_cons]
    have hf : Gives (checkFunction functions
        (if seen.contains f.name then f else { f with nameType := f.ret })) (Underlies f) := by
      split
      · exact checkFunction_gives functions f f.nameType
      · exact checkFunction_gives functions f f.ret
    exact hf.bind fun f' h => (ih _).bind fun fs' hfs => .ofPure (.cons h hfs)

/-- Checking a file only annotates its functions. -/
theorem check_underlies (file : File) (ds : Array Diagnostic) :
    List.Forall₂ Underlies file.functions (check file ds).1.functions :=
  mapM_gives _ _ _ _

end Typing

end RegisterLang
