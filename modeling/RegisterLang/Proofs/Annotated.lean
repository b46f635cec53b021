import RegisterLang.Proofs.Elaboration
import RegisterLang.Proofs.Untyped

/-!
# Annotated functions

If neither parsing nor checking reports anything, the annotations are complete and they fit: every
node has a type, names have the type of their latest declaration before them, operands the type of
their operator, and calls what the first function of the name says.
-/
namespace RegisterLang
open Lowering Typing

/-- The annotation of a node fits what it is made of, where `vars` are declared. -/
def Expr.Consistent (functions : List Function) (vars : TypeEnv) (x : Expr) : Prop :=
  x.type ≠ none ∧
    match x with
    | .ident _ t name => vars.lookup name = some t
    | .op _ t _ binary left right => (binary = true → left.type = t) ∧ right.type = t
    | .call _ t name nt args => ∃ f, function? functions name = some f ∧
        args.map Expr.type = f.params.map Var.type ∧ t = f.ret ∧ nt = f.ret
    | _ => True

section
variable {functions : List Function}

def FitAll (functions : List Function) (vars : TypeEnv) (es : List Event) : Prop :=
  ∀ before x after, es = before ++ .node x :: after → x.Consistent functions (declarations before ++ vars)

theorem fitAll_nodes {vars : TypeEnv} (xs : List Expr) (h : ∀ x ∈ xs, x.Consistent functions vars) :
    FitAll functions vars (xs.map .node) := by
  intro before x after heq
  obtain ⟨ys, zs, rfl, rfl, hzs⟩ := List.map_eq_append_iff.mp heq
  obtain ⟨y, zs, rfl, hy, -⟩ := List.map_eq_cons_iff.mp hzs
  cases hy
  rw [declarations_nodes]
  exact h x (by simp)

theorem fitAll_declares {vars : TypeEnv} (name : String) (t : Option Ty) :
    FitAll functions vars [.declares name t] := by
  intro before x after heq
  cases before with
  | nil => cases heq
  | cons e before => simp at heq

theorem FitAll.append {vars : TypeEnv} {es es' : List Event} (h : FitAll functions vars es)
    (h' : FitAll functions (declarations es ++ vars) es') : FitAll functions vars (es ++ es') := by
  intro before x after heq
  rcases List.append_eq_append_iff.mp heq with ⟨mid, rfl, hes'⟩ | ⟨mid, rfl, hnode⟩
  · rw [declarations_append, List.append_assoc]
    exact h' mid x after hes'
  · cases mid with
    | nil =>
      rw [List.append_nil] at h'
      exact h' [] x after hnode.symm
    | cons e mid =>
      cases hnode
      exact h before x mid rfl

/-- A declaration gives its own name its type. -/
theorem fitAll_var {vars : TypeEnv} {v : Var} {t : Ty}
    (hinit : ∀ x ∈ v.init.nodes, x.Consistent functions vars) (ht : v.type = some t)
    (hname : v.nameType = some t) : FitAll functions vars v.events := by
  refine (fitAll_nodes _ hinit).append
    ((fitAll_declares v.name v.type).append (fitAll_nodes [.ident v.pos v.nameType v.name] ?_))
  rw [List.forall_mem_singleton, ht, hname]
  exact ⟨nofun, List.lookup_cons_self⟩

theorem fitAll_params {params : List Var} (h : ∀ p ∈ params, ∃ t : Ty,
    p = { pos := p.pos, name := p.name, nameType := some t, type := some t }) (vars : TypeEnv) :
    FitAll functions vars (params.flatMap Var.events) := by
  induction params generalizing vars with
  | nil => exact fitAll_nodes [] (by simp)
  | cons p rest ih =>
    rw [List.forall_mem_cons] at h
    obtain ⟨t, ht⟩ := h.1
    rw [List.flatMap_cons]
    refine FitAll.append (fitAll_var (t := t) ?_ ?_ ?_) (ih h.2 _)
    · rw [ht]
      exact nofun
    · rw [ht]
    · rw [ht]

def Goal.Consistent (functions : List Function) (vars : TypeEnv) : Goal → Prop
  | .expr _ _ x' t => x'.type = some t ∧ ∀ y ∈ x'.nodes, y.Consistent functions vars
  | .args want _ xs' => xs'.map Expr.type = want ∧ ∀ y ∈ argNodes xs', y.Consistent functions vars

theorem Goal.consistent_pair {vars : TypeEnv} {want wl wr : Option Ty} {x left left' right right' : Expr}
    {t : Ty} (hl : Goal.Consistent functions vars (.expr wl left left' t))
    (hr : Goal.Consistent functions vars (.expr wr right right' t)) (pos : Pos) (op : Op) :
    Goal.Consistent functions vars (.expr want x (.op pos (some t) op true left' right') t) := by
  refine ⟨rfl, ?_⟩
  rw [Expr.nodes, List.forall_mem_cons, List.forall_mem_append]
  exact ⟨⟨nofun, fun _ => hl.1, hr.1⟩, hl.2, hr.2⟩

theorem Elaborates.consistent {vars : TypeEnv} {g : Goal} (h : Elaborates (signatures functions) vars g) :
    g.Consistent functions vars := by
  induction h with
  | ident hname => exact ⟨rfl, List.forall_mem_singleton.mpr ⟨nofun, hname⟩⟩
  | int | float | double | char | string =>
    exact ⟨rfl, List.forall_mem_singleton.mpr ⟨nofun, trivial⟩⟩
  | neg _ ih =>
    refine ⟨rfl, ?_⟩
    rw [Expr.nodes, List.forall_mem_cons, List.forall_mem_append]
    exact ⟨⟨nofun, nofun, ih.1⟩, nofun, ih.2⟩
  | follow _ _ _ hr hl => exact Goal.consistent_pair hl hr _ _
  | lead _ _ _ hl hr => exact Goal.consistent_pair hl hr _ _
  | call hsig _ ih =>
    obtain ⟨f, hf, heq⟩ := Option.map_eq_some_iff.mp hsig
    obtain ⟨hret, rfl⟩ := Prod.mk.inj heq
    refine ⟨rfl, ?_⟩
    rw [Expr.nodes, List.forall_mem_cons]
    exact ⟨⟨nofun, f, hf, ih.1, hret.symm, hret.symm⟩, ih.2⟩
  | nil => exact ⟨rfl, nofun⟩
  | cons _ _ ha hrest =>
    refine ⟨?_, ?_⟩
    · rw [List.map_cons, ha.1, hrest.1]
    · rw [argNodes, List.forall_mem_append]
      exact ⟨ha.2, hrest.2⟩

def Piece.events : Piece → List Event
  | .one x => x.events
  | .all xs => blockEvents xs

/-- The variables after elaborated statements are those that were declared in them. -/
theorem ElaboratesStmt.consistent {ret : Option Ty} {vars vars' : TypeEnv} {p p' : Piece}
    (h : ElaboratesStmt (signatures functions) ret vars p p' vars') :
    FitAll functions vars p'.events ∧ declarations p'.events ++ vars = vars' := by
  induction h with
  | declared => exact ⟨fitAll_var (List.forall_mem_nil _) rfl rfl, rfl⟩
  | typed hinit =>
    refine ⟨fitAll_var hinit.consistent.2 rfl rfl, ?_⟩
    rw [Piece.events, Stmt.events, declarations_events]
    rfl
  | inferred hinit =>
    refine ⟨fitAll_var hinit.consistent.2 rfl rfl, ?_⟩
    rw [Piece.events, Stmt.events, declarations_events]
    rfl
  | @assign vars pos name t t' x x' hname hx =>
    refine ⟨fitAll_nodes (.ident pos (some t) name :: x'.nodes) ?_, ?_⟩
    · rw [List.forall_mem_cons]
      exact ⟨⟨Option.some_ne_none _, hname⟩, hx.consistent.2⟩
    · rw [Piece.events, declarations_assign, List.nil_append]
  | retNothing => exact ⟨fitAll_nodes [] (List.forall_mem_nil _), rfl⟩
  | ret hx =>
    refine ⟨fitAll_nodes _ hx.consistent.2, ?_⟩
    rw [Piece.events, declarations_ret, List.nil_append]
  | expr hx =>
    refine ⟨fitAll_nodes _ hx.consistent.2, ?_⟩
    rw [Piece.events, declarations_expr, List.nil_append]
  | cond htest _ _ hbody hmore =>
    obtain ⟨hbody, rfl⟩ := hbody
    obtain ⟨hmore, rfl⟩ := hmore
    rw [Piece.events, declarations_cond, events_cond]
    refine ⟨(fitAll_nodes _ htest.consistent.2).append ?_, by simp [Piece.events]⟩
    rw [declarations_nodes]
    exact hbody.append hmore
  | nil => exact ⟨fitAll_nodes [] (List.forall_mem_nil _), rfl⟩
  | cons _ _ hx hrest =>
    obtain ⟨hx, rfl⟩ := hx
    obtain ⟨hrest, rfl⟩ := hrest
    exact ⟨hx.append hrest, by simp [Piece.events, blockEvents]⟩

end

/-- The function with annotations that are complete and fit: each node has a type, and a type that
agrees with the declarations before the node, with its operands, or with the function that it calls. -/
structure Annotated (functions : List Function) (f f' : Function) : Prop extends Underlies f f' where
  fits : ∀ before x after, f'.events = before ++ .node x :: after →
    x.Consistent functions (declarations before)

theorem ElaboratesFunction.consistent {functions : List Function} {g : Registry} {f f' : Function}
    (h : ElaboratesFunction (signatures functions) f f') (hf : PlainFunction g f) :
    FitAll functions [] f'.events := by
  obtain ⟨nameType, body, rfl⟩ := h.same
  obtain ⟨vars, hbody⟩ := h.body
  refine FitAll.append (fitAll_params (fun p hp => ?_) []) ?_
  · obtain ⟨-, t, -, heq⟩ := hf.params p hp
    exact ⟨t, heq⟩
  · rw [declarations_params, List.append_nil]
    exact hbody.consistent.1

/-- A text that is parsed and checked without a report has annotations that are complete and fit. -/
theorem check_annotated {name : String} {text : Text.Bytes}
    (hparse : (Parser.parse name text).diagnostics = #[]) {ds : Array Diagnostic}
    (hcheck : (check (Parser.parse name text).file ds).2 = ds) :
    List.Forall₂ (Annotated (Parser.parse name text).file.functions)
      (Parser.parse name text).file.functions (check (Parser.parse name text).file ds).1.functions := by
  have hplain := Parser.parse_plain hparse
  have helaborates := check_elaborates hplain.functions (congrArg Array.size hcheck)
  have hunderlies := check_underlies (Parser.parse name text).file ds
  refine List.Forall₂.mp ?_ ((List.forall₂_and_left _ _).mpr ⟨hplain.functions, helaborates⟩) hunderlies
  intro f f' h hunder
  refine ⟨hunder, fun before x after heq => ?_⟩
  have hconsistent := h.2.consistent h.1 before x after heq
  rwa [List.append_nil] at hconsistent

def shadowing : Text.Bytes :=
  "f::(a:u8)->u8{b:=1;b:=1+a;return f(b);}".toList.map fun c => c.toNat.toUInt8

theorem check_annotated_shadowing : (Parser.parse "p" shadowing).diagnostics = #[] ∧
    (check (Parser.parse "p" shadowing).file #[]).2 = #[] ∧
    ((check (Parser.parse "p" shadowing).file #[]).1.functions.map fun f => declarations f.events) =
      [[("b", some .u8), ("b", some .s32), ("a", some .u8)]] ∧
    List.Forall₂ (Annotated (Parser.parse "p" shadowing).file.functions)
      (Parser.parse "p" shadowing).file.functions
      (check (Parser.parse "p" shadowing).file #[]).1.functions := by
  have h : ((Parser.parse "p" shadowing).diagnostics.isEmpty &&
      (check (Parser.parse "p" shadowing).file #[]).2.isEmpty &&
      decide (((check (Parser.parse "p" shadowing).file #[]).1.functions.map fun f =>
        declarations f.events) = [[("b", some .u8), ("b", some .s32), ("a", some .u8)]])) = true := by
    decide +kernel
  rw [Bool.and_eq_true, Bool.and_eq_true, Array.isEmpty_iff, Array.isEmpty_iff,
    decide_eq_true_eq] at h
  obtain ⟨⟨hparse, hcheck⟩, hdeclared⟩ := h
  exact ⟨hparse, hcheck, hdeclared, check_annotated hparse hcheck⟩

end RegisterLang
