import RegisterLang.Proofs.Activations
import RegisterLang.Proofs.Purity

/-!
# Type soundness at run time

In every state of every run of an accepted program, and in every open frame, the register of a variable
that was declared there has the kind of the variable's type. This takes that in the functions that were
called on the way values have the types of their targets and variables are declared before they are
read: a variable whose declaration was jumped over has the kind of whatever was in its register before,
and a move hands that on. The value that a function returns is put into its first register just before
it returns, which may be the register of a variable.
-/
namespace RegisterLang

mutual

def Stmt.declarations : Stmt → List Var
  | .var v => [v]
  | .cond _ _ body none => blockDeclarations body
  | .cond _ _ body (some more) => blockDeclarations body ++ blockDeclarations more
  | _ => []
termination_by structural x => x

def blockDeclarations : List Stmt → List Var
  | [] => []
  | x :: rest => x.declarations ++ blockDeclarations rest
termination_by structural x => x

end

namespace Lowering
variable {s : Scope}

theorem planned_declarations {l : Layout} :
    (∀ x : Stmt, Planned l (.one x) → ∀ v ∈ x.declarations, Planned l (.one (.var v))) ∧
    ∀ xs, Planned l (.all xs) → ∀ v ∈ blockDeclarations xs, Planned l (.one (.var v)) := by
  apply Stmt.forall_of
  case var =>
    intro v h w hw
    obtain rfl := List.mem_singleton.mp hw
    exact h
  case cond =>
    intro pos test body more hbody hmore h v hv
    cases h with
    | cond _ hbody' hmore' =>
      cases more with
      | none => exact hbody hbody' v hv
      | some more => exact (List.mem_append.mp hv).elim (hbody hbody' v) (hmore hmore' v)
  case cons =>
    intro x rest hx hrest h v hv
    cases h with
    | cons hx' hrest' => exact (List.mem_append.mp hv).elim (hx hx' v) (hrest hrest' v)
  all_goals
    intros
    rename_i hv
    cases hv

/-- The code of a value that goes to the register of a variable ends with a write of it, unless the
value is the variable itself. -/
theorem Lowers.ends_with_write (hs : s.current.Sound) {want : Option Ty} {dst free : Reg} {x : Expr}
    {code : List Instr} (h : Lowers s (.value want dst free x) code)
    (hdst : dst.toNat < s.current.locals) (hstaging : widestCall x ≤ s.current.staging)
    (hx : ∀ pos ty name v, x = .ident pos ty name → s.current.var? name = some v → v.reg ≠ dst) :
    ∃ (before : List Instr) (y : Instr), code = before ++ [y] ∧ y.target? = some dst := by
  have hcall : ∀ (args : List Expr) (before : List Instr) (index : UInt32),
      widestArg args.length args ≤ s.current.staging →
      ∃ (before' : List Instr) (y : Instr), before ++ Instr.call index ::
        moveTo dst (s.current.base args.length) = before' ++ [y] ∧ y.target? = some dst := by
    intro args before index hwidest
    have hsizes := hs.sizes
    have hbase := hs.toNat_base args.length
    have hlen := (le_widestArg args.length args).1
    have hne : s.current.base args.length ≠ dst := by
      intro heq
      rw [heq] at hbase
      omega
    exact ⟨before ++ [Instr.call index], .mov dst (s.current.base args.length),
      by simp [moveTo, hne], rfl⟩
  cases h with
  | @ident _ _ _ pos ty name v hv =>
    exact ⟨[], .mov dst v.reg, by simp [moveTo, hx pos ty name v rfl hv], rfl⟩
  | literal => exact ⟨[], _, rfl, rfl⟩
  | negation => exact ⟨_, _, rfl, rfl⟩
  | operation => exact ⟨_, _, rfl, rfl⟩
  | call => exact hcall _ _ _ hstaging
  | callWaiting => exact hcall _ _ _ hstaging

/-- The code of a declaration ends with a write of the register of its variable. -/
theorem lowerStmt_declaration (hs : s.current.Sound) {v : Var}
    (hv : v ∈ blockDeclarations s.current.function.body)
    (hself : ∀ pos ty, v.init ≠ .ident pos ty v.name) {o o' : Output}
    (hrun : (lowerStmt s (.var v)).run o = ((), o'))
    (hquiet : o'.diagnostics.size = o.diagnostics.size) :
    ∃ (w : Variable) (before : List Item) (x : Instr), s.current.var? v.name = some w ∧
      o'.items.toList = o.items.toList ++ before ++ [.instr x] ∧ x.target? = some w.reg := by
  have hemits := ((lowerStmt_emits_all s).1 (.var v) o).2
  rw [hrun] at hemits
  obtain ⟨items, hitems, h⟩ := hemits hquiet
  generalize o.label = n, o'.label = n' at h
  suffices hwrite : ∃ (w : Variable) (before : List Item) (x : Instr),
      s.current.var? v.name = some w ∧ items = before ++ [Item.instr x] ∧ x.target? = some w.reg by
    obtain ⟨w, before, x, hw, rfl, hx⟩ := hwrite
    exact ⟨w, before, x, hw, by rw [hitems, List.append_assoc], hx⟩
  have hplanned := planned_declarations.2 _ hs.body v hv
  cases hplanned with
  | @var _ w hw _ hroom =>
    cases h with
    | declare =>
      rw [hw]
      exact ⟨w, [], _, rfl, rfl, rfl⟩
    | init _ hcode =>
      rw [hw] at hcode
      obtain ⟨before, x, rfl, hx⟩ := hcode.ends_with_write hs (hs.reg_lt hw) hroom.2 (by
        rintro pos ty name v' hinit hv' hreg
        obtain rfl := hs.eq_of_reg_eq hv' hw (congrArg UInt16.toNat hreg)
        exact hself pos ty hinit)
      exact ⟨w, before.map .instr, x, hw, by simp, hx⟩

end Lowering

namespace Machine
open Lowering Reference

/-- Every frame has its activation, and every variable that was written there has the kind of its type,
except in the first register of the current window where that is returned next. -/
def VariablesTyped (p : Program) (s : State) (acts : List Activation) : Prop :=
  acts.length = s.depth ∧ ∀ (d : Nat) (f : Frame) (a : Activation),
    (s.frame :: s.callers)[d]? = some f → acts[d]? = some a →
    ∀ (name : String) (v : Variable), a.layout.var? name = some v → v.reg ∈ a.written →
      ¬ (d = 0 ∧ v.reg = 0 ∧ ∃ next, Instr.decodeAt p.image s.pc = .ok (.ret 0, next)) →
      regType? v.ty = some (s.reg (f.start.toNat + v.reg.toNat)).kind

section
variable {c : Accepted} {s : State}

theorem Stacked.length_eq {f : Frame} {l : Layout} {fs : List Frame} {as : List Activation}
    (h : Stacked c s f l fs as) : as.length = fs.length := by
  induction h with
  | nil => rfl
  | cons _ _ ih => rw [List.length_cons, List.length_cons, ih]

/-- Each of the functions below the current one waits for another. -/
theorem Stacked.exists_waits {f : Frame} {l : Layout} {fs : List Frame} {as : List Activation}
    (h : Stacked c s f l fs as) {d : Nat} {f' : Frame} {a : Activation} (hf : fs[d]? = some f')
    (ha : as[d]? = some a) : ∃ callee l', Waits c s callee l' f' a := by
  induction h generalizing d with
  | nil => cases hf
  | cons hwaits _ ih =>
    cases d with
    | zero =>
      cases hf
      cases ha
      exact ⟨_, _, hwaits⟩
    | succ d => exact ih hf ha

theorem variablesTyped_of_kindsKept {acts : List Activation} (h : KindsKept c s acts) :
    VariablesTyped c.program s acts := by
  cases acts with
  | nil => exact h.elim
  | cons a as =>
    obtain ⟨⟨g, items, hruns⟩, hstacked⟩ := h
    refine ⟨congrArg (· + 1) hstacked.length_eq, fun d f a' hf ha name v hv hwritten hret => ?_⟩
    cases d with
    | zero =>
      cases hf
      cases ha
      have hkind := hruns.vars name v hv hwritten fun hreg rest hitems => hret ⟨rfl, hreg, ?_⟩
      · rw [State.base] at hkind
        rw [hkind]
        exact (c.sound _ hruns.mem).regType?_eq hv
      · have hlaid := hruns.laid
        rw [hitems] at hlaid
        exact ⟨_, hlaid.1⟩
    | succ d =>
      obtain ⟨callee, l, hwaits⟩ := hstacked.exists_waits hf ha
      rw [hwaits.vars name v hv hwritten]
      exact (c.sound _ hwaits.mem).regType?_eq hv

end

namespace Compiled
variable {file : File} {image : Image} {c : Compiled file image} {limits : Limits}

theorem orderly (hlayouts : Layouts file c.layouts) : Orderly c.toAccepted := by
  refine ⟨fun l hl hcareful items hlowers => ?_, fun l hl => (c.checked l hl).2.params, fun l hl => ?_⟩
  · obtain ⟨htyped, hdefinite⟩ := Bool.and_eq_true_iff.mp hcareful
    exact hlowers.kinded ⟨c.sound l hl, c.function?_eq, fun l hl => (c.checked l hl).2.ret⟩
      (c.checked l hl).2.params (c.paired l hl) (c.wellTyped hl htyped) hdefinite
  · obtain ⟨i, hi⟩ := List.getElem?_of_mem hl
    have hindex := (hlayouts.numbered i l hi).1
    rw [Nat.zero_add] at hindex
    rw [c.linked.index l hl, hindex]
    exact hi

theorem main_eq (hlayouts : Layouts file c.layouts) : c.layouts.head? = some c.main := by
  obtain ⟨i, hi⟩ := List.getElem?_of_mem c.main_mem
  have hindex := (hlayouts.numbered i c.main hi).1
  rw [c.main_index, Nat.zero_add] at hindex
  rw [List.head?_eq_getElem?, hindex]
  exact hi

/-- The kinds of variables are kept when `main` begins. -/
theorem kindsKept_start (hc : Orderly c.toAccepted) (hparams : c.main.function.params = [])
    (hcareful : c.main.function.isCareful = true) {p : Program} {s : State}
    (hstart : start limits image = .ok (p, s)) :
    p = c.program ∧ KindsKept c.toAccepted s [.enter c.main] := by
  obtain ⟨pc, items, hlowers, hlaid, heq⟩ := c.start_eq limits
  rw [heq] at hstart
  split at hstart
  · cases hstart
  next hregs =>
    cases hstart
    refine ⟨rfl, ⟨_, items, executing_enter hc c.main_mem hcareful hlowers hlaid ⟨?_, ?_, ?_⟩ rfl ?_⟩, .nil⟩
    · exact Int.le_refl 0
    · exact (Int.zero_add _).symm
    · simp only [first, Array.size_replicate]
      omega
    · intro r t ht
      rw [Layout.paramKinds, hparams] at ht
      cases ht

/-- The kinds of variables are kept in every state of every run that has called careful functions
only. -/
theorem kindsKept_of_observed (hlayouts : Layouts file c.layouts) (hparams : c.main.function.params = [])
    {p : Program} {s : State} {acts : List Activation} {called : List Layout}
    (h : Observed limits image c.layouts p s acts called)
    (hcareful : ∀ l ∈ called, l.function.isCareful = true) :
    p = c.program ∧ KindsKept c.toAccepted s acts := by
  have hc := orderly hlayouts
  induction h with
  | start hstart hhead =>
    rw [main_eq hlayouts] at hhead
    cases hhead
    exact kindsKept_start hc hparams (hcareful _ List.mem_cons_self) hstart
  | step _ hstep ih =>
    obtain ⟨rfl, hkept⟩ := ih fun l hl => hcareful l (List.mem_append_right _ hl)
    refine ⟨rfl, hkept.step hc (fun l hl => hcareful l (List.mem_append_left _ ?_)) hstep⟩
    exact Option.mem_toList.mpr hl

end Compiled

/-- Every state that is visited can be observed. -/
theorem exists_observed {limits : Limits} {image : Image} {layouts : List Layout} {p : Program}
    {s : State} {l : Layout} (hhead : layouts.head? = some l) (h : Visited limits image p s) :
    ∃ acts called, Observed limits image layouts p s acts called := by
  induction h with
  | start hstart => exact ⟨_, _, .start hstart hhead⟩
  | step _ hstep ih =>
    obtain ⟨acts, called, hobserved⟩ := ih
    exact ⟨_, _, hobserved.step hstep⟩

def State.observedAfter (layouts : List Layout) (p : Program) (limits : Limits) :
    Nat → State → List Activation → List Layout → Option (State × List Activation × List Layout)
  | 0, s, acts, called => some (s, acts, called)
  | n + 1, s, acts, called =>
    match step p limits s with
    | .ok (.running s') => s'.observedAfter layouts p limits n (observe layouts p s acts)
      ((entered? layouts p s).toList ++ called)
    | _ => none

theorem observed_of_observedAfter {limits : Limits} {image : Image} {layouts called called' : List Layout}
    {p : Program} {s s' : State} {acts acts' : List Activation} {n : Nat}
    (hs : Observed limits image layouts p s acts called)
    (h : s.observedAfter layouts p limits n acts called = some (s', acts', called')) :
    Observed limits image layouts p s' acts' called' := by
  induction n generalizing s acts called with
  | zero =>
    cases h
    exact hs
  | succ n ih =>
    rw [State.observedAfter] at h
    split at h
    next s₁ hstep => exact ih (hs.step hstep) h
    · cases h

def nested : Text.Bytes :=
  ("g::()->u8{}f::(n:s32)->u8{k:u8=3;return f(n);}" ++
    "main::()->u8{x:s64=5;y:u8=f(2);return y;}").toList.map fun c => c.toNat.toUInt8

/-- Variables with the value of one whose declaration was jumped over, and with one of another type. -/
def skipped : Text.Bytes :=
  "main::()->u8{a:=1;if a<a{x:u8=2;}y:=x;b:u8=a;return y;}".toList.map fun c => c.toNat.toUInt8

def valueless : Text.Bytes :=
  "g::()->u8{}main::()->u8{z:=g();return z;}".toList.map fun c => c.toNat.toUInt8

def observedState (text : Text.Bytes) (n : Nat)
    (P : File → State → List Activation → List Layout → Bool) : Bool :=
  let limits := Limits.ofSettings 12 3 1
  let c := compile "p" text 1
  c.result.toOption.any fun b => b.image.size < 2 ^ 32 &&
    (parseChecked "p" text).toOption.any fun file =>
      c.layouts.head?.any fun l => l.function.params.isEmpty &&
        (start limits b.image).toOption.any fun (p, s) =>
          (s.observedAfter c.layouts p limits n [.enter l] [l]).any fun (s, acts, called) =>
            P file s acts called

theorem exists_of_observedState {text : Text.Bytes} {n : Nat}
    {P : File → State → List Activation → List Layout → Bool} (h : observedState text n P = true) :
    ∃ b file main p s acts called, (compile "p" text 1).result = .ok b ∧ b.image.size < 2 ^ 32 ∧
      parseChecked "p" text = .ok file ∧ named? file.functions "main" = some main ∧
      main.params = [] ∧
      Observed (Limits.ofSettings 12 3 1) b.image (compile "p" text 1).layouts p s acts called ∧
      P file s acts called = true := by
  unfold observedState at h
  obtain ⟨b, hb, h⟩ := exists_eq_ok_of_any h
  obtain ⟨hsize, h⟩ := Bool.and_eq_true_iff.mp h
  obtain ⟨file, hfile, h⟩ := exists_eq_ok_of_any h
  obtain ⟨l, hl, h⟩ := (Option.any_eq_true _ _).mp h
  obtain ⟨hparams, h⟩ := Bool.and_eq_true_iff.mp h
  obtain ⟨⟨p, s⟩, hstart, h⟩ := exists_eq_ok_of_any h
  obtain ⟨⟨s', acts, called⟩, hacts, hP⟩ := (Option.any_eq_true _ _).mp h
  have hobserved := observed_of_observedAfter (.start hstart hl) hacts
  obtain ⟨file', hfile', c, heq, hlayouts⟩ := exists_compiled_layouts hb (of_decide_eq_true hsize)
  obtain rfl : file = file' := Except.ok.inj (hfile.symm.trans hfile')
  rw [← heq, Compiled.main_eq hlayouts] at hl
  obtain rfl := Option.some.inj hl
  exact ⟨b, file, _, p, s', acts, called, hb, of_decide_eq_true hsize, hfile, c.named?_main,
    List.isEmpty_iff.mp hparams, hobserved, hP⟩

/-- In every state of every run of an accepted program with a `main` without parameters, and in every
open frame, the register of a variable that was declared or passed there has the kind of the variable's
type, if in the functions that were called on the way values have the types of their targets and
variables are declared before they are read. A variable counts as declared when its register is written,
with which the code of its declaration ends. -/
theorem variables_typed {name : String} {text : Text.Bytes} {buffer : Int} {b : Builder} {file : File}
    {main : Function} (hb : (compile name text buffer).result = .ok b)
    (hsize : b.image.size < 2 ^ 32) (hfile : parseChecked name text = .ok file)
    (hmain : named? file.functions "main" = some main) (hparams : main.params = [])
    (limits : Limits) (p : Program) :
    (∀ s, Visited limits b.image p s →
      ∃ acts called, Observed limits b.image (compile name text buffer).layouts p s acts called) ∧
    (∀ l ∈ (compile name text buffer).layouts, ∀ v ∈ blockDeclarations l.function.body,
      (∀ pos ty, v.init ≠ .ident pos ty v.name) → ∀ o o' : Output,
      (lowerStmt ⟨(compile name text buffer).layouts, l⟩ (.var v)).run o = ((), o') →
      o'.diagnostics.size = o.diagnostics.size →
      ∃ (w : Variable) (before : List Item) (x : Instr), l.var? v.name = some w ∧
        o'.items.toList = o.items.toList ++ before ++ [.instr x] ∧ x.target? = some w.reg) ∧
    ∀ s acts called, Observed limits b.image (compile name text buffer).layouts p s acts called →
      (∀ l ∈ called, l.function.isCareful = true) → VariablesTyped p s acts := by
  obtain ⟨file', hfile', c, heq, hlayouts⟩ := exists_compiled_layouts hb hsize
  obtain rfl : file = file' := Except.ok.inj (hfile.symm.trans hfile')
  rw [← heq]
  obtain rfl : main = c.main.function := Option.some.inj (hmain.symm.trans c.named?_main)
  refine ⟨fun s hs => exists_observed (Compiled.main_eq hlayouts) hs, ?_, ?_⟩
  · intro l hl v hv hself o o' hrun hquiet
    exact lowerStmt_declaration (c.sound l hl) hv hself hrun hquiet
  · intro s acts called h hcareful
    obtain ⟨rfl, hkept⟩ := Compiled.kindsKept_of_observed hlayouts hparams h hcareful
    exact variablesTyped_of_kindsKept hkept

/-- Three frames are open, and variables were written in each of them. -/
theorem variables_typed_nested : ∃ b file main p s acts called,
    (compile "p" nested 1).result = .ok b ∧ b.image.size < 2 ^ 32 ∧
    parseChecked "p" nested = .ok file ∧ named? file.functions "main" = some main ∧
    main.params = [] ∧ (∃ f ∈ file.functions, f.isCareful = false) ∧
    Observed (Limits.ofSettings 12 3 1) b.image (compile "p" nested 1).layouts p s acts called ∧
    (∀ l ∈ called, l.function.isCareful = true) ∧ s.depth = 3 ∧
    (∀ a ∈ acts, ∃ name v, a.layout.var? name = some v ∧ v.reg ∈ a.written) ∧
    VariablesTyped p s acts := by
  have h : (observedState nested 7 fun file s acts called =>
      file.functions.any (fun f => !f.isCareful) && called.all (·.function.isCareful) &&
      s.depth = 3 && acts.all fun a => a.layout.vars.any fun (name, _) =>
        (a.layout.var? name).any fun v => v.reg ∈ a.written) = true := by
    decide +kernel
  obtain ⟨b, file, main, p, s, acts, called, hb, hsize, hfile, hmain, hparams, hobserved, h⟩ :=
    exists_of_observedState h
  simp only [Bool.and_eq_true, decide_eq_true_eq, List.all_eq_true, List.any_eq_true,
    Option.any_eq_true, Bool.not_eq_true'] at h
  obtain ⟨⟨⟨hcareless, hcareful⟩, hdepth⟩, hacts⟩ := h
  refine ⟨b, file, main, p, s, acts, called, hb, hsize, hfile, hmain, hparams, hcareless, hobserved,
    hcareful, hdepth, fun a ha => ?_, ?_⟩
  · obtain ⟨⟨name, w⟩, -, v, hv, hwritten⟩ := hacts a ha
    exact ⟨name, v, hv, hwritten⟩
  · exact (variables_typed hb hsize hfile hmain hparams _ p).2.2 s acts called hobserved hcareful

/-- In a state of a run of a text, only `main` is active, and its variables of the given names, which
were written, do not have the kinds of their types. -/
def Mistypes (text : Text.Bytes) (names : List String) : Prop :=
  ∃ b file main p s acts called a, (compile "p" text 1).result = .ok b ∧ b.image.size < 2 ^ 32 ∧
    parseChecked "p" text = .ok file ∧ named? file.functions "main" = some main ∧
    main.params = [] ∧
    Observed (Limits.ofSettings 12 3 1) b.image (compile "p" text 1).layouts p s acts called ∧
    acts = [a] ∧ ∀ name ∈ names, ∃ v, a.layout.var? name = some v ∧ v.reg ∈ a.written ∧
      regType? v.ty ≠ some (s.reg (s.frame.start.toNat + v.reg.toNat)).kind

theorem mistypes_of_observedState {text : Text.Bytes} {n : Nat} {names : List String}
    (h : (observedState text n fun _ s acts _ => acts.length = 1 && acts.all fun a =>
      names.all fun name => (a.layout.var? name).any fun v => v.reg ∈ a.written &&
        regType? v.ty ≠ some (s.reg (s.frame.start.toNat + v.reg.toNat)).kind) = true) :
    Mistypes text names := by
  obtain ⟨b, file, main, p, s, acts, called, hb, hsize, hfile, hmain, hparams, hobserved, h⟩ :=
    exists_of_observedState h
  simp only [Bool.and_eq_true, decide_eq_true_eq, List.all_eq_true, Option.any_eq_true] at h
  obtain ⟨hlength, hacts⟩ := h
  obtain ⟨a, rfl⟩ := List.length_eq_one_iff.mp hlength
  exact ⟨b, file, main, p, s, _, called, a, hb, hsize, hfile, hmain, hparams, hobserved, rfl,
    fun name hname => hacts a List.mem_cons_self name hname⟩

/-- Variables that do not have the kinds of their types: `y` has the value of a variable that was jumped
over, `b` a value of another type, in the register of `a` is what is returned next, and `z` has the value
of a function that returned none. -/
theorem variables_mistyped : Mistypes skipped ["y", "b", "a"] ∧ Mistypes valueless ["z"] := by
  constructor
  · apply @mistypes_of_observedState skipped 7
    decide +kernel
  · apply @mistypes_of_observedState valueless 3
    decide +kernel

end Machine

end RegisterLang
