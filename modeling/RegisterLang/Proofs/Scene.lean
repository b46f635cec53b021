import RegisterLang.Proofs.Expectation
import RegisterLang.Proofs.Linked
import RegisterLang.Proofs.Patterns
import RegisterLang.Proofs.Typed
import RegisterLang.Proofs.Windows

/-!
# The scene of a function

A function runs in the window that its call opened. `Scene` has its layout, the state in which it
began and what is known of the functions that it calls; `Inside` and `Passes` say that code stays in
the window and which registers it keeps. The variables of an environment are found in the registers
of the layout.
-/
namespace RegisterLang.Machine
open Lowering Reference

/-- A register holds a pattern of a type, and has its kind if all values were given by expressions. -/
def HoldsAs (bare : Bare) (r : Register) (ty : Option Ty) (x : Nat) : Prop :=
  ∃ k, kind? ty = some k ∧ r.bits.toNat % 2 ^ k.width = x ∧
    (bare = .nothing → regType? ty = some r.kind)

section
variable {bare : Bare} {r : Register} {ty : Option Ty} {t : RegType} {x : Nat}

theorem holdsAs_of_low (ht : regType? ty = some t) (hx : r.low t = x) (hkind : r.kind = t) :
    HoldsAs bare r ty x := by
  refine ⟨kindOf t, ?_, ?_, fun _ => hkind.symm ▸ ht⟩
  · rw [kind?_eq, ht]
    rfl
  · rw [width_kindOf]
    exact hx

theorem HoldsAs.low_eq (h : HoldsAs bare r ty x) (ht : regType? ty = some t) : r.low t = x := by
  obtain ⟨k, hk, hx, -⟩ := h
  rw [kind?_eq, ht] at hk
  cases hk
  rwa [width_kindOf] at hx

end

/-- The annotation of what was lowered with a type can only have the kind of it. -/
theorem Expected.of_kind {α : Type} {deep C : Prop} {scope : Scope} {want : Option Ty} {x : Expr}
    {t : RegType} {r : Outcome α} {f : Kind → Outcome α} (ht : regType? (scope.typeOf want x) = some t)
    (h : Expected deep r C (Outcome.part (kind? x.type) >>= f)) :
    Expected deep r (C ∧ regType? x.type = some t) (f (kindOf t)) := by
  have hkind : ∀ k, kind? x.type = some k → regType? x.type = some t ∧ k = kindOf t := by
    intro k hk
    rw [kind?_eq, Option.map_eq_some_iff] at hk
    obtain ⟨t', ht', rfl⟩ := hk
    obtain rfl := regType?_typeOf ht ht'
    exact ⟨ht', rfl⟩
  exact (h.of_part fun _ k hk => (hkind k hk).2).mono fun hC => ⟨hC.1, (hkind _ hC.2).1⟩

/-- The frame of a function is open, and it is the one of the state in which the function began. -/
structure Inside (entry s : State) : Prop where
  frame : s.frame = entry.frame
  callers : s.callers = entry.callers
  size : s.regs.size = entry.regs.size

/-- Code was run from `s` to `s'`, at the offset `pc`, and kept some of the registers. -/
structure Passes (entry s s' : State) (pc : Nat) (keep : Nat → Prop) : Prop extends
    Inside entry s' where
  pc_eq : s'.pc = pc
  kept : ∀ i, keep i → s'.reg i = s.reg i

theorem Inside.base_eq {entry s : State} (h : Inside entry s) : s.base = entry.base := by
  rw [State.base, h.frame]
  rfl

theorem Passes.mono {entry s s' : State} {pc : Nat} {keep keep' : Nat → Prop}
    (h : Passes entry s s' pc keep) (hkeep : ∀ i, keep' i → keep i) :
    Passes entry s s' pc keep' :=
  ⟨h.toInside, h.pc_eq, fun i hi => h.kept i (hkeep i hi)⟩

def span (items : List Item) : Nat := (items.flatMap Item.bytes).length

@[simp] theorem span_nil : span [] = 0 := rfl

@[simp] theorem span_append (a b : List Item) : span (a ++ b) = span a + span b := by
  simp [span]

@[simp] theorem span_instr (x : Instr) (rest : List Item) :
    span (.instr x :: rest) = x.bytes.length + span rest := by
  simp [span, Item.bytes]

@[simp] theorem span_label (l : Nat) (rest : List Item) : span (.label l :: rest) = span rest := by
  simp [span, Item.bytes]

theorem span_concat (code : List Instr) (x : Instr) :
    span ((code ++ [x]).map .instr) = span (code.map .instr) + x.bytes.length := by
  simp

theorem laid_append {p : Program} {a b : List Item} {pc : Nat} :
    Laid p pc (a ++ b) ↔ Laid p pc a ∧ Laid p (pc + span a) b := by
  induction a generalizing pc with
  | nil => simp [Laid]
  | cons item a ih =>
    cases item with
    | instr x => simp only [List.cons_append, Laid, ih, span_instr, and_assoc, Nat.add_assoc]
    | label l => simp only [List.cons_append, Laid, ih, span_label, and_assoc]

/-- What a call of a function with the given number of arguments has to do: it leaves the value in the
first of the registers of the arguments, and keeps those before. -/
def CallMeets (c : Setting) (typed : Prop) (entry : State) (first : Nat) (callee : Layout)
    (call : Caller) : Prop :=
  ∀ s next vs r, Inside entry s →
    Instr.decodeAt c.program.image s.pc = .ok (.call callee.index.toUInt32, next) →
    Expected c.deep r (typed ∧ vs.length = callee.args ∧
      ∀ i p v, callee.function.params[i]? = some p → vs[i]? = some v →
        HoldsAs c.bare (s.reg (first + i)) p.type v) (call callee.function vs) →
    Meets c r (fun s' => Passes entry s s' next (· < first) ∧ first < s'.regs.size)
      (fun v s' => ∀ x, v = some x → HoldsAs c.bare (s'.reg first) callee.function.ret x) s

def ProgramTyped (functions : List Function) (layouts : List Layout) : Prop :=
  ∀ l ∈ layouts, (∀ p ∈ l.function.params, p.init.isMissing = true) ∧
    WellTyped (signatures functions) l l.function.ret (.all l.function.body)

/-- A function that runs: its layout, the state in which it began, and what is known of the functions
that it calls. -/
structure Scene extends Setting where
  layouts : List Layout
  current : Layout
  entry : State
  functions : List Function
  call : Caller
  sound : current.Sound
  start : 0 ≤ entry.frame.start
  stop : entry.frame.stop = entry.frame.start + current.regs
  stop_le : entry.frame.stop ≤ entry.regs.size
  function?_eq : ∀ l ∈ layouts, function? functions l.function.name = some l.function
  callee_sound : ∀ l ∈ layouts, l.Sound
  calls : ∀ l ∈ layouts, l.args ≤ current.regs → CallMeets toSetting (ProgramTyped functions layouts)
    entry (entry.base + (current.regs - l.args)) l call

namespace Scene
variable (c : Scene)

def scope : Scope := ⟨c.layouts, c.current⟩

def base : Nat := c.entry.base

theorem lt_size {i : Nat} (hi : i < c.current.regs) : c.base + i < c.entry.regs.size := by
  have h₁ := c.start
  have h₂ := c.stop
  have h₃ := c.stop_le
  unfold base State.base
  omega

def HoldsEnv (env : Env) (s : State) : Prop :=
  ∀ name a, env.lookup name = some a → ∃ v, c.current.var? name = some v ∧
    HoldsAs c.bare (s.reg (c.base + v.reg.toNat)) v.ty a

def Ready (env : Env) (s : State) : Prop := ProgramTyped c.functions c.layouts ∧ c.HoldsEnv env s

variable {c} {s s' : State}

theorem Ready.pass {env : Env} {pc : Nat} {keep : Nat → Prop} (h : c.Ready env s)
    (hp : Passes c.entry s s' pc keep) (hkeep : ∀ i, i < c.current.locals → keep (c.base + i)) :
    c.Ready env s' := by
  refine ⟨h.1, fun name a ha => ?_⟩
  obtain ⟨v, hv, hr⟩ := h.2 name a ha
  rw [← hp.kept _ (hkeep _ (c.sound.reg_lt hv))] at hr
  exact ⟨v, hv, hr⟩

theorem base_eq (hs : Inside c.entry s) : s.base = c.base := hs.base_eq

theorem inside_write (hs : Inside c.entry s) (i : Nat) (v : Register) (next : Nat) :
    Passes c.entry s (s.write i v next) next (· ≠ i) :=
  ⟨⟨hs.frame, hs.callers, (s.size_regs_write i v next).trans hs.size⟩, rfl,
    fun _ hj => s.reg_write_of_ne i v next hj⟩

theorem place_lt (hs : Inside c.entry s) {r : Reg} (hr : c.base + r.toNat < c.entry.regs.size) :
    s.base + r.toNat < s.regs.size := by
  rw [base_eq hs, hs.size]
  exact hr

def Puts (c : Scene) (s : State) (pc i : Nat) (R : Register → Prop) : Prop :=
  Leads c.program c.limits (fun s' => Passes c.entry s s' pc (· ≠ i) ∧ R (s'.reg i)) (fun _ => False) s

theorem puts_mov (hs : Inside c.entry s) {dst src : Reg} {next : Nat}
    (h : Instr.decodeAt c.program.image s.pc = .ok (.mov dst src, next))
    (hdst : c.base + dst.toNat < c.entry.regs.size)
    (hsrc : c.base + src.toNat < c.entry.regs.size) :
    c.Puts s next (c.base + dst.toNat) (· = s.reg (c.base + src.toNat)) := by
  refine .step (step_mov h (place_lt hs hdst) (place_lt hs hsrc)) (.here ?_)
  rw [base_eq hs]
  exact ⟨inside_write hs _ _ _, s.reg_write_self _ _ _ (hs.size.symm ▸ hdst)⟩

theorem puts_set (hs : Inside c.entry s) {t : RegType} {dst : Reg} {imm : UInt64} {next : Nat}
    (h : Instr.decodeAt c.program.image s.pc = .ok (.set t dst imm, next))
    (hdst : c.base + dst.toNat < c.entry.regs.size) :
    c.Puts s next (c.base + dst.toNat)
      (· = (s.reg (c.base + dst.toNat)).set t imm) := by
  refine .step (step_set h (place_lt hs hdst)) (.here ?_)
  rw [base_eq hs]
  exact ⟨inside_write hs _ _ _, s.reg_write_self _ _ _ (hs.size.symm ▸ hdst)⟩

/-- An operation follows the evaluation of it if its operands hold what was evaluated. -/
theorem meets_math {r : Outcome Nat} {C : Prop} (hs : Inside c.entry s) {op : Op} {code : Opcode}
    (hop : mathOp? op = some code) {t : RegType} {dst a b : Reg} {next : Nat}
    (h : Instr.decodeAt c.program.image s.pc = .ok (.math code t dst a b, next)) (ht : t.isKnown)
    (hdst : c.base + dst.toNat < c.entry.regs.size) (ha : c.base + a.toNat < c.entry.regs.size)
    (hb : c.base + b.toNat < c.entry.regs.size) {x y : Nat}
    (hr : Expected c.deep r C (math op (kindOf t) x y))
    (hC : C → (s.reg (c.base + a.toNat)).low t = x ∧ (s.reg (c.base + b.toNat)).low t = y) :
    Meets c.toSetting r (fun s' => Passes c.entry s s' next (· ≠ c.base + dst.toNat))
      (fun v s' => C ∧ (s'.reg (c.base + dst.toNat)).kind = t ∧
        (s'.reg (c.base + dst.toNat)).low t = v) s := by
  have hmath := Operation.math_of_compute hop ht (s.reg (c.base + a.toNat))
    (s.reg (c.base + b.toNat))
  have hstep : step c.program c.limits s = _ :=
    step_math h (place_lt hs hdst) (place_lt hs ha) (place_lt hs hb)
  rw [base_eq hs] at hstep
  cases hcompute : Operation.compute code t (s.reg (c.base + a.toNat)) (s.reg (c.base + b.toNat)) with
  | none =>
    rw [hcompute] at hstep hmath
    refine .fault hstep ?_
    rcases hr with hr | ⟨hc, rfl⟩
    · exact hr.permits (.inr rfl)
    · rw [← (hC hc).1, ← (hC hc).2, hmath]
      exact .inr rfl
  | some v =>
    rw [hcompute] at hstep hmath
    dsimp only [outcomeOf] at hstep hmath
    have hv : Expected c.deep r C (.value (v.toNat % 2 ^ (8 * t.size))) := by
      rcases hr with hr | ⟨hc, rfl⟩
      · exact .inl hr
      · exact .inr ⟨hc, by rw [← (hC hc).1, ← (hC hc).2, hmath]⟩
    refine .step hstep (Meets.here hv (inside_write hs _ _ _) fun hc => ?_)
    rw [State.reg_write_self _ _ _ _ (hs.size.symm ▸ hdst)]
    exact ⟨hc, rfl, Register.low_set _ _ _⟩

end Scene
end RegisterLang.Machine
