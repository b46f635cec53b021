import RegisterLang.Proofs.Calls
import RegisterLang.Proofs.Convention
import RegisterLang.Proofs.KindedBodies

/-!
# Activations of functions

A run is observed frame by frame: which function a frame belongs to, and which registers of its window
were written since it was opened. `KindsKept` ties a machine to the code of its functions: the current one
is at items that keep the kinds of its variables, and each of the others is at items that do so once
its callee has returned. A step keeps this, so it holds of every state of every run.
-/
namespace RegisterLang

def Instr.target? : Instr → Option Reg
  | set _ dst _ | mov dst _ | math _ _ dst _ _ | pop _ dst => some dst
  | _ => none

namespace Machine
open Lowering

/-- A function that was called and has not returned, with the registers of its window that were written
since. -/
structure Activation where
  layout : Layout
  written : List Reg

def Activation.enter (l : Layout) : Activation := ⟨l, (List.range l.args).map Nat.toUInt16⟩

def entered? (layouts : List Layout) (p : Program) (s : State) : Option Layout :=
  match Instr.decodeAt p.image s.pc with
  | .ok (.call index, _) => layouts[index.toNat]?
  | _ => none

/-- The activations of the open frames, the current one first, after the next instruction. -/
def observe (layouts : List Layout) (p : Program) (s : State) (acts : List Activation) :
    List Activation :=
  match Instr.decodeAt p.image s.pc, acts with
  | .ok (.call _, _), acts => ((entered? layouts p s).map .enter).toList ++ acts
  | .ok (.ret _, _), acts => acts.tail
  | .ok (x, _), a :: rest => ⟨a.layout, x.target?.toList ++ a.written⟩ :: rest
  | _, acts => acts

/-- The states of the runs of an image, with the activations of their frames and the functions that
were called on the way, the latest first. -/
inductive Observed (limits : Limits) (image : Image) (layouts : List Layout) (p : Program) :
    State → List Activation → List Layout → Prop
  | start {s : State} {l : Layout} : start limits image = .ok (p, s) → layouts.head? = some l →
      Observed limits image layouts p s [.enter l] [l]
  | step {s s' : State} {acts : List Activation} {called : List Layout} :
      Observed limits image layouts p s acts called → step p limits s = .ok (.running s') →
      Observed limits image layouts p s' (observe layouts p s acts)
        ((entered? layouts p s).toList ++ called)

/-- A function that runs: it is at items that keep the kinds of its variables, and those that were
written have their kinds. The first register may hold what is returned next. -/
structure Executing (c : Accepted) (s : State) (a : Activation) (g : Kinds) (items : List Item) : Prop
    extends Entered a.layout s where
  mem : a.layout ∈ c.layouts
  laid : Laid c.program s.pc items
  kinded : Kinded ⟨c.layouts, a.layout⟩ g items
  kinds : ∀ r t, g r = some t → (s.reg (s.base + r)).kind = t
  vars : ∀ name v, a.layout.var? name = some v → v.reg ∈ a.written →
    (v.reg = 0 → ∀ rest, items ≠ .instr (.ret 0) :: rest) →
    (s.reg (s.base + v.reg.toNat)).kind = v.type

/-- A function in the frame `f` that waits for a callee with the layout `l`: it goes on at items that
keep the kinds of its variables once the value of the callee is there. -/
structure Waits (c : Accepted) (s : State) (callee : Frame) (l : Layout) (f : Frame)
    (a : Activation) : Prop where
  start : 0 ≤ f.start
  stop : f.stop = f.start + a.layout.regs
  stop_le : f.stop ≤ s.regs.size
  callee_start : callee.start = f.stop - l.args
  args : a.layout.locals + l.args ≤ a.layout.regs
  mem : a.layout ∈ c.layouts
  next : ∃ (g : Kinds) (items : List Item), Laid c.program callee.ret.toNat items ∧
    Kinded ⟨c.layouts, a.layout⟩
      (g.afterCall (a.layout.regs - l.args) (regType? l.function.ret)) items ∧
    ∀ r t, r < a.layout.regs - l.args → g r = some t → (s.reg (f.start.toNat + r)).kind = t
  vars : ∀ name v, a.layout.var? name = some v → v.reg ∈ a.written →
    (s.reg (f.start.toNat + v.reg.toNat)).kind = v.type

inductive Stacked (c : Accepted) (s : State) : Frame → Layout → List Frame → List Activation → Prop
  | nil {f : Frame} {l : Layout} : Stacked c s f l [] []
  | cons {callee f : Frame} {l : Layout} {a : Activation} {fs : List Frame} {as : List Activation} :
      Waits c s callee l f a → Stacked c s f a.layout fs as →
      Stacked c s callee l (f :: fs) (a :: as)

def KindsKept (c : Accepted) (s : State) : List Activation → Prop
  | [] => False
  | a :: as => (∃ g items, Executing c s a g items) ∧ Stacked c s s.frame a.layout s.callers as

structure Orderly (c : Accepted) : Prop where
  kinded : ∀ l ∈ c.layouts, l.function.isCareful = true → ∀ items, LowersBody ⟨c.layouts, l⟩ items →
    Kinded ⟨c.layouts, l⟩ l.paramKinds items
  missing : ∀ l ∈ c.layouts, ∀ p ∈ l.function.params, p.init.isMissing = true
  index : ∀ l ∈ c.layouts, c.layouts[l.index.toUInt32.toNat]? = some l

section
variable {c : Accepted} {limits : Limits} {s s' : State} {a : Activation} {g : Kinds}

theorem Waits.congr {callee f : Frame} {l : Layout} (h : Waits c s callee l f a)
    (hsize : s'.regs.size = s.regs.size)
    (hreg : ∀ i : Nat, i < callee.start → s'.reg i = s.reg i) : Waits c s' callee l f a := by
  obtain ⟨g, items, hlaid, hkinded, hkinds⟩ := h.next
  have hstart := h.start
  have hstop := h.stop
  have hcallee := h.callee_start
  have hargs := h.args
  refine { h with stop_le := hsize ▸ h.stop_le, next := ⟨g, items, hlaid, hkinded, ?_⟩, vars := ?_ }
  · intro r t hr ht
    rw [hreg _ (by omega)]
    exact hkinds r t hr ht
  · intro name v hv hwritten
    have hlt := (c.sound _ h.mem).reg_lt hv
    rw [hreg _ (by omega)]
    exact h.vars name v hv hwritten

/-- What waits is not touched by what is written in the windows above it. -/
theorem Stacked.congr {f : Frame} {l : Layout} {fs : List Frame} {as : List Activation}
    (h : Stacked c s f l fs as) (hsize : s'.regs.size = s.regs.size)
    (hreg : ∀ i : Nat, i < f.start → s'.reg i = s.reg i) : Stacked c s' f l fs as := by
  induction h with
  | nil => exact .nil
  | cons hwaits _ ih =>
    have hstop := hwaits.stop
    have hcallee := hwaits.callee_start
    have hargs := hwaits.args
    exact .cons (hwaits.congr hsize hreg) (ih fun i hi => hreg i (by omega))

/-- A function that runs is at an instruction. -/
theorem Executing.exists_instr {items : List Item} (h : Executing c s a g items) :
    ∃ x rest, Executing c s a g (.instr x :: rest) := by
  induction items with
  | nil => cases h.kinded
  | cons item rest ih =>
    cases item with
    | instr x => exact ⟨x, rest, h⟩
    | label l =>
      have hkinded := h.kinded
      cases hkinded with
      | label hkinded =>
        exact ih { h with
          laid := h.laid.2
          kinded := hkinded
          vars := fun name v hv hwritten _ => h.vars name v hv hwritten nofun }

/-- A function that goes on at other items without a write. -/
theorem Executing.goTo {items rest : List Item} (h : Executing c s a g items) (hframe : s'.frame = s.frame)
    (hregs : s'.regs = s.regs) (hlaid : Laid c.program s'.pc rest)
    (hkinded : Kinded ⟨c.layouts, a.layout⟩ g rest)
    (hitems : ∀ rest, items ≠ .instr (.ret 0) :: rest) : Executing c s' a g rest := by
  have hbase : s'.base = s.base := by
    rw [State.base, hframe, State.base]
  have hreg : ∀ i, s'.reg i = s.reg i := by
    intro i
    rw [State.reg, hregs, State.reg]
  refine ⟨⟨hframe ▸ h.start, ?_, ?_⟩, h.mem, hlaid, hkinded, fun r t ht => ?_,
    fun name v hv hwritten _ => ?_⟩
  · rw [hframe]
    exact h.stop
  · rw [hframe, hregs]
    exact h.stop_le
  · rw [hbase, hreg]
    exact h.kinds r t ht
  · rw [hbase, hreg]
    exact h.vars name v hv hwritten fun _ => hitems

/-- What an instruction does that is carried out. -/
theorem perform_of_step {p : Program} {x : Instr} {next : Nat} {r : Next}
    (h : Instr.decodeAt p.image s.pc = .ok (x, next)) (hstep : step p limits s = .ok r) :
    ∃ e, perform p limits s next x = .ok e ∧ s.apply next e = r := by
  rw [step_eq_perform h] at hstep
  cases he : perform p limits s next x with
  | error e =>
    rw [he] at hstep
    cases hstep
  | ok e =>
    rw [he] at hstep
    cases hstep
    exact ⟨e, rfl, rfl⟩

theorem State.eq_of_place {r : Reg} {i : Nat} (h : s.place r = .ok i) :
    i = s.base + r.toNat ∧ s.base + r.toNat < s.regs.size := by
  unfold State.place at h
  dsimp only at h
  by_cases hi : s.frame.start.toNat + r.toNat < s.regs.size
  · rw [if_pos hi] at h
    cases h
    exact ⟨rfl, hi⟩
  · rw [if_neg hi] at h
    cases h

/-- An instruction writes its register and gives it the kind that is known. -/
theorem write_of_step {p : Program} {x : Instr} {dst : Reg} {kind : Option RegType} {next : Nat}
    (hx : written? g x = some (dst, kind)) (h : Instr.decodeAt p.image s.pc = .ok (x.cut, next))
    (hkinds : ∀ r t, g r = some t → (s.reg (s.base + r)).kind = t)
    (hstep : step p limits s = .ok (.running s')) :
    ∃ v, s' = s.write (s.base + dst.toNat) v next ∧ s.base + dst.toNat < s.regs.size ∧
      ∀ t, kind = some t → v.kind = t := by
  obtain ⟨e, he, hs'⟩ := perform_of_step h hstep
  cases x with
  | set t dst' imm =>
    cases hx
    obtain ⟨i, hi, he⟩ := eq_ok_of_bind he
    obtain ⟨rfl, hlt⟩ := State.eq_of_place hi
    cases he
    cases hs'
    exact ⟨_, rfl, hlt, fun t' ht' => Option.some.inj ht'⟩
  | mov dst' src =>
    cases hx
    obtain ⟨i, hi, he⟩ := eq_ok_of_bind he
    obtain ⟨j, hj, he⟩ := eq_ok_of_bind he
    obtain ⟨rfl, hlt⟩ := State.eq_of_place hi
    obtain ⟨rfl, -⟩ := State.eq_of_place hj
    cases he
    cases hs'
    exact ⟨_, rfl, hlt, fun t ht => hkinds _ t ht⟩
  | math op t dst' a b =>
    cases hx
    obtain ⟨i, hi, he⟩ := eq_ok_of_bind he
    obtain ⟨j, -, he⟩ := eq_ok_of_bind he
    obtain ⟨k, -, he⟩ := eq_ok_of_bind he
    obtain ⟨rfl, hlt⟩ := State.eq_of_place hi
    split at he
    · cases he
      cases hs'
      exact ⟨_, rfl, hlt, fun t' ht' => Option.some.inj ht'⟩
    · cases he
  | _ => cases hx

/-- A function after it has written a register. -/
theorem Executing.write {x : Instr} {dst : Reg} {kind : Option RegType} {rest : List Item} {next : Nat}
    {v : Register} (h : Executing c s a g (.instr x :: rest)) (hx : x ≠ .ret 0)
    (hadmits : a.layout.Admits dst kind rest)
    (hkinded : Kinded ⟨c.layouts, a.layout⟩ (Function.update g dst.toNat kind) rest)
    (hlaid : Laid c.program next rest) (hlt : s.base + dst.toNat < s.regs.size)
    (hkind : ∀ t, kind = some t → v.kind = t) :
    Executing c (s.write (s.base + dst.toNat) v next) ⟨a.layout, dst :: a.written⟩
      (Function.update g dst.toNat kind) rest := by
  refine ⟨⟨h.start, h.stop, ?_⟩, h.mem, hlaid, hkinded, fun r t ht => ?_, ?_⟩
  · rw [s.size_regs_write]
    exact h.stop_le
  · rw [s.write_base]
    by_cases hr : r = dst.toNat
    · subst hr
      rw [Function.update_self] at ht
      rw [s.reg_write_self _ _ _ hlt]
      exact hkind t ht
    · rw [Function.update_of_ne hr] at ht
      rw [s.reg_write_of_ne _ _ _ (by omega)]
      exact h.kinds r t ht
  · intro name w hw hwritten hret
    rw [s.write_base]
    by_cases hreg : w.reg = dst
    · rw [hreg, s.reg_write_self _ _ _ hlt]
      rcases hadmits with hadmits | ⟨rfl, after, rfl⟩
      · exact hkind _ (hadmits name w hw hreg)
      · exact absurd rfl (hret hreg after)
    · have hne : w.reg.toNat ≠ dst.toNat := fun heq => hreg (UInt16.toNat_inj.mp heq)
      rw [s.reg_write_of_ne _ _ _ (by omega)]
      refine h.vars name w hw ((List.mem_cons.mp hwritten).resolve_left hreg) fun _ after heq => hx ?_
      exact Item.instr.inj (List.cons.inj heq).1

theorem kindsKept_write {x : Instr} {dst : Reg} {kind : Option RegType} {rest : List Item}
    {as : List Activation} (h : Executing c s a g (.instr x :: rest))
    (hstacked : Stacked c s s.frame a.layout s.callers as) (hx : written? g x = some (dst, kind))
    (hadmits : a.layout.Admits dst kind rest)
    (hkinded : Kinded ⟨c.layouts, a.layout⟩ (Function.update g dst.toNat kind) rest)
    (hstep : step c.program limits s = .ok (.running s')) :
    KindsKept c s' (observe c.layouts c.program s (a :: as)) := by
  obtain ⟨hdecode, hlaid⟩ := h.laid
  obtain ⟨v, rfl, hlt, hkind⟩ := write_of_step hx hdecode h.kinds hstep
  have hret : x ≠ .ret 0 := by
    rintro rfl
    cases hx
  have hobserve : observe c.layouts c.program s (a :: as) = ⟨a.layout, dst :: a.written⟩ :: as := by
    unfold observe
    rw [hdecode]
    cases x with
    | set | mov | math =>
      cases hx
      rfl
    | _ => cases hx
  rw [hobserve]
  refine ⟨⟨_, rest, h.write hret hadmits hkinded hlaid hlt hkind⟩, hstacked.congr ?_ fun i hi => ?_⟩
  · exact s.size_regs_write _ _ _
  · have hstart := h.start
    refine s.reg_write_of_ne _ _ _ ?_
    unfold State.base
    omega

/-- A step that only goes to another place. -/
theorem kindsKept_goTo {x : Instr} {rest rest' : List Item} {as : List Activation}
    (h : Executing c s a g (.instr x :: rest)) (hstacked : Stacked c s s.frame a.layout s.callers as)
    (hx : (∃ t r r', x = .cmp t r r') ∨ ∃ op l, x = .jump op l) (hframe : s'.frame = s.frame)
    (hcallers : s'.callers = s.callers) (hregs : s'.regs = s.regs)
    (hlaid : Laid c.program s'.pc rest') (hkinded : Kinded ⟨c.layouts, a.layout⟩ g rest') :
    KindsKept c s' (observe c.layouts c.program s (a :: as)) := by
  have hret : x ≠ .ret 0 := by
    rintro rfl
    rcases hx with ⟨_, _, _, hx⟩ | ⟨_, _, hx⟩
    · cases hx
    · cases hx
  have hobserve : observe c.layouts c.program s (a :: as) = a :: as := by
    unfold observe
    rw [h.laid.1]
    rcases hx with ⟨_, _, _, rfl⟩ | ⟨_, _, rfl⟩
    · rfl
    · rfl
  rw [hobserve]
  refine ⟨⟨g, rest', h.goTo hframe hregs hlaid hkinded fun after heq => hret ?_⟩, ?_⟩
  · exact Item.instr.inj (List.cons.inj heq).1
  · rw [hframe, hcallers]
    refine hstacked.congr (by rw [hregs]) fun i _ => ?_
    rw [State.reg, hregs, State.reg]

theorem kindsKept_cmp {t : RegType} {r r' : Reg} {rest : List Item} {as : List Activation}
    (h : Executing c s a g (.instr (.cmp t r r') :: rest))
    (hstacked : Stacked c s s.frame a.layout s.callers as)
    (hkinded : Kinded ⟨c.layouts, a.layout⟩ g rest)
    (hstep : step c.program limits s = .ok (.running s')) :
    KindsKept c s' (observe c.layouts c.program s (a :: as)) := by
  obtain ⟨e, he, hs'⟩ := perform_of_step h.laid.1 hstep
  obtain ⟨i, -, he⟩ := eq_ok_of_bind he
  obtain ⟨j, -, he⟩ := eq_ok_of_bind he
  cases he
  cases hs'
  exact kindsKept_goTo h hstacked (.inl ⟨_, _, _, rfl⟩) rfl rfl rfl h.laid.2 hkinded

theorem kindsKept_jump {op : Opcode} {l : Nat} {before after : List Item} {as : List Activation}
    (h : Executing c s a g (.instr (.jump op l.toUInt32) :: (before ++ .label l :: after)))
    (hstacked : Stacked c s s.frame a.layout s.callers as)
    (hafter : Kinded ⟨c.layouts, a.layout⟩ g after)
    (hbefore : op ≠ .jmp → Kinded ⟨c.layouts, a.layout⟩ g (before ++ .label l :: after))
    (hstep : step c.program limits s = .ok (.running s')) :
    KindsKept c s' (observe c.layouts c.program s (a :: as)) := by
  obtain ⟨hdecode, hlaid⟩ := h.laid
  obtain ⟨-, ⟨t, ht, htpc⟩, hlaid'⟩ := laid_append.mp hlaid
  have hjump : step c.program limits s = _ := step_jump hdecode ht
  rw [hjump] at hstep
  cases hstep
  refine kindsKept_goTo h hstacked (.inr ⟨_, _, rfl⟩) rfl rfl rfl (?_ : Laid c.program _
    (if Operation.taken op s.flags then after else before ++ .label l :: after)) ?_
  · cases Operation.taken op s.flags with
    | true =>
      simp only [if_true, htpc]
      exact hlaid'
    | false => exact hlaid
  · cases htaken : Operation.taken op s.flags with
    | true => exact hafter
    | false =>
      refine hbefore ?_
      rintro rfl
      cases htaken

/-- A function that begins with arguments of the kinds of its parameters. -/
theorem executing_enter (hc : Orderly c) {l : Layout} {pc : Nat} {items : List Item}
    (hl : l ∈ c.layouts) (hcareful : l.function.isCareful = true)
    (hlowers : LowersBody ⟨c.layouts, l⟩ items) (hlaid : Laid c.program pc items)
    (hentered : Entered l s) (hpc : s.pc = pc)
    (hkinds : ∀ r t, l.paramKinds r = some t → (s.reg (s.base + r)).kind = t) :
    Executing c s (.enter l) l.paramKinds items := by
  refine ⟨hentered, hl, hpc ▸ hlaid, hc.kinded l hl hcareful items hlowers, hkinds, ?_⟩
  intro name v hv hwritten _
  have hsound := c.sound l hl
  -- a register of an argument is that of a parameter, which is the variable
  obtain ⟨i, hi, hreg⟩ := List.mem_map.mp hwritten
  have hp := List.getElem?_eq_getElem (List.mem_range.mp hi : i < l.function.params.length)
  obtain ⟨w, hw, hwreg, -⟩ := hsound.params i _ hp
  obtain rfl := hsound.eq_of_reg_eq hv hw (congrArg UInt16.toNat (hreg.symm.trans hwreg.symm))
  have hcovers := covers_params hsound (hc.missing l hl) _
    (List.mem_map_of_mem (List.mem_of_getElem? hp)) v hv
  exact hkinds _ _ hcovers

theorem kindsKept_call (hc : Orderly c) {callee : Layout} {rest : List Item} {as : List Activation}
    (h : Executing c s a g (.instr (.call callee.index.toUInt32) :: rest))
    (hstacked : Stacked c s s.frame a.layout s.callers as) (hcallee : callee ∈ c.layouts)
    (hargs : a.layout.locals + callee.args ≤ a.layout.regs)
    (hparams : ∀ i p t, callee.function.params[i]? = some p → regType? p.type = some t →
      g (a.layout.regs - callee.args + i) = some t)
    (hkinded : Kinded ⟨c.layouts, a.layout⟩
      (g.afterCall (a.layout.regs - callee.args) (regType? callee.function.ret)) rest)
    (hcareful : ∀ l, entered? c.layouts c.program s = some l → l.function.isCareful = true)
    (hstep : step c.program limits s = .ok (.running s')) :
    KindsKept c s' (observe c.layouts c.program s (a :: as)) := by
  obtain ⟨hdecode, hlaid⟩ := h.laid
  obtain ⟨pc, items, hprologue, hlowers, hlaid'⟩ := c.linked.body callee hcallee
  have hstart := h.start
  have hstop := h.stop
  have hcall : step c.program limits s = _ := step_call hdecode hprologue
  rw [hcall] at hstep
  split at hstep
  · cases hstep
  split at hstep
  · cases hstep
  next hwindow =>
  dsimp only at hwindow hstep
  cases hstep
  have hentered : entered? c.layouts c.program s = some callee := by
    unfold entered?
    rw [hdecode]
    exact hc.index callee hcallee
  have hobserve : observe c.layouts c.program s (a :: as) = .enter callee :: a :: as := by
    unfold observe
    rw [hdecode]
    change ((entered? c.layouts c.program s).map Activation.enter).toList ++ a :: as = _
    rw [hentered]
    rfl
  rw [hobserve]
  refine ⟨⟨_, items, executing_enter hc hcallee (hcareful callee hentered) hlowers hlaid' ⟨?_, rfl, ?_⟩ rfl
      fun r t ht => ?_⟩,
    .cons ⟨hstart, hstop, h.stop_le, rfl, hargs, h.mem, ⟨g, rest, hlaid, hkinded, ?_⟩, ?_⟩
      (hstacked.congr rfl fun _ _ => rfl)⟩
  · dsimp only
    omega
  · dsimp only
    omega
  · obtain ⟨p, hp, ht⟩ := Option.bind_eq_some_iff.mp ht
    have hkind := h.kinds _ t (hparams r p t hp ht)
    have hplace : (s.frame.stop - (callee.args : Int)).toNat + r =
        s.base + (a.layout.regs - callee.args + r) := by
      unfold State.base
      omega
    change (s.reg ((s.frame.stop - (callee.args : Int)).toNat + r)).kind = t
    rw [hplace]
    exact hkind
  · exact fun r t _ ht => h.kinds r t ht
  · exact fun name v hv hwritten => h.vars name v hv hwritten fun _ _ heq => by cases heq

theorem kindsKept_ret {rest : List Item} {as : List Activation} (h : Executing c s a g (.instr (.ret 0) :: rest))
    (hstacked : Stacked c s s.frame a.layout s.callers as)
    (hvalue : ∀ t, regType? a.layout.function.ret = some t → g 0 = some t)
    (hstep : step c.program limits s = .ok (.running s')) :
    KindsKept c s' (observe c.layouts c.program s (a :: as)) := by
  obtain ⟨hdecode, -⟩ := h.laid
  have hobserve : observe c.layouts c.program s (a :: as) = as := by
    unfold observe
    rw [hdecode]
    rfl
  rw [hobserve]
  obtain ⟨hstart, hstop, hstop_le⟩ := h.toEntered
  have hsizes := (c.sound _ h.mem).sizes
  have hlt : s.base < s.regs.size := by
    unfold State.base
    omega
  have hret : step c.program limits s = _ := step_ret hdecode hlt
  rw [hret, State.apply] at hstep
  generalize hframe : s.frame = frame at *
  generalize hcallers : s.callers = callers at *
  cases hstacked with
  | nil => cases hstep
  | @cons _ f _ a' fs as hwaits hstacked =>
    cases hstep
    have hbase : s.base = frame.start.toNat := by rw [State.base, hframe]
    obtain ⟨g', items, hlaid, hkinded, hkinds⟩ := hwaits.next
    have hfstart := hwaits.start
    have hfstop := hwaits.stop
    have hcallee := hwaits.callee_start
    have hargs := hwaits.args
    -- only the first register of the window that is closed changes
    let s' : State := { s with
      regs := s.regs.setIfInBounds frame.start.toNat (s.reg (s.base + (0 : Reg).toNat))
      frame := f
      callers := fs
      pc := frame.ret.toNat }
    have hreg : ∀ i, i ≠ frame.start.toNat → s'.reg i = s.reg i :=
      fun i hi => s.reg_write_of_ne _ _ s.pc hi
    have hself : s'.reg frame.start.toNat = s.reg (s.base + 0) :=
      s.reg_write_self _ _ s.pc (hbase ▸ hlt)
    have hsize : s'.regs.size = s.regs.size := Array.size_setIfInBounds
    refine ⟨⟨_, items, ⟨hfstart, hfstop, hsize ▸ hwaits.stop_le⟩, hwaits.mem, hlaid, hkinded,
      fun r t ht => ?_, fun name v hv hwritten _ => ?_⟩, hstacked.congr hsize fun i hi => hreg i ?_⟩
    · change (s'.reg (f.start.toNat + r)).kind = t
      unfold Kinds.afterCall at ht
      split at ht
      next hr =>
        rw [hreg _ (by omega)]
        exact hkinds r t hr ht
      next hr =>
        split at ht
        next heq =>
          have hplace : f.start.toNat + r = frame.start.toNat := by omega
          rw [hplace, hself]
          exact h.kinds 0 t (hvalue t ht)
        · cases ht
    · have hlt' := (c.sound _ hwaits.mem).reg_lt hv
      change (s'.reg (f.start.toNat + v.reg.toNat)).kind = v.type
      rw [hreg _ (by omega)]
      exact hwaits.vars name v hv hwritten
    · have hle : i < f.start := hi
      omega

/-- A step keeps the kinds of variables in all frames. -/
theorem KindsKept.step (hc : Orderly c) {acts : List Activation} (h : KindsKept c s acts)
    (hcareful : ∀ l, entered? c.layouts c.program s = some l → l.function.isCareful = true)
    (hstep : Machine.step c.program limits s = .ok (.running s')) :
    KindsKept c s' (observe c.layouts c.program s acts) := by
  cases acts with
  | nil => exact h.elim
  | cons a as =>
    obtain ⟨⟨g, items, hruns⟩, hstacked⟩ := h
    obtain ⟨x, rest, hruns⟩ := hruns.exists_instr
    have hkinded := hruns.kinded
    generalize hitems : Item.instr x :: rest = items at hruns hkinded
    cases hkinded with
    | label => cases hitems
    | write hx hadmits hkinded => exact kindsKept_write hruns hstacked hx hadmits hkinded hstep
    | cmp hkinded => exact kindsKept_cmp hruns hstacked hkinded hstep
    | jump hafter hbefore => exact kindsKept_jump hruns hstacked hafter hbefore hstep
    | call hcallee hargs hparams hkinded =>
      exact kindsKept_call hc hruns hstacked hcallee hargs hparams hkinded hcareful hstep
    | ret hvalue => exact kindsKept_ret hruns hstacked hvalue hstep

end

end Machine

end RegisterLang
