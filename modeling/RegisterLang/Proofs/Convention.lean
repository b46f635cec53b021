import RegisterLang.Proofs.MemorySafety

/-!
# The calling convention

A call opens a window that begins with the last registers of its caller's, and all that is written
while it is open lies at or above the first register of that window. So a call that returns leaves
the frames and the registers below as they were, whatever the bytes of the image are. Only a call
that passes more arguments than its caller has registers could reach below.
-/
namespace RegisterLang.Machine

def Calls (p : Program) (s : State) (index : UInt32) (next : Nat) : Prop :=
  ∃ i, fetch p.image s.pc = .ok i ∧ i.op = .call ∧ i.next = next ∧
    (p.image.number 4 (s.pc + 2)).toUInt32 = index

def AboutToReturn (p : Program) (s : State) (v : Register) : Prop :=
  ∃ i r, fetch p.image s.pc = .ok i ∧ i.op = .ret ∧
    s.place (p.image.number 2 (s.pc + 2)).toUInt16 = .ok r ∧ s.reg r = v

/-- If the next instruction is a call, it passes no more arguments than the window of its caller has
registers. -/
def PassesOwn (p : Program) (s : State) : Prop :=
  ∀ index next f, Calls p s index next → p.prologue index = .ok f →
    f.args ≤ s.frame.stop - s.frame.start

/-- The machine comes from one state to another through states that are all deeper than `d`, and `P`
holds of those in which it takes a step. -/
inductive Deeper (p : Program) (limits : Limits) (d : Nat) (P : State → Prop) : State → State → Prop
  | refl {s : State} : d < s.depth → Deeper p limits d P s s
  | step {s t t' : State} : Deeper p limits d P s t → P t → step p limits t = .ok (.running t') →
      d < t'.depth → Deeper p limits d P s t'

def State.enter (s : State) (f : Prologue) (next : Nat) : State :=
  { s with
    frame := ⟨s.frame.stop - f.args, s.frame.stop - f.args + f.regs, next⟩
    callers := s.frame :: s.callers
    pc := f.body }

def Effect.Within (base : Nat) : Effect → Prop
  | .write reg _ | .pop _ reg _ => base ≤ reg
  | .enter .. | .leave _ => False
  | _ => True

section
variable {p : Program} {limits : Limits} {s s' t t' : State} {next : Nat}

theorem State.le_of_place {r : Reg} {i : Nat} (h : s.place r = .ok i) :
    s.base ≤ i ∧ i < s.regs.size := by
  unfold State.place at h
  dsimp only at h
  by_cases hi : s.frame.start.toNat + r.toNat < s.regs.size
  · rw [if_pos hi] at h
    cases h
    exact ⟨Nat.le_add_right _ _, hi⟩
  · rw [if_neg hi] at h
    cases h

/-- What is found before something else is done. -/
theorem eq_ok_of_bind {α β : Type} {r : Except RunFault α} {f : α → Except RunFault β} {e : β}
    (h : (r >>= f) = .ok e) : ∃ a, r = .ok a ∧ f a = .ok e := by
  cases r with
  | error e => cases h
  | ok a => exact ⟨a, rfl, h⟩

theorem callFrame_eq_ok {index : UInt32} {e : Effect}
    (h : callFrame p limits s index next = .ok e) :
    ∃ f, p.prologue index = .ok f ∧ 0 ≤ s.frame.stop - f.args ∧
      e = .enter (s.enter f next).frame f.body := by
  unfold callFrame at h
  obtain ⟨f, hf, h⟩ := eq_ok_of_bind h
  by_cases hframes : limits.frames ≤ s.depth
  · simp only [if_pos hframes] at h
    cases h
  · simp only [if_neg hframes] at h
    change (if _ then _ else _) = _ at h
    by_cases hwindow : s.frame.stop - f.args < 0 ∨ s.regs.size < s.frame.stop - f.args + f.regs
    · rw [if_pos hwindow] at h
      cases h
    · rw [if_neg hwindow] at h
      cases h
      exact ⟨f, hf, by omega, rfl⟩

/-- An instruction stays within its function, calls another one or returns. -/
theorem effect_cases {i : Fetched} {e : Effect} (hi : fetch p.image s.pc = .ok i)
    (h : effect p limits s i = .ok e) :
    e.Within s.base ∨
      (∃ index f, Calls p s index i.next ∧ p.prologue index = .ok f ∧ 0 ≤ s.frame.stop - f.args ∧
        e = .enter (s.enter f i.next).frame f.body) ∨
      ∃ v, AboutToReturn p s v ∧ e = .leave v := by
  obtain ⟨op, ty, next⟩ := i
  unfold effect at h
  cases op with
  | func =>
    cases h
    exact .inl trivial
  | call =>
    obtain ⟨f, hf, hstart, rfl⟩ := callFrame_eq_ok h
    exact .inr (.inl ⟨_, f, ⟨_, hi, rfl, rfl, rfl⟩, hf, hstart, rfl⟩)
  | ret =>
    obtain ⟨src, hsrc, h⟩ := eq_ok_of_bind h
    cases h
    exact .inr (.inr ⟨_, ⟨_, src, hi, rfl, hsrc, rfl⟩, rfl⟩)
  | set =>
    obtain ⟨dst, hdst, h⟩ := eq_ok_of_bind h
    cases h
    exact .inl (State.le_of_place hdst).1
  | mov =>
    obtain ⟨dst, hdst, h⟩ := eq_ok_of_bind h
    obtain ⟨src, -, h⟩ := eq_ok_of_bind h
    cases h
    exact .inl (State.le_of_place hdst).1
  | cmp =>
    obtain ⟨a, -, h⟩ := eq_ok_of_bind h
    obtain ⟨b, -, h⟩ := eq_ok_of_bind h
    cases h
    exact .inl trivial
  | add | sub | mul | div | mod =>
    obtain ⟨dst, hdst, h⟩ := eq_ok_of_bind h
    obtain ⟨a, -, h⟩ := eq_ok_of_bind h
    obtain ⟨b, -, h⟩ := eq_ok_of_bind h
    split at h
    · cases h
      exact .inl (State.le_of_place hdst).1
    · cases h
  | jmp | jl | jg | je | jne | jz | jnz =>
    dsimp only at h
    split at h
    · cases h
      apply Or.inl
      split <;> trivial
    · cases h
  | push =>
    obtain ⟨src, -, h⟩ := eq_ok_of_bind h
    dsimp only at h
    split at h
    · cases h
    · cases h
      exact .inl trivial
  | pop =>
    obtain ⟨dst, hdst, h⟩ := eq_ok_of_bind h
    dsimp only at h
    split at h
    · cases h
    · cases h
      exact .inl (State.le_of_place hdst).1
  | unknown c _ => cases h

structure KeepsBelow (s s' : State) : Prop where
  frame : s'.frame = s.frame
  callers : s'.callers = s.callers
  size : s'.regs.size = s.regs.size
  below : ∀ i, i < s.base → s'.reg i = s.reg i

theorem keepsBelow_of_regs (hframe : s'.frame = s.frame) (hcallers : s'.callers = s.callers)
    (hregs : s'.regs = s.regs) : KeepsBelow s s' where
  frame := hframe
  callers := hcallers
  size := by rw [hregs]
  below i _ := by rw [State.reg, hregs, State.reg]

theorem keepsBelow_of_write {reg : Nat} {v : Register} (hframe : s'.frame = s.frame)
    (hcallers : s'.callers = s.callers) (hregs : s'.regs = s.regs.setIfInBounds reg v)
    (hreg : s.base ≤ reg) : KeepsBelow s s' where
  frame := hframe
  callers := hcallers
  size := by rw [hregs, Array.size_setIfInBounds]
  below i hi := by
    have hne : i ≠ reg := by omega
    rw [State.reg, hregs]
    exact s.reg_write_of_ne reg v s.pc hne

theorem keepsBelow_apply {e : Effect} (he : e.Within s.base) (h : s.apply next e = .running s') :
    KeepsBelow s s' := by
  cases e with
  | goOn | jump | compare | push =>
    cases h
    exact keepsBelow_of_regs rfl rfl rfl
  | write reg v =>
    cases h
    exact keepsBelow_of_write rfl rfl rfl he
  | pop count reg v =>
    cases h
    exact keepsBelow_of_write rfl rfl rfl he
  | enter frame pc => exact he.elim
  | leave v => exact he.elim

/-- All that a step can do to frames and registers: it stays within its function, it opens the window
of a callee, or it closes the current window and leaves a value in its first register. -/
theorem step_cases (h : step p limits s = .ok (.running s')) :
    KeepsBelow s s' ∨
      (∃ index f next, Calls p s index next ∧ p.prologue index = .ok f ∧
        0 ≤ s.frame.stop - f.args ∧ s' = s.enter f next) ∨
      ∃ v caller rest, AboutToReturn p s v ∧ s.callers = caller :: rest ∧
        s' = { s with
          regs := s.regs.setIfInBounds s.base v
          frame := caller
          callers := rest
          pc := s.frame.ret.toNat } := by
  obtain ⟨i, e, hi, he, ha⟩ := step_eq_ok_iff.mp h
  rcases effect_cases hi he with hw | ⟨index, f, hcalls, hf, hstart, rfl⟩ | ⟨v, hleaves, rfl⟩
  · exact .inl (keepsBelow_apply hw ha)
  · cases ha
    exact .inr (.inl ⟨index, f, i.next, hcalls, hf, hstart, rfl⟩)
  · cases hcallers : s.callers with
    | nil =>
      rw [State.apply, hcallers] at ha
      cases ha
    | cons caller rest =>
      rw [State.apply, hcallers] at ha
      cases ha
      exact .inr (.inr ⟨v, caller, rest, hleaves, rfl, rfl⟩)

theorem Calls.unique {index index' : UInt32} {next' : Nat} (h : Calls p s index next)
    (h' : Calls p s index' next') : index' = index ∧ next' = next := by
  obtain ⟨i, hi, -, rfl, rfl⟩ := h
  obtain ⟨i', hi', -, rfl, rfl⟩ := h'
  cases hi.symm.trans hi'
  exact ⟨rfl, rfl⟩

theorem passesOwn_of_calls {index : UInt32} {f : Prologue} (hcalls : Calls p s index next)
    (hf : p.prologue index = .ok f) (h : f.args ≤ s.frame.stop - s.frame.start) :
    PassesOwn p s := by
  intro index' next' f' hcalls' hf'
  obtain ⟨rfl, rfl⟩ := hcalls.unique hcalls'
  obtain rfl : f = f' := Except.ok.inj (hf.symm.trans hf')
  exact h

theorem passesOwn_of_fetch {i : Fetched} (hi : fetch p.image s.pc = .ok i) (h : i.op ≠ .call) :
    PassesOwn p s := by
  rintro index next f ⟨i', hi', hop, -, -⟩ -
  cases hi.symm.trans hi'
  exact absurd hop h

/-- A call that is carried out opens the window of its function. -/
theorem Calls.step_eq {index : UInt32} {f : Prologue} (hcalls : Calls p s index next)
    (hf : p.prologue index = .ok f) (h : step p limits s = .ok (.running s')) :
    0 ≤ s.frame.stop - f.args ∧ s' = s.enter f next := by
  obtain ⟨i, e, hi, he, ha⟩ := step_eq_ok_iff.mp h
  obtain ⟨i', hi', hop, rfl, rfl⟩ := hcalls
  obtain rfl : i = i' := Except.ok.inj (hi.symm.trans hi')
  unfold effect at he
  rw [hop] at he
  obtain ⟨f', hf', hstart, rfl⟩ := callFrame_eq_ok he
  obtain rfl : f = f' := Except.ok.inj (hf.symm.trans hf')
  cases ha
  exact ⟨hstart, rfl⟩

/-- What holds while the call is open that was made in `s` of a function with the window `callee`:
the windows above the callee's begin no lower than it, and the registers below it are as they were. -/
structure Serves (s : State) (callee : Frame) (t : State) : Prop where
  frames : ∃ inner, t.frame :: t.callers = inner ++ callee :: s.frame :: s.callers ∧
    ∀ w ∈ inner, callee.start ≤ w.start
  size : t.regs.size = s.regs.size
  below : ∀ i : Nat, i < callee.start → t.reg i = s.reg i

namespace Serves
variable {callee : Frame}

theorem enter (f : Prologue) (next : Nat) : Serves s (s.enter f next).frame (s.enter f next) where
  frames := ⟨[], rfl, nofun⟩
  size := rfl
  below _ _ := rfl

/-- The current window begins no lower than the callee's. -/
theorem start_le (h : Serves s callee t) : callee.start ≤ t.frame.start := by
  obtain ⟨inner, hframes, hinner⟩ := h.frames
  cases inner with
  | nil =>
    obtain ⟨hframe, -⟩ := List.cons.inj hframes
    exact Int.le_of_eq (congrArg Frame.start hframe.symm)
  | cons w inner =>
    obtain ⟨hframe, -⟩ := List.cons.inj hframes
    rw [hframe]
    exact hinner w List.mem_cons_self

theorem depth_lt (h : Serves s callee t) : s.depth < t.depth := by
  obtain ⟨inner, hframes, -⟩ := h.frames
  have hlen := congrArg List.length hframes
  simp only [List.length_cons, List.length_append] at hlen
  unfold State.depth
  omega

theorem keepsBelow (h : Serves s callee t) (hs : KeepsBelow t t') : Serves s callee t' where
  frames := by
    rw [hs.frame, hs.callers]
    exact h.frames
  size := hs.size.trans h.size
  below i hi := by
    have hle := h.start_le
    have hbase : i < t.base := by
      unfold State.base
      omega
    rw [hs.below i hbase, h.below i hi]

/-- A call that passes registers of its caller only begins no lower than its caller. -/
theorem call (h : Serves s callee t) {index : UInt32} {f : Prologue} (hcalls : Calls p t index next)
    (hf : p.prologue index = .ok f) (hown : PassesOwn p t) : Serves s callee (t.enter f next) where
  frames := by
    obtain ⟨inner, hframes, hinner⟩ := h.frames
    have hargs := hown index next f hcalls hf
    have hle := h.start_le
    refine ⟨(t.enter f next).frame :: inner, congrArg ((t.enter f next).frame :: ·) hframes, ?_⟩
    intro w hw
    rcases List.mem_cons.mp hw with rfl | hw
    · change callee.start ≤ t.frame.stop - f.args
      omega
    · exact hinner w hw
  size := h.size
  below i hi := h.below i hi

/-- A return from a window above the callee's leaves the callee's open. -/
theorem leave (h : Serves s callee t) {v : Register} {caller : Frame} {rest : List Frame} {pc : Nat}
    (hcallers : t.callers = caller :: rest) (hdepth : s.depth < rest.length + 1) :
    Serves s callee
      { t with regs := t.regs.setIfInBounds t.base v, frame := caller, callers := rest, pc } where
  frames := by
    obtain ⟨inner, hframes, hinner⟩ := h.frames
    rw [hcallers] at hframes
    cases inner with
    | nil =>
      obtain ⟨-, hrest⟩ := List.cons.inj hframes
      have hlen := congrArg List.length hrest
      simp only [List.length_cons] at hlen
      unfold State.depth at hdepth
      omega
    | cons w inner =>
      obtain ⟨-, hrest⟩ := List.cons.inj hframes
      exact ⟨inner, hrest, fun u hu => hinner u (List.mem_cons_of_mem _ hu)⟩
  size := Array.size_setIfInBounds.trans h.size
  below i hi := by
    have hle := h.start_le
    have hne : i ≠ t.base := by
      unfold State.base
      omega
    have hwrite := t.reg_write_of_ne t.base v t.pc hne
    exact hwrite.trans (h.below i hi)

/-- A step within the call keeps what holds while it is open. -/
theorem step (h : Serves s callee t) (hown : PassesOwn p t)
    (hstep : step p limits t = .ok (.running t')) (hdepth : s.depth < t'.depth) :
    Serves s callee t' := by
  rcases step_cases hstep with hs | ⟨index, f, next, hcalls, hf, -, rfl⟩ |
    ⟨v, caller, rest, -, hcallers, rfl⟩
  · exact h.keepsBelow hs
  · exact h.call hcalls hf hown
  · exact h.leave hcallers hdepth

theorem deeper (h : Serves s callee s') (hrun : Deeper p limits s.depth (PassesOwn p) s' t) :
    Serves s callee t := by
  induction hrun with
  | refl _ => exact h
  | step _ hown hstep hdepth ih => exact ih.step hown hstep hdepth

/-- The step that comes back to the depth of the caller is the return of the callee. -/
theorem return_cases (h : Serves s callee t) (hstep : Machine.step p limits t = .ok (.running t'))
    (hdepth : t'.depth = s.depth) :
    ∃ v, AboutToReturn p t v ∧ t.frame = callee ∧ t.callers = s.frame :: s.callers ∧
      t' = { t with
        regs := t.regs.setIfInBounds t.base v
        frame := s.frame
        callers := s.callers
        pc := callee.ret.toNat } := by
  have hlt := h.depth_lt
  rcases step_cases hstep with hs | ⟨index, f, next, -, -, -, rfl⟩ |
    ⟨v, caller, rest, hleaves, hcallers, rfl⟩
  · -- within a function the depth stays, and that of the callee is larger
    have := congrArg List.length hs.callers
    unfold State.depth at hdepth hlt
    omega
  · have : (t.enter f next).depth = t.depth + 1 := rfl
    omega
  · obtain ⟨inner, hframes, -⟩ := h.frames
    rw [hcallers] at hframes
    cases inner with
    | nil =>
      obtain ⟨hframe, hrest⟩ := List.cons.inj hframes
      obtain ⟨rfl, rfl⟩ := List.cons.inj hrest
      rw [hframe]
      exact ⟨v, hleaves, rfl, hcallers, rfl⟩
    | cons w inner =>
      have hlen := congrArg List.length hframes
      simp only [List.length_cons, List.length_append] at hlen
      have hrest : rest.length + 1 = s.callers.length + 1 := hdepth
      omega

end Serves

theorem AboutToReturn.base_lt {v : Register} (h : AboutToReturn p s v) : s.base < s.regs.size := by
  obtain ⟨i, r, -, -, hplace, -⟩ := h
  obtain ⟨hle, hlt⟩ := State.le_of_place hplace
  omega

end

/-- A call that returns gives back the frames of its caller, goes on after itself, leaves all
registers below the window of the callee as they were, and leaves the register that the callee
returned in the first one of that window. That holds of every program and state, as long as the calls
on the way pass no more registers than their callers have. -/
theorem call_returns {p : Program} {limits : Limits} {s s₁ t s' : State} {index : UInt32}
    {f : Prologue} {next : Nat} (hcalls : Calls p s index next) (hf : p.prologue index = .ok f)
    (hcall : step p limits s = .ok (.running s₁))
    (hrun : Deeper p limits s.depth (PassesOwn p) s₁ t)
    (hreturn : step p limits t = .ok (.running s')) (hdepth : s'.depth = s.depth) :
    s'.frame = s.frame ∧ s'.callers = s.callers ∧ s'.pc = next ∧
      (∀ i : Nat, i < s.frame.stop - f.args → s'.reg i = s.reg i) ∧
      ∃ v, AboutToReturn p t v ∧ (s.frame.stop - f.args).toNat < s'.regs.size ∧
        s'.reg (s.frame.stop - f.args).toNat = v := by
  obtain ⟨hstart, rfl⟩ := hcalls.step_eq hf hcall
  have hserves := (Serves.enter (s := s) f next).deeper hrun
  obtain ⟨v, hleaves, hframe, -, rfl⟩ := hserves.return_cases hreturn hdepth
  have hbase : t.base = (s.frame.stop - f.args).toNat := by
    rw [State.base, hframe]
    rfl
  have hsize := hleaves.base_lt
  refine ⟨rfl, rfl, rfl, fun i hi => ?_, v, hleaves, ?_, ?_⟩
  · have hne : i ≠ t.base := by omega
    have hwrite := t.reg_write_of_ne t.base v t.pc hne
    exact hwrite.trans (hserves.below i hi)
  · rw [← hbase]
    simpa using hsize
  · rw [← hbase]
    exact t.reg_write_self t.base v t.pc hsize

/-- An image of three functions: the first calls the second, the second the third and returns its
value, the third returns seven. -/
def relay : Image :=
  (Image.magic ++ littleEndian 4 3 ++ littleEndian 4 0 ++ littleEndian 4 36 ++ littleEndian 4 1 ++
    littleEndian 4 52 ++ littleEndian 4 2 ++ littleEndian 4 68 ++ littleEndian 4 0 ++
    [Instr.func 2 0, .call 1, .ret 1, .func 2 1, .call 2, .ret 1, .func 1 1, .set .s64 0 7,
      .ret 0].flatMap Instr.bytes).toArray

def relayProgram : Program := ⟨relay, #[36, 52, 68], #[]⟩

def relayState (n : Nat) : State :=
  let main : Frame := ⟨0, 2, -1⟩
  let second : Frame := ⟨1, 3, 48⟩
  let third : Frame := ⟨2, 3, 64⟩
  let seven : Register := ⟨.s64, 7⟩
  match n with
  | 0 => { regs := #[{}, {}, {}], frame := main, pc := 42 }
  | 1 => { regs := #[{}, {}, {}], frame := second, callers := [main], pc := 58 }
  | 2 => { regs := #[{}, {}, {}], frame := third, callers := [second, main], pc := 74 }
  | 3 => { regs := #[{}, {}, seven], frame := third, callers := [second, main], pc := 87 }
  | 4 => { regs := #[{}, {}, seven], frame := second, callers := [main], pc := 64 }
  | _ => { regs := #[{}, seven, seven], frame := main, pc := 48 }

theorem step_relay {n : Nat} (h : n < 5) :
    step relayProgram (Limits.ofSettings 3 3 1) (relayState n) =
      .ok (.running (relayState (n + 1))) := by
  match n with
  | 0 | 1 | 2 | 3 | 4 => rfl
  | n + 5 => omega

theorem passesOwn_relay {n : Nat} (h : n < 5) : PassesOwn relayProgram (relayState n) := by
  match n with
  | 0 => exact passesOwn_of_calls ⟨⟨.call, .s8, 48⟩, rfl, rfl, rfl, rfl⟩ rfl (by decide)
  | 1 => exact passesOwn_of_calls ⟨⟨.call, .s8, 64⟩, rfl, rfl, rfl, rfl⟩ rfl (by decide)
  | 2 => exact passesOwn_of_fetch (i := ⟨.set, .s64, 87⟩) rfl (by decide)
  | 3 => exact passesOwn_of_fetch (i := ⟨.ret, .s8, 91⟩) rfl (by decide)
  | 4 => exact passesOwn_of_fetch (i := ⟨.ret, .s8, 68⟩) rfl (by decide)
  | n + 5 => omega

theorem deeper_relay {n : Nat} (h : n < 4) :
    Deeper relayProgram (Limits.ofSettings 3 3 1) 1 (PassesOwn relayProgram) (relayState 1)
      (relayState (n + 1)) := by
  induction n with
  | zero => exact .refl (by decide)
  | succ n ih =>
    have hdepth : 1 < (relayState (n + 2)).depth := by
      match n with
      | 0 | 1 | 2 => decide
      | n + 3 => omega
    exact (ih (by omega)).step (passesOwn_relay (by omega)) (step_relay (by omega)) hdepth

/-- The call of the second function returns the register that the third one has set, through a call
on the way that passes one of two registers. -/
theorem call_returns_relay :
    Visited (Limits.ofSettings 3 3 1) relay relayProgram (relayState 0) ∧
    Calls relayProgram (relayState 0) 1 48 ∧ relayProgram.prologue 1 = .ok ⟨2, 1, 58⟩ ∧
    Deeper relayProgram (Limits.ofSettings 3 3 1) (relayState 0).depth (PassesOwn relayProgram)
      (relayState 1) (relayState 4) ∧
    (relayState 5).depth = (relayState 0).depth ∧ (relayState 5).pc = 48 ∧
    (relayState 5).reg 0 = (relayState 0).reg 0 ∧
    ∃ v, AboutToReturn relayProgram (relayState 4) v ∧ (relayState 5).reg 1 = v := by
  have hcalls : Calls relayProgram (relayState 0) 1 48 := ⟨⟨.call, .s8, 48⟩, rfl, rfl, rfl, rfl⟩
  have hprologue : relayProgram.prologue 1 = .ok ⟨2, 1, 58⟩ := rfl
  have hrun := deeper_relay (n := 3) (by decide)
  obtain ⟨-, -, hpc, hbelow, v, hleaves, -, hv⟩ := call_returns hcalls hprologue
    (step_relay (n := 0) (by decide)) hrun (step_relay (n := 4) (by decide)) rfl
  exact ⟨.start rfl, hcalls, hprologue, hrun, rfl, hpc, hbelow 0 (by decide), v, hleaves, hv⟩

end RegisterLang.Machine
