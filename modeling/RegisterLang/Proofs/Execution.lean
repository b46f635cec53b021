import RegisterLang.Proofs.Encoding

/-!
# Execution of instructions

A step does what the instruction says that is read at the current offset. `Leads` says that a machine
comes, after finitely many steps, to a state of a given kind or stops with a fault of a given kind; it
composes like sequential code and tells how a run ends.
-/
namespace RegisterLang.Machine
open Text

def perform (p : Program) (limits : Limits) (s : State) (next : Nat) : Instr → Except RunFault Effect
  | .func .. => return .goOn
  | .call f => callFrame p limits s f next
  | .ret src => do
    let src ← s.place src
    return .leave (s.reg src)
  | .set t dst imm => do
    let dst ← s.place dst
    return .write dst ((s.reg dst).set t imm)
  | .mov dst src => do
    let dst ← s.place dst
    let src ← s.place src
    return .write dst (s.reg src)
  | .math op t dst a b => do
    let dst ← s.place dst
    let a ← s.place a
    let b ← s.place b
    match Operation.compute op t (s.reg a) (s.reg b) with
    | some v => return .write dst ((s.reg dst).set t v)
    | none => throw (.divisionByZero op t)
  | .cmp t a b => do
    let a ← s.place a
    let b ← s.place b
    return .compare (Operation.compare t (s.reg a) (s.reg b))
  | .jump op l =>
    if h : l.toNat < p.labels.size then
      return if Operation.taken op s.flags then .jump p.labels[l.toNat].toNat else .goOn
    else throw (.labelIndex l p.labels.size)
  | .push t src => do
    let src ← s.place src
    if limits.stack < s.stack.size + t.size then throw (.stackOverflow s.stack.size t.size)
    return .push (littleEndian t.size (s.reg src).bits.toNat)
  | .pop t dst => do
    let dst ← s.place dst
    if s.stack.size < t.size then throw (.stackUnderflow t.size s.stack.size)
    let v := (Image.number s.stack t.size (s.stack.size - t.size)).toUInt64
    return .pop t.size dst ((s.reg dst).set t v)

theorem fetch_of_decodeAt {image : Image} {pc next : Nat} {x : Instr}
    (h : Instr.decodeAt image pc = .ok (x, next)) :
    ∃ i, fetch image pc = .ok i ∧ i.op.isKnown ∧ x = Instr.operands image i.op i.type (pc + 2) ∧
      next = i.next := by
  obtain ⟨op, t, n, hop, hknown, ht, htype, hn, hsize, rfl, rfl⟩ := Instr.decodeAt_eq_ok h
  have hshort : ¬ (op.isTyped && image.size < pc + 3) := by
    cases op <;> cases hn <;> simp [Opcode.isTyped] <;> omega
  refine ⟨⟨op, t, pc + 2 + n⟩, ?_, hknown, rfl, rfl⟩
  unfold fetch
  simp only [hop, ht, hn, htype]
  rw [if_neg (by omega), if_neg hshort, if_neg (by simp), if_neg (by omega)]

theorem effect_eq_perform (p : Program) (limits : Limits) (s : State) (i : Fetched)
    (hi : i.op.isKnown) :
    effect p limits s i =
      perform p limits s i.next (Instr.operands p.image i.op i.type (s.pc + 2)) := by
  obtain ⟨op, t, next⟩ := i
  cases op <;> first | rfl | simp [Opcode.isKnown] at hi

/-- A step does what the instruction does that is read at the current offset. -/
theorem step_eq_perform {p : Program} {limits : Limits} {s : State} {x : Instr} {next : Nat}
    (h : Instr.decodeAt p.image s.pc = .ok (x, next)) :
    step p limits s = (perform p limits s next x).map (s.apply next) := by
  obtain ⟨i, hf, hk, rfl, rfl⟩ := fetch_of_decodeAt h
  unfold step
  rw [hf]
  simp only [← effect_eq_perform p limits s i hk]
  change (effect p limits s i >>= fun e => pure (s.apply i.next e)) = _
  cases effect p limits s i <;> rfl

namespace State

def base (s : State) : Nat := s.frame.start.toNat

def write (s : State) (i : Nat) (v : Register) (next : Nat) : State :=
  { s with regs := s.regs.setIfInBounds i v, pc := next }

variable (s : State) (i : Nat) (v : Register) (next : Nat)

@[simp] theorem write_frame : (s.write i v next).frame = s.frame := rfl
@[simp] theorem write_callers : (s.write i v next).callers = s.callers := rfl
@[simp] theorem write_pc : (s.write i v next).pc = next := rfl
@[simp] theorem write_base : (s.write i v next).base = s.base := rfl

@[simp] theorem size_regs_write : (s.write i v next).regs.size = s.regs.size := by
  simp [write]

theorem reg_write_self (hi : i < s.regs.size) : (s.write i v next).reg i = v := by
  simp [reg, write, Array.getD_eq_getD_getElem?, hi]

theorem reg_write_of_ne {j : Nat} (hj : j ≠ i) : (s.write i v next).reg j = s.reg j := by
  simp [reg, write, Array.getD_eq_getD_getElem?, hj.symm]

theorem place_eq {s : State} {r : Reg} (h : s.base + r.toNat < s.regs.size) :
    s.place r = .ok (s.base + r.toNat) := by
  unfold base at h
  simp [place, base, h]

end State

section
variable {p : Program} {limits : Limits} {s : State} {next : Nat}

theorem step_mov {dst src : Reg} (h : Instr.decodeAt p.image s.pc = .ok (.mov dst src, next))
    (hdst : s.base + dst.toNat < s.regs.size) (hsrc : s.base + src.toNat < s.regs.size) :
    step p limits s =
      .ok (.running (s.write (s.base + dst.toNat) (s.reg (s.base + src.toNat)) next)) := by
  rw [step_eq_perform h]
  simp only [perform, State.place_eq hdst, State.place_eq hsrc]
  rfl

theorem step_set {t : RegType} {dst : Reg} {imm : UInt64}
    (h : Instr.decodeAt p.image s.pc = .ok (.set t dst imm, next))
    (hdst : s.base + dst.toNat < s.regs.size) :
    step p limits s = .ok (.running
      (s.write (s.base + dst.toNat) ((s.reg (s.base + dst.toNat)).set t imm) next)) := by
  rw [step_eq_perform h]
  simp only [perform, State.place_eq hdst]
  rfl

theorem step_math {op : Opcode} {t : RegType} {dst a b : Reg}
    (h : Instr.decodeAt p.image s.pc = .ok (.math op t dst a b, next))
    (hdst : s.base + dst.toNat < s.regs.size) (ha : s.base + a.toNat < s.regs.size)
    (hb : s.base + b.toNat < s.regs.size) :
    step p limits s =
      match Operation.compute op t (s.reg (s.base + a.toNat)) (s.reg (s.base + b.toNat)) with
      | some v => .ok (.running
          (s.write (s.base + dst.toNat) ((s.reg (s.base + dst.toNat)).set t v) next))
      | none => .error (.divisionByZero op t) := by
  rw [step_eq_perform h]
  simp only [perform, State.place_eq hdst, State.place_eq ha, State.place_eq hb]
  cases hc : Operation.compute op t (s.reg (s.base + a.toNat)) (s.reg (s.base + b.toNat)) <;>
    simp only [bind, Except.bind, hc] <;> rfl

theorem step_cmp {t : RegType} {a b : Reg}
    (h : Instr.decodeAt p.image s.pc = .ok (.cmp t a b, next))
    (ha : s.base + a.toNat < s.regs.size) (hb : s.base + b.toNat < s.regs.size) :
    step p limits s = .ok (.running
      { s with
        flags := Operation.compare t (s.reg (s.base + a.toNat)) (s.reg (s.base + b.toNat))
        pc := next }) := by
  rw [step_eq_perform h]
  simp only [perform, State.place_eq ha, State.place_eq hb]
  rfl

theorem step_jump {op : Opcode} {l target : UInt32}
    (h : Instr.decodeAt p.image s.pc = .ok (.jump op l, next))
    (hl : p.labels[l.toNat]? = some target) :
    step p limits s = .ok (.running
      { s with pc := if Operation.taken op s.flags then target.toNat else next }) := by
  obtain ⟨hlt, rfl⟩ := Array.getElem?_eq_some_iff.mp hl
  rw [step_eq_perform h]
  simp only [perform, dif_pos hlt]
  cases Operation.taken op s.flags <;> rfl

theorem step_call {index : UInt32} {f : Prologue}
    (h : Instr.decodeAt p.image s.pc = .ok (.call index, next)) (hf : p.prologue index = .ok f) :
    step p limits s =
      if limits.frames ≤ s.depth then .error (.frames s.depth)
      else if s.frame.stop - f.args < 0 ∨ s.regs.size < s.frame.stop - f.args + f.regs then
        .error (.window index (s.frame.stop - f.args) (s.frame.stop - f.args + f.regs) s.regs.size)
      else .ok (.running
        { s with
          frame := ⟨s.frame.stop - f.args, s.frame.stop - f.args + f.regs, next⟩
          callers := s.frame :: s.callers
          pc := f.body }) := by
  rw [step_eq_perform h]
  simp only [perform, callFrame, hf]
  by_cases hd : limits.frames ≤ s.depth
  · rw [if_pos hd]
    simp only [bind, Except.bind, if_pos hd]
    rfl
  · rw [if_neg hd]
    simp only [bind, Except.bind, if_neg hd]
    split <;> rfl

theorem step_ret {src : Reg} (h : Instr.decodeAt p.image s.pc = .ok (.ret src, next))
    (hsrc : s.base + src.toNat < s.regs.size) :
    step p limits s = .ok (s.apply next (.leave (s.reg (s.base + src.toNat)))) := by
  rw [step_eq_perform h]
  simp only [perform, State.place_eq hsrc]
  rfl

end

def State.after (p : Program) (limits : Limits) : Nat → State → Option State
  | 0, s => some s
  | n + 1, s =>
    match step p limits s with
    | .ok (.running s') => s'.after p limits n
    | _ => none

section
variable {p : Program} {limits : Limits} {s : State}

theorem after_succ {s' : State} (h : step p limits s = .ok (.running s')) (n : Nat) :
    s.after p limits (n + 1) = s'.after p limits n := by
  rw [State.after, h]

theorem after_add (m n : Nat) :
    s.after p limits (m + n) = (s.after p limits m).bind (State.after p limits n) := by
  induction m generalizing s with
  | zero =>
    rw [Nat.zero_add]
    rfl
  | succ m ih =>
    rw [Nat.succ_add, State.after, State.after]
    split
    · exact ih
    · rfl

end

/-- There is always a frame to run in. -/
theorem one_le_frames (registers frames stack : Int) :
    1 ≤ (Limits.ofSettings registers frames stack).frames := by
  simp only [Limits.ofSettings]
  split
  · decide
  · omega

/-- After finitely many steps the machine is in a state that satisfies `Q`, or an instruction fails
with a fault that satisfies `E`. -/
inductive Leads (p : Program) (limits : Limits) (Q : State → Prop) (E : RunFault → Prop) :
    State → Prop
  | here {s : State} : Q s → Leads p limits Q E s
  | step {s s' : State} : step p limits s = .ok (.running s') → Leads p limits Q E s' →
      Leads p limits Q E s
  | fault {s : State} {e : RunFault} : Machine.step p limits s = .error e → E e →
      Leads p limits Q E s

namespace Leads
variable {p : Program} {limits : Limits} {Q Q' : State → Prop} {E E' : RunFault → Prop} {s : State}

theorem trans (h : Leads p limits Q E s) (hnext : ∀ s', Q s' → Leads p limits Q' E s') :
    Leads p limits Q' E s := by
  induction h with
  | here hq => exact hnext _ hq
  | step hs _ ih => exact .step hs ih
  | fault hs he => exact .fault hs he

theorem mono (h : Leads p limits Q E s) (hQ : ∀ s', Q s' → Q' s') (hE : ∀ e, E e → E' e) :
    Leads p limits Q' E' s := by
  induction h with
  | here hq => exact .here (hQ _ hq)
  | step hs _ ih => exact .step hs ih
  | fault hs he => exact .fault hs (hE _ he)

end Leads

section
variable {p : Program} {limits : Limits} {s : State}

theorem step_eq_ok_iff {r : Next} : step p limits s = .ok r ↔
    ∃ i e, fetch p.image s.pc = .ok i ∧ effect p limits s i = .ok e ∧ s.apply i.next e = r := by
  unfold step
  cases hf : fetch p.image s.pc with
  | error e => simp [bind, Except.bind]
  | ok i =>
    cases he : effect p limits s i with
    | error e => simp [bind, Except.bind, he]
    | ok e => simp [bind, Except.bind, pure, Except.pure, he]

theorem step_eq_error_iff {e : RunFault} : step p limits s = .error e ↔
    fetch p.image s.pc = .error e ∨
      ∃ i, fetch p.image s.pc = .ok i ∧ effect p limits s i = .error e := by
  unfold step
  cases hf : fetch p.image s.pc with
  | error e => simp [bind, Except.bind]
  | ok i =>
    cases he : effect p limits s i with
    | error e => simp [bind, Except.bind, he]
    | ok e => simp [bind, Except.bind, pure, Except.pure, he]

theorem runFrom_of_running {s' : State} (h : step p limits s = .ok (.running s')) (fuel n : Nat) :
    runFrom p limits (fuel + 1) n s = runFrom p limits fuel (n + 1) s' := by
  obtain ⟨i, e, hf, he, ha⟩ := step_eq_ok_iff.mp h
  simp [runFrom, hf, he, ha]

theorem ending_of_returned {v : Register} {s' : State} (h : step p limits s = .ok (.returned v s'))
    (fuel n : Nat) : (runFrom p limits (fuel + 1) n s).ending = .returned v := by
  obtain ⟨i, e, hf, he, ha⟩ := step_eq_ok_iff.mp h
  simp [runFrom, hf, he, ha, State.ended]

theorem ending_of_fault {e : RunFault} (h : step p limits s = .error e) (fuel n : Nat) :
    (runFrom p limits (fuel + 1) n s).ending = .failed (.step s.pc e) := by
  obtain hf | ⟨i, hf, he⟩ := step_eq_error_iff.mp h
  · simp [runFrom, hf, State.ended]
  · simp [runFrom, hf, he, State.ended]

end

/-- A run that goes through a state that is led to, or ends on the way there. -/
theorem Leads.ending {p : Program} {limits : Limits} {Q : State → Prop} {E : RunFault → Prop}
    {s : State} (h : Leads p limits Q E s) :
    ∃ k, (∃ s', Q s' ∧ ∀ fuel n, runFrom p limits (fuel + k) n s = runFrom p limits fuel (n + k) s') ∨
      (∃ pc e, E e ∧ ∀ fuel n, (runFrom p limits (fuel + k) n s).ending = .failed (.step pc e)) := by
  induction h with
  | here hq => exact ⟨0, .inl ⟨_, hq, fun _ _ => rfl⟩⟩
  | step hs _ ih =>
    obtain ⟨k, ⟨s', hq, hrun⟩ | ⟨pc, e, he, hrun⟩⟩ := ih
    · refine ⟨k + 1, .inl ⟨s', hq, fun fuel n => ?_⟩⟩
      rw [← Nat.add_assoc, runFrom_of_running hs, hrun, Nat.add_assoc, Nat.add_comm 1 k]
    · refine ⟨k + 1, .inr ⟨pc, e, he, fun fuel n => ?_⟩⟩
      rw [← Nat.add_assoc, runFrom_of_running hs, hrun]
  | fault hs he => exact ⟨1, .inr ⟨_, _, he, fun fuel n => ending_of_fault hs fuel n⟩⟩

end RegisterLang.Machine
