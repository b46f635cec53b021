import RegisterLang.Proofs.WholeNumbers

/-!
# The stack of bytes

Values of any types are pushed one after the other, each with as many bytes as its type has, and the
stack keeps no record of the types. Popped in the opposite order each value is whole again: a push
and its pop stand around code that leaves the stack as it found it, and so do they.
-/
namespace RegisterLang.Machine
open Text

namespace State

def push (s : State) (t : RegType) (v : Register) (next : Nat) : State :=
  { s with stack := s.stack ++ littleEndian t.size v.bits.toNat, pc := next }

section
variable (s : State) (t : RegType) (v : Register) (next : Nat)

theorem push_stack :
    (s.push t v next).stack.toList = s.stack.toList ++ littleEndian t.size v.bits.toNat :=
  Array.toList_appendList

theorem size_stack_push : (s.push t v next).stack.size = s.stack.size + t.size := by
  rw [← Array.length_toList, push_stack, List.length_append, littleEndian_length,
    Array.length_toList]

end

def pop (s : State) (i : Nat) (v : Register) (rest : Array UInt8) (next : Nat) : State :=
  { s.write i v next with stack := rest }

section
variable (s : State) (i : Nat) (v : Register) (rest : Array UInt8) (next : Nat)

@[simp] theorem pop_reg (j : Nat) : (s.pop i v rest next).reg j = (s.write i v next).reg j := rfl

@[simp] theorem size_regs_pop : (s.pop i v rest next).regs.size = s.regs.size :=
  s.size_regs_write i v next

end

end State

section
variable {p : Program} {limits : Limits} {s : State} {next : Nat} {t : RegType}

theorem step_push {src : Reg}
    (h : Instr.decodeAt p.image s.pc = .ok (.push t src, next))
    (hsrc : s.base + src.toNat < s.regs.size) (hroom : s.stack.size + t.size ≤ limits.stack) :
    step p limits s = .ok (.running (s.push t (s.reg (s.base + src.toNat)) next)) := by
  rw [step_eq_perform h]
  simp only [perform, State.place_eq hsrc, bind, Except.bind, if_neg (Nat.not_lt.mpr hroom)]
  rfl

/-- What was pushed last is popped, by the width of its type. -/
theorem step_pop {dst : Reg}
    (h : Instr.decodeAt p.image s.pc = .ok (.pop t dst, next))
    (hdst : s.base + dst.toNat < s.regs.size) {rest : Array UInt8} {v : UInt64}
    (hstack : s.stack = rest ++ littleEndian t.size v.toNat) :
    step p limits s = .ok (.running
      (s.pop (s.base + dst.toNat) ((s.reg (s.base + dst.toNat)).set t v) rest next)) := by
  have hlist : s.stack.toList = rest.toList ++ littleEndian t.size v.toNat := by
    rw [hstack, Array.toList_appendList]
  have hsize : s.stack.size = rest.size + t.size := by
    simpa [littleEndian_length] using congrArg List.length hlist
  have hsub : s.stack.size - t.size = rest.size := by omega
  have hholds : Image.Holds s.stack rest.size (littleEndian t.size v.toNat) := by
    intro i hi
    rw [← Array.getElem?_toList, hlist, List.getElem?_append_right (by simp)]
    simp
  have hshrink : s.stack.shrink rest.size = rest := by
    apply Array.ext'
    simp [hlist]
  rw [step_eq_perform h]
  simp only [perform, State.place_eq hdst, bind, Except.bind,
    if_neg (by omega : ¬ s.stack.size < t.size), hsub, Image.number_of_holds hholds,
    Register.set_cut, Except.map, pure, Except.pure, State.apply, hshrink]
  rfl

end

/-! ### Transfers over the stack -/

structure Transfer where
  type : RegType
  source : Reg
  target : Reg

/-- Pushes in the order of the list and pops in the opposite one. -/
def Transfer.code (ts : List Transfer) : List Instr :=
  ts.map (fun x => .push x.type x.source) ++ ts.reverse.map fun x => .pop x.type x.target

/-- What is pushed first is popped last: the code for the others stands in between. -/
theorem Transfer.code_cons (x : Transfer) (ts : List Transfer) :
    code (x :: ts) = .push x.type x.source :: (code ts ++ [.pop x.type x.target]) := by
  simp [code]

structure TakesLow (t : RegType) (value old new : Register) : Prop where
  kind : new.kind = t
  low : new.low t = value.low t
  high : new.high t = old.high t

theorem takesLow_set (t : RegType) (value old : Register) : TakesLow t value old (old.set t value.bits) where
  kind := rfl
  low := Register.low_set _ _ _
  high := Register.high_set _ _ _

/-- Each target has taken the value that its source held before. All other registers, the stack, the
frames and the flags are as they were, and the machine is at `next`. -/
structure Transferred (ts : List Transfer) (next : Nat) (s s' : State) : Prop where
  targets : ∀ x ∈ ts, TakesLow x.type (s.reg (s.base + x.source.toNat))
    (s.reg (s.base + x.target.toNat)) (s'.reg (s.base + x.target.toNat))
  others : ∀ i, (∀ x ∈ ts, i ≠ s.base + x.target.toNat) → s'.reg i = s.reg i
  size : s'.regs.size = s.regs.size
  rest : s' = { s with regs := s'.regs, pc := next }

/-- The registers are there, no two values have one target, and there is room on the stack. -/
structure Possible (ts : List Transfer) (limits : Limits) (s : State) : Prop where
  known : ∀ x ∈ ts, x.type.isKnown
  sources : ∀ x ∈ ts, s.base + x.source.toNat < s.regs.size
  targets : ∀ x ∈ ts, s.base + x.target.toNat < s.regs.size
  distinct : (ts.map Transfer.target).Nodup
  room : s.stack.size + (ts.map fun x => x.type.size).sum ≤ limits.stack

namespace Possible
variable {x : Transfer} {ts : List Transfer} {limits : Limits} {s : State}

theorem room_first (h : Possible (x :: ts) limits s) :
    s.stack.size + x.type.size + (ts.map fun x => x.type.size).sum ≤ limits.stack := by
  have hroom := h.room
  rwa [List.map_cons, List.sum_cons, ← Nat.add_assoc] at hroom

/-- What is left to be done after the first push. -/
theorem push (h : Possible (x :: ts) limits s) (v : Register) (next : Nat) :
    Possible ts limits (s.push x.type v next) where
  known y hy := h.known y (List.mem_cons_of_mem x hy)
  sources y hy := h.sources y (List.mem_cons_of_mem x hy)
  targets y hy := h.targets y (List.mem_cons_of_mem x hy)
  distinct := (List.nodup_cons.mp h.distinct).2
  room := by
    rw [State.size_stack_push]
    exact h.room_first

theorem target_ne (h : Possible (x :: ts) limits s) {y : Transfer} (hy : y ∈ ts) :
    s.base + x.target.toNat ≠ s.base + y.target.toNat := by
  intro heq
  have htarget : x.target = y.target := UInt16.toNat.inj (Nat.add_left_cancel heq)
  exact (List.nodup_cons.mp h.distinct).1 (List.mem_map.mpr ⟨y, hy, htarget.symm⟩)

end Possible

/-- A transfer around others: a push before them and a pop after them. -/
theorem Transferred.around {x : Transfer} {ts : List Transfer} {limits : Limits} {s s₂ : State}
    {next mid : Nat} (h : Possible (x :: ts) limits s)
    (h₂ : Transferred ts mid (s.push x.type (s.reg (s.base + x.source.toNat)) next) s₂) (last : Nat) :
    Transferred (x :: ts) last s
      (s₂.pop (s.base + x.target.toNat) ((s₂.reg (s.base + x.target.toNat)).set x.type
        (s.reg (s.base + x.source.toNat)).bits) s.stack last) := by
  have hsize : s.base + x.target.toNat < s₂.regs.size := by
    rw [h₂.size]
    exact h.targets x List.mem_cons_self
  have hold : s₂.reg (s.base + x.target.toNat) = s.reg (s.base + x.target.toNat) :=
    h₂.others _ fun y hy => h.target_ne hy
  constructor
  · intro y hy
    obtain rfl | hy := List.mem_cons.mp hy
    · rw [State.pop_reg, State.reg_write_self _ _ _ _ hsize, hold]
      exact takesLow_set _ _ _
    · rw [State.pop_reg, State.reg_write_of_ne _ _ _ _ (h.target_ne hy).symm]
      exact h₂.targets y hy
  · intro i hi
    rw [List.forall_mem_cons] at hi
    rw [State.pop_reg, State.reg_write_of_ne _ _ _ _ hi.1]
    exact h₂.others i hi.2
  · rw [State.size_regs_pop]
    exact h₂.size
  · rw [h₂.rest]
    rfl

/-- The stack is last in, first out: after pushes of values of any types and pops in the opposite order
it is the same as before, and each value has come to its target. -/
theorem after_transfers {p : Program} {limits : Limits} {ts : List Transfer} {s : State}
    (hcode : p.image.Holds s.pc ((Transfer.code ts).flatMap Instr.bytes))
    (h : Possible ts limits s) :
    ∃ s', s.after p limits (2 * ts.length) = some s' ∧
      Transferred ts (s.pc + ((Transfer.code ts).flatMap Instr.bytes).length) s s' := by
  induction ts generalizing s with
  | nil => exact ⟨s, rfl, by simp, fun _ _ => rfl, rfl, rfl⟩
  | cons x ts ih =>
    have hx : x.type.isKnown := h.known x List.mem_cons_self
    have hroom := h.room_first
    rw [Transfer.code_cons, List.flatMap_cons, List.flatMap_append, List.flatMap_singleton] at hcode ⊢
    obtain ⟨hpush, hmore⟩ := Image.holds_append.mp hcode
    obtain ⟨hinner, hpop⟩ := Image.holds_append.mp hmore
    have hfirst : step p limits s = _ :=
      step_push (Instr.decodeAt_of_holds (x := .push x.type x.source) hx hpush)
        (h.sources x List.mem_cons_self) (by omega)
    obtain ⟨s₂, hafter, hs₂⟩ := ih (s := s.push _ _ _) hinner (h.push _ _)
    have hbase : s₂.base = s.base := by
      rw [hs₂.rest]
      rfl
    have hstack : s₂.stack = s.stack ++
        littleEndian x.type.size (s.reg (s.base + x.source.toNat)).bits.toNat :=
      congrArg State.stack hs₂.rest
    have hpc : s₂.pc = s.pc + (Instr.push x.type x.source).bytes.length +
        ((Transfer.code ts).flatMap Instr.bytes).length := congrArg State.pc hs₂.rest
    rw [← hpc] at hpop
    have hlast : step p limits s₂ = _ :=
      step_pop (Instr.decodeAt_of_holds (x := .pop x.type x.target) hx hpop)
        (by rw [hbase, hs₂.size]; exact h.targets x List.mem_cons_self) hstack
    have hnext : s₂.pc + (Instr.pop x.type x.target).bytes.length =
        s.pc + ((Instr.push x.type x.source).bytes ++ ((Transfer.code ts).flatMap Instr.bytes ++
          (Instr.pop x.type x.target).bytes)).length := by
      rw [hpc, List.length_append, List.length_append]
      omega
    rw [hbase, hnext] at hlast
    refine ⟨_, ?_, hs₂.around h _⟩
    rw [List.length_cons, Nat.mul_succ, after_succ hfirst, after_add, hafter]
    exact after_succ hlast 0

def exchange : List Transfer × Program × State :=
  let ts := [⟨.s32, 0, 1⟩, ⟨.u8, 1, 0⟩]
  (ts, ⟨((Transfer.code ts).flatMap Instr.bytes).toArray, #[], #[]⟩,
    { regs := #[⟨.u16, 0x1122334455667788⟩, ⟨.double, 0xaabbccddeeff0011⟩]
      frame := ⟨0, 2, -1⟩
      stack := #[9]
      pc := 0 })

theorem after_transfers_exchange :
    ∃ s', exchange.2.2.after exchange.2.1 .standard 4 = some s' ∧
      Transferred exchange.1 20 exchange.2.2 s' ∧ s'.stack = #[9] ∧
      (s'.reg 0).kind = .u8 ∧ (s'.reg 0).low .u8 = 0x11 ∧ (s'.reg 0).high .u8 = 0x11223344556677 ∧
      (s'.reg 1).kind = .s32 ∧ (s'.reg 1).low .s32 = 0x55667788 ∧
      (s'.reg 1).high .s32 = 0xaabbccdd := by
  have hpossible : Possible exchange.1 .standard exchange.2.2 :=
    ⟨by decide, by decide, by decide, by decide, by decide⟩
  obtain ⟨s', hafter, hs'⟩ := after_transfers (p := exchange.2.1) (fun i _ => by simp [exchange])
    hpossible
  have hfirst := hs'.targets ⟨.s32, 0, 1⟩ (by simp [exchange])
  have hsecond := hs'.targets ⟨.u8, 1, 0⟩ (by simp [exchange])
  refine ⟨s', hafter, hs', congrArg State.stack hs'.rest, hsecond.kind, hsecond.low, hsecond.high,
    hfirst.kind, hfirst.low, hfirst.high⟩

end RegisterLang.Machine
