import RegisterLang.Proofs.Codec
import RegisterLang.Proofs.Execution
import RegisterLang.Proofs.Patterns

/-!
# Arithmetic on whole numbers

An instruction on whole numbers reads the low bytes of two registers as numbers of its type and
computes with them exactly. The result, reduced to the width of the type, takes the low bytes of a
third register, which may be one of the two, and the bits above stay. Only a division by zero fails,
and then no register is written.
-/
namespace RegisterLang
open Reference

namespace Register

def high (r : Register) (t : RegType) : Nat := r.bits.toNat / 2 ^ (8 * t.size)

/-- A write of a type keeps the bits above. -/
theorem high_set (r : Register) (t : RegType) (v : UInt64) : (r.set t v).high t = r.high t := by
  apply Nat.eq_of_testBit_eq
  intro i
  have hi : ¬ i + 8 * t.size < 8 * t.size := by omega
  simp only [high, set, Nat.testBit_div_two_pow, ← UInt64.toNat_toBitVec, BitVec.testBit_toNat,
    UInt64.toBitVec_or, UInt64.toBitVec_and, UInt64.toBitVec_not, BitVec.getLsbD_or,
    BitVec.getLsbD_and, BitVec.getLsbD_not, testBit_mask, hi, decide_false, Bool.not_false,
    Bool.and_true, Bool.and_false, Bool.or_false]
  by_cases hlt : i + 8 * t.size < 64
  · simp only [hlt, decide_true, Bool.and_true]
  · rw [BitVec.getLsbD_of_ge _ _ (by omega), Bool.false_and]

theorem low_lt (r : Register) (t : RegType) : r.low t < 2 ^ (8 * t.size) :=
  Nat.mod_lt _ (Nat.two_pow_pos _)

end Register

namespace Reference

/-- Only the pattern of zero stands for zero. -/
theorem wholeOf_eq_zero {signed : Bool} {width x : Nat} (hx : x < 2 ^ width) :
    wholeOf signed width x = 0 ↔ x = 0 := by
  unfold wholeOf
  split
  · rw [← Int.dvd_iff_bmod_eq_zero, Int.natCast_dvd_natCast]
    exact ⟨fun h => Nat.eq_zero_of_dvd_of_lt h hx, fun h => h ▸ Nat.dvd_zero _⟩
  · omega

end Reference

theorem Operation.exactMath_eq_none {op : Opcode} (hop : op.isMath) (x y : Int) :
    exactMath op x y = none ↔ (op = .div ∨ op = .mod) ∧ y = 0 := by
  cases op <;> simp_all [exactMath, Opcode.isMath]

namespace Machine
variable {p : Program} {limits : Limits} {s : State} {op : Opcode} {t : RegType} {dst a b : Reg}
  {next : Nat}

/-- The instruction on a machine in place: what is written before a fault stays written. -/
def mathInPlace (op : Opcode) (t : RegType) (dst a b : Reg) (next : Nat) :
    EStateM RunFault State Unit := do
  let d ← ofExcept ((← get).place dst)
  let i ← ofExcept ((← get).place a)
  let j ← ofExcept ((← get).place b)
  match Operation.compute op t ((← get).reg i) ((← get).reg j) with
  | some v => modify fun s => s.write d ((s.reg d).set t v) next
  | none => throw (.divisionByZero op t)

section
variable (hdst : s.base + dst.toNat < s.regs.size) (ha : s.base + a.toNat < s.regs.size)
  (hb : s.base + b.toNat < s.regs.size)
include hdst ha hb

theorem mathInPlace_run :
    (mathInPlace op t dst a b next).run s =
      match Operation.compute op t (s.reg (s.base + a.toNat)) (s.reg (s.base + b.toNat)) with
      | some v => .ok () (s.write (s.base + dst.toNat) ((s.reg (s.base + dst.toNat)).set t v) next)
      | none => .error (.divisionByZero op t) s := by
  simp only [mathInPlace, EStateM.run_bind, EStateM.run_get, State.place_eq hdst, State.place_eq ha,
    State.place_eq hb, ofExcept, EStateM.run_pure]
  cases Operation.compute op t (s.reg (s.base + a.toNat)) (s.reg (s.base + b.toNat)) <;> rfl

/-- The machine does in one step what the instruction does in place. -/
theorem step_eq_inPlace (h : Instr.decodeAt p.image s.pc = .ok (.math op t dst a b, next)) :
    step p limits s =
      match (mathInPlace op t dst a b next).run s with
      | .ok () s' => .ok (.running s')
      | .error e _ => .error e := by
  rw [step_math h hdst ha hb, mathInPlace_run hdst ha hb]
  cases Operation.compute op t (s.reg (s.base + a.toNat)) (s.reg (s.base + b.toNat)) <;> rfl

end

def DividesByZero (s : State) (op : Opcode) (t : RegType) (b : Reg) : Prop :=
  (op = .div ∨ op = .mod) ∧ (s.reg (s.base + b.toNat)).low t = 0

instance (s : State) (op : Opcode) (t : RegType) (b : Reg) : Decidable (DividesByZero s op t b) :=
  inferInstanceAs (Decidable (_ ∧ _))

/-- The result is written over the low bits of a register, and all else stays. -/
structure Replaces (s s' : State) (t : RegType) (d : Nat) (n : Int) (next : Nat) : Prop where
  low : ((s'.reg d).low t : Int) = n % 2 ^ (8 * t.size)
  high : (s'.reg d).high t = (s.reg d).high t
  kind : (s'.reg d).kind = t
  others : ∀ i, i ≠ d → s'.reg i = s.reg i
  rest : s' = { s with regs := s'.regs, pc := next }

/-- What is computed is the exact result up to multiples of two to the width of the type. Only where
something is divided by zero there is no result. -/
theorem compute_exact (hop : op.isMath) (hknown : t.isKnown) (ht : t.isFloat = false)
    (x y : Register) :
    (Operation.compute op t x y = none ∧ (op = .div ∨ op = .mod) ∧ y.low t = 0) ∨
      ∃ v n, Operation.compute op t x y = some v ∧ ¬ ((op = .div ∨ op = .mod) ∧ y.low t = 0) ∧
        Operation.exactMath op (wholeOf t.isSigned (8 * t.size) (x.low t))
          (wholeOf t.isSigned (8 * t.size) (y.low t)) = some n ∧
        v.toNat % 2 ^ (8 * t.size) = (n % (2 ^ (8 * t.size) : Nat)).toNat := by
  have hwhole := Operation.compute_whole_type op hknown ht x y
  have hzero := Operation.exactMath_eq_none hop (wholeOf t.isSigned (8 * t.size) (x.low t))
    (wholeOf t.isSigned (8 * t.size) (y.low t))
  rw [wholeOf_eq_zero (y.low_lt t)] at hzero
  cases hc : Operation.compute op t x y with
  | none =>
    rw [hc, Option.map_none, eq_comm, Option.map_eq_none_iff] at hwhole
    exact .inl ⟨rfl, hzero.mp hwhole⟩
  | some v =>
    rw [hc, Option.map_some, eq_comm, Option.map_eq_some_iff] at hwhole
    obtain ⟨n, hn, hv⟩ := hwhole
    refine .inr ⟨v, n, rfl, fun hdiv => ?_, hn, hv.symm⟩
    rw [hzero.mpr hdiv] at hn
    cases hn

/-- A write of a result that has the right pattern. -/
theorem replaces_write {d : Nat} (hd : d < s.regs.size) {v : UInt64} {n : Int}
    (hv : v.toNat % 2 ^ (8 * t.size) = (n % (2 ^ (8 * t.size) : Nat)).toNat) :
    Replaces s (s.write d ((s.reg d).set t v) next) t d n next where
  low := by
    have hpos : ((2 ^ (8 * t.size) : Nat) : Int) ≠ 0 := by exact_mod_cast (Nat.two_pow_pos _).ne'
    rw [State.reg_write_self _ _ _ _ hd, Register.low_set, hv,
      Int.toNat_of_nonneg (Int.emod_nonneg _ hpos)]
    push_cast
    rfl
  high := by rw [State.reg_write_self _ _ _ _ hd, Register.high_set]
  kind := by rw [State.reg_write_self _ _ _ _ hd, Register.set]
  others i hi := State.reg_write_of_ne _ _ _ _ hi
  rest := rfl

/-- An instruction on whole numbers fails exactly where it divides by zero, and then it has written
nothing. Otherwise it writes the exact result, up to multiples of two to the width of the type, which
goes by the low bits of the operands alone. -/
theorem step_whole (h : Instr.decodeAt p.image s.pc = .ok (.math op t dst a b, next))
    (ht : t.isFloat = false) (hdst : s.base + dst.toNat < s.regs.size)
    (ha : s.base + a.toNat < s.regs.size) (hb : s.base + b.toNat < s.regs.size) :
    (∀ e, step p limits s = .error e ↔ DividesByZero s op t b ∧ e = .divisionByZero op t) ∧
    (DividesByZero s op t b →
      (mathInPlace op t dst a b next).run s = .error (.divisionByZero op t) s) ∧
    (¬ DividesByZero s op t b → ∃ n s',
      Operation.exactMath op (wholeOf t.isSigned (8 * t.size) ((s.reg (s.base + a.toNat)).low t))
        (wholeOf t.isSigned (8 * t.size) ((s.reg (s.base + b.toNat)).low t)) = some n ∧
      step p limits s = .ok (.running s') ∧ (mathInPlace op t dst a b next).run s = .ok () s' ∧
      Replaces s s' t (s.base + dst.toNat) n next) := by
  obtain ⟨hop, hknown⟩ := (Instr.decodeAt_holds h).1
  have hrun : (mathInPlace op t dst a b next).run s = _ := mathInPlace_run hdst ha hb
  rw [step_eq_inPlace hdst ha hb h]
  obtain ⟨hc, hzero⟩ | ⟨v, n, hc, hzero, hn, hv⟩ := compute_exact hop hknown ht
    (s.reg (s.base + a.toNat)) (s.reg (s.base + b.toNat))
  · rw [hc] at hrun
    rw [hrun]
    refine ⟨fun e => ?_, fun _ => rfl, fun hnot => absurd hzero hnot⟩
    exact ⟨fun he => ⟨hzero, (Except.error.inj he).symm⟩, fun he => by rw [he.2]⟩
  · rw [hc] at hrun
    rw [hrun]
    refine ⟨fun e => ⟨nofun, fun he => absurd he.1 hzero⟩, fun hdiv => absurd hdiv hzero, fun _ => ?_⟩
    exact ⟨n, _, hn, rfl, rfl, replaces_write hdst hv⟩

def bytewise (op : Opcode) (x y : UInt64) : Program × State :=
  (⟨(Instr.math op .s8 0 0 1).bytes.toArray, #[], #[]⟩,
    { regs := #[⟨.s64, x⟩, ⟨.u16, y⟩], frame := ⟨0, 2, -1⟩, pc := 0 })

/-- The least number divided by minus one, and a divisor that is zero in its low byte only. -/
theorem step_whole_corners :
    (∃ s', step (bytewise .div 0x1180 0xffff).1 .standard (bytewise .div 0x1180 0xffff).2 =
        .ok (.running s') ∧ Replaces (bytewise .div 0x1180 0xffff).2 s' .s8 0 128 9) ∧
    step (bytewise .mod 7 0x100).1 .standard (bytewise .mod 7 0x100).2 =
      .error (.divisionByZero .mod .s8) := by
  have hdiv : Instr.decodeAt (bytewise .div 0x1180 0xffff).1.image 0 =
      .ok (.math .div .s8 0 0 1, 9) := rfl
  have hmod : Instr.decodeAt (bytewise .mod 7 0x100).1.image 0 = .ok (.math .mod .s8 0 0 1, 9) := rfl
  constructor
  · obtain ⟨n, s', hn, hstep, -, hs'⟩ := (@step_whole _ .standard (bytewise .div 0x1180 0xffff).2
      _ _ _ _ _ _ hdiv rfl (by decide) (by decide) (by decide)).2.2 (by decide)
    have hvalue : Operation.exactMath .div (wholeOf true 8 0x80) (wholeOf true 8 0xff) = some 128 := by
      decide
    obtain rfl : n = 128 := Option.some.inj (hn.symm.trans hvalue)
    exact ⟨s', hstep, hs'⟩
  · exact ((step_whole (s := (bytewise .mod 7 0x100).2) hmod rfl (by decide) (by decide)
      (by decide)).1 _).mpr ⟨by decide, rfl⟩

end Machine
end RegisterLang
