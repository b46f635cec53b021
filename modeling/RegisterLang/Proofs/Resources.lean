import RegisterLang.Proofs.Execution

/-!
# Machines with more room

Limits decide when a machine has to stop with an overflow and nothing else. A machine with more
registers, frames and stack holds the registers of the smaller one among its own, so it takes the same
steps as long as the smaller one does, and it ends in the same way unless that one overflows.
-/
namespace RegisterLang

structure Limits.AtMost (small large : Limits) : Prop where
  registers : small.registers ≤ large.registers
  frames : small.frames ≤ large.frames
  stack : small.stack ≤ large.stack

def Fault.isOverflow : Fault → Bool
  | .registerOverflow | .frameOverflow | .stackOverflow => true
  | _ => false

namespace Machine

/-- The machine `t` has the registers of `s` with the same values, maybe with others after them, and is
the same apart from that. -/
structure Embeds (s t : State) : Prop where
  size : s.regs.size ≤ t.regs.size
  reg : ∀ i, i < s.regs.size → t.reg i = s.reg i
  frame : t.frame = s.frame
  callers : t.callers = s.callers
  stack : t.stack = s.stack
  flags : t.flags = s.flags
  pc : t.pc = s.pc

/-- A second outcome is the first one, unless the first is an overflow. -/
def Stable {α : Type} (r r' : Except RunFault α) : Prop :=
  r' = r ∨ ∃ e, r = .error e ∧ e.fault.isOverflow = true

namespace Stable
variable {α β : Type} {r r' : Except RunFault α}

theorem same (h : r' = r) : Stable r r' := .inl h

theorem overflow {e : RunFault} (h : e.fault.isOverflow = true) : Stable (.error e) r' :=
  .inr ⟨e, rfl, h⟩

/-- What is done next may rely on what was found. -/
theorem bind {f f' : α → Except RunFault β} (h : Stable r r')
    (hf : ∀ a, r = .ok a → Stable (f a) (f' a)) : Stable (r >>= f) (r' >>= f') := by
  rcases h with heq | ⟨e, rfl, he⟩
  · rw [heq]
    cases r with
    | error e => exact .same rfl
    | ok a => exact hf a rfl
  · exact .overflow he

end Stable

section
variable {p : Program} {small large : Limits} {s t : State}

namespace Embeds

theorem depth_eq (h : Embeds s t) : t.depth = s.depth := by
  unfold State.depth
  rw [h.callers]

theorem place_stable (h : Embeds s t) (r : Reg) : Stable (s.place r) (t.place r) := by
  unfold State.place
  dsimp only
  rw [h.frame]
  by_cases hi : s.frame.start.toNat + r.toNat < s.regs.size
  · have hi' : s.frame.start.toNat + r.toNat < t.regs.size := Nat.lt_of_lt_of_le hi h.size
    rw [if_pos hi, if_pos hi']
    exact .same rfl
  · rw [if_neg hi]
    exact .overflow rfl

theorem reg_of_place (h : Embeds s t) {r : Reg} {i : Nat} (hi : s.place r = .ok i) :
    t.reg i = s.reg i := by
  unfold State.place at hi
  dsimp only at hi
  split at hi
  next hlt =>
    cases hi
    exact h.reg _ hlt
  · cases hi

/-- After a write to the same place the registers of one are still among those of the other, also if
the place lies beyond the smaller one. -/
theorem reg_set (h : Embeds s t) (i : Nat) (v : Register) {j : Nat} (hj : j < s.regs.size) :
    (t.regs.setIfInBounds i v).getD j {} = (s.regs.setIfInBounds i v).getD j {} := by
  have hj' : j < t.regs.size := Nat.lt_of_lt_of_le hj h.size
  have hreg : t.regs.getD j {} = s.regs.getD j {} := h.reg j hj
  by_cases hij : i = j
  · subst hij
    simp [Array.getD_eq_getD_getElem?, hj, hj']
  · simpa [Array.getD_eq_getD_getElem?, hij] using hreg

end Embeds

theorem callFrame_stable (hl : small.AtMost large) (h : Embeds s t) (index : UInt32) (next : Nat) :
    Stable (callFrame p small s index next) (callFrame p large t index next) := by
  unfold callFrame
  refine Stable.bind (.same rfl) fun f _ => ?_
  by_cases hs : small.frames ≤ s.depth
  · simp only [if_pos hs]
    exact .overflow rfl
  · have ht : ¬ large.frames ≤ t.depth := by
      have := hl.frames
      rw [h.depth_eq]
      omega
    simp only [if_neg hs, if_neg ht, h.frame]
    change Stable (if _ then _ else _) (if _ then _ else _)
    by_cases hw : s.frame.stop - f.args < 0 ∨ s.regs.size < s.frame.stop - f.args + f.regs
    · rw [if_pos hw]
      exact .overflow rfl
    · have hw' : ¬ (s.frame.stop - f.args < 0 ∨ t.regs.size < s.frame.stop - f.args + f.regs) := by
        have := h.size
        omega
      rw [if_neg hw, if_neg hw']
      exact .same rfl

/-- With more room an instruction does the same, unless it overflowed before. -/
theorem effect_stable (hl : small.AtMost large) (h : Embeds s t) (i : Fetched) :
    Stable (effect p small s i) (effect p large t i) := by
  obtain ⟨op, ty, next⟩ := i
  unfold effect
  rw [h.pc]
  dsimp only
  cases op with
  | func => exact .same rfl
  | call => exact callFrame_stable hl h _ _
  | ret =>
    refine (h.place_stable _).bind fun src hsrc => .same ?_
    rw [h.reg_of_place hsrc]
  | set =>
    refine (h.place_stable _).bind fun dst hdst => .same ?_
    rw [h.reg_of_place hdst]
  | mov =>
    refine (h.place_stable _).bind fun dst _ => ?_
    refine (h.place_stable _).bind fun src hsrc => .same ?_
    rw [h.reg_of_place hsrc]
  | add | sub | mul | div | mod =>
    refine (h.place_stable _).bind fun dst hdst => ?_
    refine (h.place_stable _).bind fun a ha => ?_
    refine (h.place_stable _).bind fun b hb => .same ?_
    rw [h.reg_of_place hdst, h.reg_of_place ha, h.reg_of_place hb]
  | cmp =>
    refine (h.place_stable _).bind fun a ha => ?_
    refine (h.place_stable _).bind fun b hb => .same ?_
    rw [h.reg_of_place ha, h.reg_of_place hb]
  | jmp | jl | jg | je | jne | jz | jnz =>
    rw [h.flags]
    exact .same rfl
  | push =>
    refine (h.place_stable _).bind fun src hsrc => ?_
    rw [h.stack, h.reg_of_place hsrc]
    by_cases hs : small.stack < s.stack.size + ty.size
    · simp only [if_pos hs]
      exact .overflow rfl
    · have hs' : ¬ large.stack < s.stack.size + ty.size := by
        have := hl.stack
        omega
      simp only [if_neg hs, if_neg hs']
      exact .same rfl
  | pop =>
    refine (h.place_stable _).bind fun dst hdst => .same ?_
    rw [h.stack, h.reg_of_place hdst]
  | unknown c hc => exact .same rfl

inductive Next.Embeds : Next → Next → Prop
  | running {s t : State} : Machine.Embeds s t → Embeds (.running s) (.running t)
  | returned {s t : State} (v : Register) : Machine.Embeds s t →
      Embeds (.returned v s) (.returned v t)

theorem apply_embeds (h : Embeds s t) (next : Nat) (e : Effect) :
    (s.apply next e).Embeds (t.apply next e) := by
  cases e with
  | goOn => exact .running { h with pc := rfl }
  | jump pc => exact .running { h with pc := rfl }
  | write reg v =>
    refine .running { h with size := ?_, reg := ?_, pc := rfl }
    · simpa using h.size
    · intro j hj
      exact h.reg_set reg v (by simpa using hj)
  | compare flags => exact .running { h with flags := rfl, pc := rfl }
  | enter frame pc =>
    refine .running { h with frame := rfl, callers := ?_, pc := rfl }
    change t.frame :: t.callers = s.frame :: s.callers
    rw [h.frame, h.callers]
  | leave v =>
    unfold State.apply
    dsimp only
    rw [h.callers]
    cases s.callers with
    | nil => exact .returned v h
    | cons caller rest =>
      refine .running { h with
        size := ?_, reg := ?_, frame := rfl, callers := rfl, pc := by rw [h.frame] }
      · simpa using h.size
      · intro j hj
        change (t.regs.setIfInBounds t.frame.start.toNat v).getD j {} = _
        rw [h.frame]
        exact h.reg_set _ v (by simpa using hj)
  | push bytes =>
    refine .running { h with stack := ?_, pc := rfl }
    change t.stack ++ bytes = s.stack ++ bytes
    rw [h.stack]
  | pop count reg v =>
    refine .running { h with size := ?_, reg := ?_, stack := ?_, pc := rfl }
    · simpa using h.size
    · intro j hj
      exact h.reg_set reg v (by simpa using hj)
    · change t.stack.shrink (t.stack.size - count) = s.stack.shrink (s.stack.size - count)
      rw [h.stack]

theorem ended_eq (h : Embeds s t) (ending : Ending) (steps depth : Nat) :
    t.ended ending steps depth = s.ended ending steps depth := by
  unfold State.ended
  rw [h.stack, h.flags]

/-- With more room a run from a state goes the same way, unless it overflowed before. -/
theorem runFrom_eq_of_embeds (hl : small.AtMost large) (h : Embeds s t) (fuel steps : Nat)
    (hfault : ∀ e, (runFrom p small fuel steps s).ending = .failed e → e.fault.isOverflow = false) :
    runFrom p large fuel steps t = runFrom p small fuel steps s := by
  induction fuel generalizing s t steps with
  | zero =>
    unfold runFrom
    rw [h.depth_eq, ended_eq h]
  | succ fuel ih =>
    unfold runFrom at hfault ⊢
    rw [h.pc, h.depth_eq]
    cases hi : fetch p.image s.pc with
    | error e => exact ended_eq h _ _ _
    | ok i =>
      simp only [hi] at hfault ⊢
      rcases effect_stable (p := p) hl h i with heq | ⟨e, he, hover⟩
      · rw [heq]
        cases he : effect p small s i with
        | error e => exact ended_eq h _ _ _
        | ok e =>
          simp only [he] at hfault ⊢
          have hnext := apply_embeds h i.next e
          generalize s.apply i.next e = a at hfault hnext ⊢
          generalize t.apply i.next e = b at hnext ⊢
          cases hnext with
          | running h' => exact ih h' (steps + 1) hfault
          | returned v h' => exact ended_eq h' _ _ _
      · simp only [he] at hfault
        have hno : e.fault.isOverflow = false := hfault _ rfl
        rw [hno] at hover
        cases hover

/-- A machine that starts with fewer registers starts with more, in the same state. -/
theorem start_embeds (hl : small.AtMost large) {image : Image}
    (hs : start small image = .ok (p, s)) : ∃ t, start large image = .ok (p, t) ∧ Embeds s t := by
  unfold start at hs ⊢
  cases hh : Header.read image with
  | error e =>
    rw [hh] at hs
    cases hs
  | ok head =>
    rw [hh] at hs
    dsimp only at hs ⊢
    cases hf : Program.prologue ⟨image, head.functions, head.labels⟩ 0 with
    | error e =>
      rw [hf] at hs
      cases hs
    | ok f =>
      rw [hf] at hs
      dsimp only at hs ⊢
      by_cases hr : small.registers < f.regs
      · rw [if_pos hr] at hs
        cases hs
      · have hlarge := hl.registers
        rw [if_neg hr] at hs
        cases hs
        rw [if_neg (by omega)]
        refine ⟨_, rfl, ⟨?_, ?_, rfl, rfl, rfl, rfl, rfl⟩⟩
        · simpa using hlarge
        · intro j hj
          have hj : j < small.registers := by simpa using hj
          have hj' : j < large.registers := Nat.lt_of_lt_of_le hj hlarge
          simp [State.reg, Array.getD_eq_getD_getElem?, hj, hj']

/-- What keeps a machine from starting does so with more room too, unless it is an overflow. -/
theorem start_error {image : Image} {e : RunError} (hs : start small image = .error e)
    (he : e.fault.isOverflow = false) : start large image = .error e := by
  unfold start at hs ⊢
  cases hh : Header.read image with
  | error e' =>
    rw [hh] at hs
    exact hs
  | ok head =>
    rw [hh] at hs
    dsimp only at hs ⊢
    cases hf : Program.prologue ⟨image, head.functions, head.labels⟩ 0 with
    | error e' =>
      rw [hf] at hs
      exact hs
    | ok f =>
      rw [hf] at hs
      dsimp only at hs
      split at hs
      · cases hs
        cases he
      · cases hs

end

/-- More room never changes an outcome. Under limits that are at least as high in every respect, a run
of any image gives the same register or the same fault at the same place, after the same number of
steps and with the same machine left behind, unless it overflows under the lower limits. -/
theorem run_eq_of_atMost {small large : Limits} (hl : small.AtMost large) (image : Image) (fuel : Nat)
    (hfault : ∀ e, (run small image fuel).ending = .failed e → e.fault.isOverflow = false) :
    run large image fuel = run small image fuel := by
  unfold run at hfault ⊢
  cases hs : start small image with
  | error e =>
    rw [hs] at hfault
    rw [start_error hs (hfault e rfl)]
  | ok ps =>
    obtain ⟨p, s⟩ := ps
    obtain ⟨t, ht, hembeds⟩ := start_embeds hl hs
    rw [hs] at hfault
    rw [ht]
    exact runFrom_eq_of_embeds hl hembeds fuel 0 hfault

/-- A function calls another one, which takes its argument over the stack to a register that lies
beyond its window. -/
def beyond : Image :=
  #[0x80, 0, 0, 0x8A, 2, 0, 0, 0, 0, 0, 0, 0, 28, 0, 0, 0, 1, 0, 0, 0, 53, 0, 0, 0, 0, 0, 0, 0,
    0, 0, 1, 0, 0, 0, 3, 0, 4, 0, 0, 7, 0, 0, 0, 1, 0, 1, 0, 0, 0, 2, 0, 0, 0,
    0, 0, 1, 0, 1, 0, 18, 0, 4, 0, 0, 19, 0, 4, 1, 0, 2, 0, 1, 0]

theorem run_eq_of_atMost_beyond : (⟨2, 2, 4⟩ : Limits).AtMost ⟨3, 5, 4⟩ ∧
    (run ⟨2, 2, 4⟩ beyond 6).ending = .returned ⟨.s32, 7⟩ ∧
    run ⟨3, 5, 4⟩ beyond 6 = run ⟨2, 2, 4⟩ beyond 6 := by
  have hl : (⟨2, 2, 4⟩ : Limits).AtMost ⟨3, 5, 4⟩ := ⟨by decide, by decide, by decide⟩
  have hend : (run ⟨2, 2, 4⟩ beyond 6).ending = .returned ⟨.s32, 7⟩ := by decide +kernel
  refine ⟨hl, hend, run_eq_of_atMost hl beyond 6 ?_⟩
  intro e he
  rw [hend] at he
  cases he

end Machine

end RegisterLang
