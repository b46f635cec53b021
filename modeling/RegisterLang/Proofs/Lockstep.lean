import RegisterLang.Proofs.Convention

/-!
# Machines in step

No instruction reads the kind of a register, and none reaches a frame below the one in which a call
was made before that call returns. So two machines whose registers have the same bits, and of which
one has more frames below, take the same steps until the other returns from its outermost frame.
-/
namespace RegisterLang

def Limits.above (limits : Limits) (n : Nat) : Limits := { limits with frames := limits.frames - n }

namespace Machine

/-- The same machine, except for the kinds of registers and the frames `outer` at the bottom of the
first one. -/
structure Alike (outer : List Frame) (s t : State) : Prop where
  bits : ∀ i, (s.reg i).bits = (t.reg i).bits
  size : s.regs.size = t.regs.size
  frame : s.frame = t.frame
  callers : s.callers = t.callers ++ outer
  stack : s.stack = t.stack
  flags : s.flags = t.flags
  pc : s.pc = t.pc

inductive Effect.Alike : Effect → Effect → Prop
  | goOn : Alike .goOn .goOn
  | jump (pc : Nat) : Alike (.jump pc) (.jump pc)
  | write (reg : Nat) {v v' : Register} : v.bits = v'.bits → Alike (.write reg v) (.write reg v')
  | compare (flags : Flags) : Alike (.compare flags) (.compare flags)
  | enter (frame : Frame) (pc : Nat) : Alike (.enter frame pc) (.enter frame pc)
  | leave {v v' : Register} : v.bits = v'.bits → Alike (.leave v) (.leave v')
  | push (bytes : Text.Bytes) : Alike (.push bytes) (.push bytes)
  | pop (count reg : Nat) {v v' : Register} : v.bits = v'.bits →
      Alike (.pop count reg v) (.pop count reg v')

theorem compute_of_bits {a b a' b' : Register} (ha : a.bits = a'.bits) (hb : b.bits = b'.bits)
    (op : Opcode) (t : RegType) : Operation.compute op t a b = Operation.compute op t a' b' := by
  unfold Operation.compute
  simp only [Register.s8, Register.u8, Register.s16, Register.u16, Register.s32, Register.u32,
    Register.s64, Register.u64, Register.float, Register.double, ha, hb]

theorem compare_of_bits {a b a' b' : Register} (ha : a.bits = a'.bits) (hb : b.bits = b'.bits)
    (t : RegType) : Operation.compare t a b = Operation.compare t a' b' := by
  unfold Operation.compare
  simp only [Register.s8, Register.u8, Register.s16, Register.u16, Register.s32, Register.u32,
    Register.s64, Register.u64, Register.float, Register.double, ha, hb]

theorem set_of_bits {a a' : Register} (h : a.bits = a'.bits) (t : RegType) (v : UInt64) :
    (a.set t v).bits = (a'.set t v).bits := by
  unfold Register.set
  rw [h]

section
variable {p : Program} {limits : Limits} {outer : List Frame} {s t s' : State} {next : Nat}

namespace Alike

theorem place_eq (h : Alike outer s t) (r : Reg) : t.place r = s.place r := by
  unfold State.place
  rw [h.frame, h.size]

theorem depth_eq (h : Alike outer s t) : s.depth = t.depth + outer.length := by
  unfold State.depth
  rw [h.callers, List.length_append]
  omega

theorem write (h : Alike outer s t) {v v' : Register} (hv : v.bits = v'.bits) (reg next i : Nat) :
    ((s.write reg v next).reg i).bits = ((t.write reg v' next).reg i).bits := by
  by_cases hi : i = reg
  · subst hi
    by_cases hlt : i < s.regs.size
    · rw [s.reg_write_self i v next hlt, t.reg_write_self i v' next (h.size ▸ hlt), hv]
    · have hs : (s.write i v next).reg i = s.reg i := by
        simp [State.write, State.reg, Array.setIfInBounds, hlt]
      have ht : (t.write i v' next).reg i = t.reg i := by
        simp [State.write, State.reg, Array.setIfInBounds, h.size ▸ hlt]
      rw [hs, ht, h.bits]
  · rw [s.reg_write_of_ne reg v next hi, t.reg_write_of_ne reg v' next hi, h.bits]

theorem callFrame (h : Alike outer s t) {index : UInt32} {e : Effect}
    (he : callFrame p limits s index next = .ok e) :
    callFrame p (limits.above outer.length) t index next = .ok e := by
  unfold Machine.callFrame at he ⊢
  have hframes : (limits.above outer.length).frames ≤ t.depth ↔ limits.frames ≤ s.depth := by
    rw [h.depth_eq]
    exact Nat.sub_le_iff_le_add
  rw [h.frame, h.size] at he
  simp only [hframes]
  by_cases hdepth : limits.frames ≤ s.depth
  · obtain ⟨f, -, he⟩ := eq_ok_of_bind he
    simp only [if_pos hdepth] at he
    cases he
  · simp only [if_neg hdepth] at he ⊢
    exact he

/-- What an instruction does in one machine it does in the other. -/
theorem effect (h : Alike outer s t) {i : Fetched} {e : Effect}
    (he : effect p limits s i = .ok e) :
    ∃ e', effect p (limits.above outer.length) t i = .ok e' ∧ e.Alike e' := by
  obtain ⟨op, ty, after⟩ := i
  unfold Machine.effect at he ⊢
  dsimp only at he ⊢
  rw [← h.pc]
  simp only [h.place_eq]
  cases op with
  | func =>
    cases he
    exact ⟨_, rfl, .goOn⟩
  | call =>
    have hcall := h.callFrame he
    obtain ⟨f, -, -, rfl⟩ := callFrame_eq_ok he
    exact ⟨_, hcall, .enter _ _⟩
  | ret =>
    obtain ⟨src, hsrc, he⟩ := eq_ok_of_bind he
    cases he
    simp only [hsrc]
    exact ⟨_, rfl, .leave (h.bits src)⟩
  | set =>
    obtain ⟨dst, hdst, he⟩ := eq_ok_of_bind he
    cases he
    simp only [hdst]
    exact ⟨_, rfl, .write dst (set_of_bits (h.bits dst) _ _)⟩
  | mov =>
    obtain ⟨dst, hdst, he⟩ := eq_ok_of_bind he
    obtain ⟨src, hsrc, he⟩ := eq_ok_of_bind he
    cases he
    simp only [hdst, hsrc]
    exact ⟨_, rfl, .write dst (h.bits src)⟩
  | cmp =>
    obtain ⟨a, ha, he⟩ := eq_ok_of_bind he
    obtain ⟨b, hb, he⟩ := eq_ok_of_bind he
    cases he
    simp only [ha, hb]
    refine ⟨_, rfl, ?_⟩
    rw [compare_of_bits (h.bits a) (h.bits b)]
    exact .compare _
  | add | sub | mul | div | mod =>
    obtain ⟨dst, hdst, he⟩ := eq_ok_of_bind he
    obtain ⟨a, ha, he⟩ := eq_ok_of_bind he
    obtain ⟨b, hb, he⟩ := eq_ok_of_bind he
    split at he
    next v hv =>
      cases he
      rw [compute_of_bits (h.bits a) (h.bits b)] at hv
      refine ⟨.write dst ((t.reg dst).set ty v), ?_, .write dst (set_of_bits (h.bits dst) _ v)⟩
      simp only [hdst, ha, hb, bind, Except.bind, hv]
      rfl
    · cases he
  | jmp | jl | jg | je | jne | jz | jnz =>
    dsimp only at he ⊢
    split at he
    next hl =>
      cases he
      rw [dif_pos hl, ← h.flags]
      refine ⟨_, rfl, ?_⟩
      split
      · exact .jump _
      · exact .goOn
    · cases he
  | push =>
    obtain ⟨src, hsrc, he⟩ := eq_ok_of_bind he
    split at he
    · cases he
    next hstack =>
      cases he
      rw [h.stack] at hstack
      simp only [hsrc]
      refine ⟨_, if_neg hstack, ?_⟩
      rw [h.bits]
      exact .push _
  | pop =>
    obtain ⟨dst, hdst, he⟩ := eq_ok_of_bind he
    split at he
    · cases he
    next hstack =>
      cases he
      rw [h.stack] at hstack
      simp only [hdst]
      refine ⟨_, if_neg hstack, ?_⟩
      rw [h.stack]
      exact .pop _ dst (set_of_bits (h.bits dst) _ _)
  | unknown c _ => cases he

/-- Both machines go on alike, unless the first one returns to the frames at its bottom. -/
theorem apply (h : Alike outer s t) {e e' : Effect} (he : e.Alike e')
    (ha : s.apply next e = .running s') (hdepth : outer.length < s'.depth) :
    ∃ t', t.apply next e' = .running t' ∧ Alike outer s' t' := by
  have hwrite := @h.write
  obtain ⟨hbits, hsize, hframe, hcallers, hstack, hflags, -⟩ := h
  cases he with
  | goOn =>
    cases ha
    exact ⟨_, rfl, hbits, hsize, hframe, hcallers, hstack, hflags, rfl⟩
  | jump pc =>
    cases ha
    exact ⟨_, rfl, hbits, hsize, hframe, hcallers, hstack, hflags, rfl⟩
  | write reg hv =>
    cases ha
    refine ⟨_, rfl, hwrite hv reg next, ?_, hframe, hcallers, hstack, hflags, rfl⟩
    simpa using hsize
  | compare flags =>
    cases ha
    exact ⟨_, rfl, hbits, hsize, hframe, hcallers, hstack, rfl, rfl⟩
  | enter frame pc =>
    cases ha
    refine ⟨_, rfl, hbits, hsize, rfl, ?_, hstack, hflags, rfl⟩
    rw [hframe, hcallers]
    rfl
  | leave hv =>
    cases hc : t.callers with
    | nil =>
      -- the window that is closed is the outermost one of the second machine
      rw [hc, List.nil_append] at hcallers
      cases outer with
      | nil =>
        rw [State.apply, hcallers] at ha
        cases ha
      | cons caller rest =>
        rw [State.apply, hcallers] at ha
        cases ha
        exact absurd hdepth (Nat.lt_irrefl _)
    | cons caller rest =>
      rw [hc, List.cons_append] at hcallers
      rw [State.apply, hcallers] at ha
      cases ha
      rw [State.apply, hc]
      refine ⟨_, rfl, ?_, ?_, rfl, rfl, hstack, hflags, congrArg (·.ret.toNat) hframe⟩
      · rw [← hframe]
        exact hwrite hv _ s.pc
      · simpa using hsize
  | push bytes =>
    cases ha
    refine ⟨_, rfl, hbits, hsize, hframe, hcallers, ?_, hflags, rfl⟩
    rw [hstack]
  | pop count reg hv =>
    cases ha
    refine ⟨_, rfl, hwrite hv reg next, ?_, hframe, hcallers, ?_, hflags, rfl⟩
    · simpa using hsize
    · rw [hstack]

theorem step (h : Alike outer s t) (hstep : step p limits s = .ok (.running s'))
    (hdepth : outer.length < s'.depth) :
    ∃ t', step p (limits.above outer.length) t = .ok (.running t') ∧ Alike outer s' t' := by
  obtain ⟨i, e, hi, he, ha⟩ := step_eq_ok_iff.mp hstep
  obtain ⟨e', he', halike⟩ := h.effect he
  obtain ⟨t', ha', ht'⟩ := h.apply halike ha hdepth
  rw [h.pc] at hi
  exact ⟨t', step_eq_ok_iff.mpr ⟨i, e', hi, he', ha'⟩, ht'⟩

/-- Where the first machine returns to the frames at its bottom the second one ends with the same
value. -/
theorem returned (h : Alike outer s t) {v : Register} (hleaves : AboutToReturn p s v)
    (hcallers : t.callers = []) :
    ∃ v', Machine.step p limits t = .ok (.returned v' t) ∧ v'.bits = v.bits := by
  obtain ⟨i, r, hi, hop, hr, rfl⟩ := hleaves
  rw [h.pc] at hi hr
  rw [← h.place_eq] at hr
  refine ⟨t.reg r, step_eq_ok_iff.mpr ⟨i, .leave (t.reg r), hi, ?_, ?_⟩, (h.bits r).symm⟩
  · unfold Machine.effect
    rw [hop]
    simp only [hr]
    rfl
  · rw [State.apply, hcallers]

end Alike

end

end Machine
end RegisterLang
