import RegisterLang.Proofs.Access

/-!
# Memory safety

What holds of a state whenever a step begins is kept by every instruction, whatever the bytes of the
image are. So the machine that checks its accesses never finds one out of range.
-/
namespace RegisterLang.Machine

def Effect.Bounded (limits : Limits) (s : State) (next : Nat) : Effect → Prop
  | .enter frame _ =>
    0 ≤ frame.start ∧ frame.start ≤ frame.stop ∧ frame.stop ≤ s.regs.size ∧
      frame.ret = next ∧ s.depth + 1 ≤ limits.frames
  | .push bytes => s.stack.size + bytes.length ≤ limits.stack
  | _ => True

section
variable {p : Program} {limits : Limits} {s s' : State} {next : Nat}

theorem bounded_callFrame {index : UInt32} {e : Effect}
    (h : callFrame p limits s index next = .ok e) : e.Bounded limits s next := by
  unfold callFrame at h
  cases hf : p.prologue index with
  | error e =>
    rw [hf] at h
    cases h
  | ok f =>
    rw [hf] at h
    by_cases hframes : limits.frames ≤ s.depth
    · simp only [if_pos hframes] at h
      cases h
    · simp only [if_neg hframes] at h
      change (if _ then _ else _) = _ at h
      by_cases hwindow : s.frame.stop - f.args < 0 ∨ s.regs.size < s.frame.stop - f.args + f.regs
      · rw [if_pos hwindow] at h
        cases h
      · rw [if_neg hwindow] at h
        cases h
        have hdepth : s.depth + 1 ≤ limits.frames := Nat.lt_of_not_le hframes
        refine ⟨?_, ?_, ?_, rfl, hdepth⟩ <;> dsimp only <;> omega

theorem exists_of_bind_eq_ok {α : Type} {r : Except RunFault α} {f : α → Except RunFault Effect}
    {e : Effect} (h : (r >>= f) = .ok e) : ∃ a, f a = .ok e := by
  cases r with
  | error e => cases h
  | ok a => exact ⟨a, h⟩

theorem bounded_effect {i : Fetched} {e : Effect} (h : effect p limits s i = .ok e) :
    e.Bounded limits s i.next := by
  obtain ⟨op, t, next⟩ := i
  unfold effect at h
  cases op with
  | func =>
    cases h
    trivial
  | call => exact bounded_callFrame h
  | ret | set =>
    obtain ⟨_, h⟩ := exists_of_bind_eq_ok h
    cases h
    trivial
  | mov | cmp =>
    obtain ⟨_, h⟩ := exists_of_bind_eq_ok h
    obtain ⟨_, h⟩ := exists_of_bind_eq_ok h
    cases h
    trivial
  | add | sub | mul | div | mod =>
    obtain ⟨_, h⟩ := exists_of_bind_eq_ok h
    obtain ⟨_, h⟩ := exists_of_bind_eq_ok h
    obtain ⟨_, h⟩ := exists_of_bind_eq_ok h
    split at h
    · cases h
      trivial
    · cases h
  | jmp | jl | jg | je | jne | jz | jnz =>
    dsimp only at h
    split at h
    · cases h
      split <;> trivial
    · cases h
  | push =>
    obtain ⟨src, h⟩ := exists_of_bind_eq_ok h
    dsimp only at h
    split at h
    · cases h
    next hroom =>
      cases h
      change s.stack.size + (littleEndian t.size _).length ≤ limits.stack
      rw [littleEndian_length]
      exact Nat.le_of_not_lt hroom
  | pop =>
    obtain ⟨dst, h⟩ := exists_of_bind_eq_ok h
    dsimp only at h
    split at h
    · cases h
    · cases h
      trivial
  | unknown c _ => cases h

theorem eq_of_returned {e : Effect} {v : Register}
    (h : s.apply next e = .returned v s') : s' = s := by
  cases e with
  | leave value =>
    rw [State.apply] at h
    split at h
    · cases h
      rfl
    · cases h
  | _ => cases h

end

inductive Visited (limits : Limits) (image : Image) (p : Program) : State → Prop
  | start {s : State} : start limits image = .ok (p, s) → Visited limits image p s
  | step {s s' : State} : Visited limits image p s → step p limits s = .ok (.running s') →
      Visited limits image p s'

namespace Guarded
open Checked Text

section
variable {p : Program} {limits : Limits} {s s' : State} {next : Nat}

/-- A state with the windows of a safe one is safe if its stack is not too large. -/
theorem safe_of_frames (hs : (view s).Safe limits) (hframes : (view s').frames = (view s).frames)
    (hregs : s'.regs.size = s.regs.size) (hstack : s'.stack.size ≤ limits.stack) :
    (view s').Safe limits where
  active := List.cons_ne_nil _ _
  depth := by
    rw [hframes]
    exact hs.depth
  window f hf := by
    have hsize : (view s').regs.size = (view s).regs.size := hregs
    rw [hframes] at hf
    rw [hsize]
    exact hs.window f hf
  ret f hf := by
    rw [hframes] at hf
    exact hs.ret f hf
  base := rfl
  pc := Int.natCast_nonneg _
  size := hregs.trans hs.size
  stack := hstack

theorem safe_enter {frame : Frame} {pc : Nat} (hs : (view s).Safe limits)
    (he : Effect.Bounded limits s next (.enter frame pc)) :
    (view { s with frame, callers := s.frame :: s.callers, pc }).Safe limits := by
  obtain ⟨hstart, hstop, hsize, hret, hdepth⟩ := he
  have hwindow : ∀ f ∈ frame :: (view s).frames,
      0 ≤ f.start ∧ f.start ≤ f.stop ∧ f.stop ≤ s.regs.size := by
    intro f hf
    rcases List.mem_cons.mp hf with rfl | hf
    · exact ⟨hstart, hstop, hsize⟩
    · exact hs.window f hf
  have hrets : ∀ f ∈ frame :: (view s).frames.dropLast, 0 ≤ f.ret := by
    intro f hf
    rcases List.mem_cons.mp hf with rfl | hf
    · rw [hret]
      exact Int.natCast_nonneg next
    · exact hs.ret f hf
  exact
    { active := List.cons_ne_nil _ _
      depth := hdepth
      window := hwindow
      ret := hrets
      base := rfl
      pc := Int.natCast_nonneg _
      size := hs.size
      stack := hs.stack }

theorem safe_leave {caller : Frame} {rest : List Frame} {reg pc : Nat} {v : Register}
    (hs : (view s).Safe limits) (hcallers : s.callers = caller :: rest) :
    (view { s with
      regs := s.regs.setIfInBounds reg v, frame := caller, callers := rest, pc }).Safe limits := by
  have hframes : (view s).frames = s.frame :: caller :: rest := congrArg (s.frame :: ·) hcallers
  have hregs : (s.regs.setIfInBounds reg v).size = s.regs.size := Array.size_setIfInBounds
  have hdepth : (caller :: rest).length ≤ limits.frames := by
    have := hs.depth
    rw [hframes, List.length_cons] at this
    omega
  have hwindow : ∀ f ∈ caller :: rest,
      0 ≤ f.start ∧ f.start ≤ f.stop ∧ f.stop ≤ (s.regs.setIfInBounds reg v).size := by
    intro f hf
    rw [hregs]
    apply hs.window
    rw [hframes]
    exact List.mem_cons_of_mem _ hf
  have hrets : ∀ f ∈ (caller :: rest).dropLast, 0 ≤ f.ret := by
    intro f hf
    apply hs.ret
    rw [hframes]
    exact List.mem_cons_of_mem _ hf
  exact
    { active := List.cons_ne_nil _ _
      depth := hdepth
      window := hwindow
      ret := hrets
      base := rfl
      pc := Int.natCast_nonneg _
      size := hregs.trans hs.size
      stack := hs.stack }

/-- Every effect keeps what holds whenever a step begins. -/
theorem safe_apply {e : Effect} (hs : (view s).Safe limits) (he : e.Bounded limits s next)
    (h : s.apply next e = .running s') : (view s').Safe limits := by
  cases e with
  | goOn | jump | compare =>
    cases h
    exact safe_of_frames hs rfl rfl hs.stack
  | write reg value =>
    cases h
    exact safe_of_frames hs rfl Array.size_setIfInBounds hs.stack
  | enter frame pc =>
    cases h
    exact safe_enter hs he
  | leave value =>
    cases hcallers : s.callers with
    | nil =>
      rw [State.apply, hcallers] at h
      cases h
    | cons caller rest =>
      rw [State.apply, hcallers] at h
      cases h
      exact safe_leave hs hcallers
  | push bytes =>
    cases h
    have hsize : (s.stack ++ bytes).size = s.stack.size + bytes.length := by
      rw [← Array.length_toList, Array.toList_appendList, List.length_append, Array.length_toList]
    have hstack : (s.stack ++ bytes).size ≤ limits.stack := by
      rw [hsize]
      exact he
    exact safe_of_frames hs rfl rfl hstack
  | pop count reg value =>
    cases h
    have hsize : (s.stack.shrink (s.stack.size - count)).size ≤ s.stack.size := by
      rw [Array.size_shrink]
      exact Nat.min_le_right _ _
    exact safe_of_frames hs rfl Array.size_setIfInBounds (Nat.le_trans hsize hs.stack)

theorem start?_eq (limits : Limits) (image : Image) :
    start? limits image =
      Checked.ofExcept ((start limits image).map fun ps => (ps.1, view ps.2)) := by
  unfold start? start
  rw [readHeader?_eq]
  cases Header.read image with
  | error e => rfl
  | ok h =>
    change (mapFault RunError.start (prologue? ⟨image, h.functions, h.labels⟩ 0) >>= _) = _
    rw [prologue?_eq]
    dsimp only
    cases Program.prologue ⟨image, h.functions, h.labels⟩ 0 with
    | error e => rfl
    | ok f =>
      dsimp only
      change (if _ then _ else _) = _
      by_cases hregs : limits.registers < f.regs
      · rw [if_pos hregs, if_pos hregs]
        rfl
      · rw [if_neg hregs, if_neg hregs]
        rfl

theorem safe_start {image : Image} (hframes : 1 ≤ limits.frames)
    (h : start limits image = .ok (p, s)) : (view s).Safe limits := by
  unfold start at h
  split at h
  · cases h
  dsimp only at h
  split at h
  · cases h
  next f _ =>
  by_cases hregs : limits.registers < f.regs
  · rw [if_pos hregs] at h
    cases h
  · rw [if_neg hregs] at h
    cases h
    have hsize : (Array.replicate limits.registers ({} : Register)).size = limits.registers :=
      Array.size_replicate
    have hwindow : ∀ w ∈ [(⟨0, f.regs, -1⟩ : Frame)], 0 ≤ w.start ∧ w.start ≤ w.stop ∧
        w.stop ≤ (Array.replicate limits.registers ({} : Register)).size := by
      intro w hw
      rw [List.mem_singleton.mp hw, hsize]
      dsimp only
      omega
    exact
      { active := List.cons_ne_nil _ _
        depth := hframes
        window := hwindow
        ret := fun _ hf => absurd hf List.not_mem_nil
        base := rfl
        pc := Int.natCast_nonneg _
        size := hsize
        stack := Nat.zero_le _ }

theorem runFrom?_eq (hs : (view s).Safe limits) (fuel steps : Nat) :
    runFrom? p limits fuel steps (view s) = some (runFrom p limits fuel steps s) := by
  induction fuel generalizing s steps with
  | zero => rfl
  | succ fuel ih =>
    have hpc : (view s).pc = s.pc := rfl
    unfold runFrom? runFrom
    rw [hpc, fetch?_eq]
    cases hi : fetch p.image s.pc with
    | error e => rfl
    | ok i =>
      cases he : effect p limits s i with
      | error e =>
        have hperform : perform? p limits (view s) (.ofFetched i) = fault e := by
          rw [perform?_eq hs hi, he]
          rfl
        simp only [Except.map, ofExcept_ok, hperform, he]
        rfl
      | ok e =>
        have hperform : perform? p limits (view s) (.ofFetched i) =
            done (viewNext (s.apply i.next e)) := by
          rw [perform?_eq hs hi, he]
          rfl
        simp only [Except.map, ofExcept_ok, hperform, he]
        cases ha : s.apply i.next e with
        | running s' =>
          have hsafe := safe_apply hs (bounded_effect he) ha
          exact ih hsafe (steps + 1)
        | returned v s' =>
          rw [eq_of_returned ha]
          rfl

theorem run?_eq (hframes : 1 ≤ limits.frames) (image : Image) (fuel : Nat) :
    run? limits image fuel = some (run limits image fuel) := by
  unfold run? run
  rw [start?_eq]
  cases hstart : start limits image with
  | error e => rfl
  | ok ps =>
    have hsafe := safe_start hframes hstart
    exact runFrom?_eq hsafe fuel 0

end

section
variable {limits : Limits} {image : Image} {p : Program} {s s' : State}

theorem safe_of_visited (hframes : 1 ≤ limits.frames) (h : Visited limits image p s) :
    (view s).Safe limits := by
  induction h with
  | start hstart => exact safe_start hframes hstart
  | step _ hstep ih =>
    obtain ⟨i, e, -, he, ha⟩ := step_eq_ok_iff.mp hstep
    exact safe_apply ih (bounded_effect he) ha

/-- The steps of the checked loop are those of the machine. -/
theorem step_iff {l : Loop} (hs : (view s).Safe limits) :
    (∃ i, fetch? p.image (view s).pc = done i ∧ perform? p limits (view s) i = done (.inl l)) ↔
      ∃ s', step p limits s = .ok (.running s') ∧ view s' = l := by
  have hpc : (view s).pc = s.pc := rfl
  rw [hpc, fetch?_eq]
  constructor
  · rintro ⟨i, hi, hl⟩
    cases hfetch : fetch p.image s.pc with
    | error e =>
      rw [hfetch] at hi
      cases hi
    | ok i' =>
      rw [hfetch] at hi
      cases hi
      rw [perform?_eq hs hfetch] at hl
      cases he : effect p limits s i' with
      | error e =>
        rw [he] at hl
        cases hl
      | ok e =>
        have hnext : viewNext (s.apply i'.next e) = .inl l := by
          rw [he] at hl
          exact Checked.done.inj hl
        cases ha : s.apply i'.next e with
        | running s' =>
          rw [ha] at hnext
          exact ⟨s', step_eq_ok_iff.mpr ⟨i', e, hfetch, he, ha⟩, Sum.inl.inj hnext⟩
        | returned v s' =>
          rw [ha] at hnext
          cases hnext
  · rintro ⟨s', hstep, rfl⟩
    obtain ⟨i, e, hi, he, ha⟩ := step_eq_ok_iff.mp hstep
    refine ⟨.ofFetched i, ?_, ?_⟩
    · rw [hi]
      rfl
    · rw [perform?_eq hs hi, he]
      exact congrArg (fun n => done (viewNext n)) ha

theorem reached_iff (hframes : 1 ≤ limits.frames) {l : Loop} :
    Reached limits image p l ↔ ∃ s, Visited limits image p s ∧ view s = l := by
  constructor
  · intro h
    induction h with
    | start hl =>
      rw [start?_eq] at hl
      cases hstart : start limits image with
      | error e =>
        rw [hstart] at hl
        cases hl
      | ok ps =>
        rw [hstart] at hl
        cases hl
        exact ⟨ps.2, .start hstart, rfl⟩
    | step _ hi hl ih =>
      obtain ⟨s, hvisited, rfl⟩ := ih
      obtain ⟨s', hstep, rfl⟩ := (step_iff (safe_of_visited hframes hvisited)).mp ⟨_, hi, hl⟩
      exact ⟨s', hvisited.step hstep, rfl⟩
  · rintro ⟨s, hvisited, rfl⟩
    induction hvisited with
    | start hstart =>
      apply Reached.start
      rw [start?_eq, hstart]
      rfl
    | step hvisited hstep ih =>
      obtain ⟨i, hi, hl⟩ := (step_iff (safe_of_visited hframes hvisited)).mpr ⟨_, hstep, rfl⟩
      exact ih.step hi hl

end

/-- On every image the machine that checks its accesses finds none out of range and does what the
machine does. It begins its steps in the same states, and all of them are safe. -/
theorem run_in_range (image : Image) (registers frames stack : Int) :
    let limits := Limits.ofSettings registers frames stack
    (∀ fuel, run? limits image fuel = some (run limits image fuel)) ∧
      ∀ p l, (Reached limits image p l ↔ ∃ s, Visited limits image p s ∧ view s = l) ∧
        (Reached limits image p l → l.Safe limits) := by
  intro limits
  have hframes : 1 ≤ limits.frames := one_le_frames registers frames stack
  refine ⟨run?_eq hframes image, fun p l => ⟨reached_iff hframes, ?_⟩⟩
  intro h
  obtain ⟨s, hvisited, rfl⟩ := (reached_iff hframes).mp h
  exact safe_of_visited hframes hvisited

end Guarded

end RegisterLang.Machine
