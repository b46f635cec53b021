import RegisterLang.Proofs.Statements

/-!
# Functions that are run

A call opens a window, runs the body of the function and leaves its value where the arguments were.
That it follows the evaluation of the call is shown from the deepest frame on upwards: where all
frames are open a call fails, and elsewhere the body of the callee runs one frame deeper.
-/
namespace RegisterLang.Machine
open Lowering Reference

namespace Scene
variable {c : Scene}

/-- The arguments are the variables of the environment in which a body begins. -/
theorem holdsEnv_params {vs : List Nat} (hmissing : ∀ p ∈ c.current.function.params,
      p.init.isMissing = true)
    (hvs : ∀ i p v, c.current.function.params[i]? = some p → vs[i]? = some v →
      HoldsAs c.bare (c.entry.reg (c.base + i)) p.type v) :
    c.HoldsEnv ((c.current.function.params.map Var.name).zip vs) c.entry := by
  intro name a hlookup
  obtain ⟨before, after, hzip, -⟩ := List.lookup_eq_some_iff.mp hlookup
  have hi : ((c.current.function.params.map Var.name).zip vs)[before.length]? = some (name, a) := by
    simp [hzip]
  obtain ⟨hname, ha⟩ := List.getElem?_zip_eq_some.mp hi
  rw [List.getElem?_map, Option.map_eq_some_iff] at hname
  obtain ⟨p, hp, rfl⟩ := hname
  obtain ⟨v, hv, hreg, hty⟩ := c.sound.params _ p hp
  refine ⟨v, hv, ?_⟩
  have hlt : before.length < maxRegs := by
    have hlen := (List.getElem?_eq_some_iff.mp hp).1
    have hargs : c.current.function.params.length ≤ c.current.locals := c.sound.args
    have hsizes := c.sound.sizes
    omega
  have hplace : v.reg.toNat = before.length := by
    rw [hreg, Nat.toUInt16, UInt16.toNat_ofNat']
    unfold maxRegs at hlt
    omega
  rw [hplace, hty (hmissing p (List.mem_of_getElem? hp))]
  exact hvs _ p a hp ha

/-- The code of a body follows the execution of it to a `return`. -/
theorem meets_body {items : List Item} {vs : List Nat} {r : Outcome (Option Nat)}
    (hmem : c.current ∈ c.layouts) (hpaired : Paired (.all c.current.function.body))
    (h : LowersBody c.scope items) (hlaid : Laid c.program c.entry.pc items)
    (hr : Expected c.deep r (ProgramTyped c.functions c.layouts ∧
      ∀ i p v, c.current.function.params[i]? = some p → vs[i]? = some v →
        HoldsAs c.bare (c.entry.reg (c.base + i)) p.type v)
      (runBody c.functions c.call c.bare c.current.function vs)) :
    Meets c.toSetting r
      (fun s' => Inside c.entry s' ∧ (∀ i, i < c.base → s'.reg i = c.entry.reg i) ∧ c.AtReturn s')
      (fun v s' => ∀ x, v = some x → HoldsAs c.bare (s'.reg c.base) c.current.function.ret x)
      c.entry := by
  obtain ⟨n, n', body, hbody, rfl⟩ := h
  rw [laid_append] at hlaid
  refine Meets.bind hr (fun r' hr' => executes hbody c.sound.body hpaired _ c.entry r' ⟨rfl, rfl, rfl⟩
    hlaid.1 (hr'.mono fun hC => ⟨⟨hC.1, ?_⟩, (hC.1 _ hmem).2⟩)) ?_
  · exact holdsEnv_params (hC.1 _ hmem).1 hC.2
  rintro s' flow hp hr'
  have hret : c.AtReturn s' := by
    rcases hp.ends with ⟨hpc, hno⟩ | hret
    · have hno : c.scope.current.function.body.getLast?.any isReturn = false := hno
      rw [if_neg (by simp [hno]), ← hpc] at hlaid
      exact ⟨_, hlaid.2.1⟩
    · exact hret
  cases flow with
  | next env => exact Meets.here hr' ⟨hp.toInside, hp.kept, hret⟩ fun _ => nofun
  | returned v => exact Meets.here hr' ⟨hp.toInside, hp.kept, hret⟩ fun hC => hC.2.2

end Scene

/-- A program of which it is known what its code stands for. -/
structure Accepted where
  program : Program
  layouts : List Layout
  functions : List Function
  linked : Linked layouts program
  sound : ∀ l ∈ layouts, l.Sound
  paired : ∀ l ∈ layouts, Paired (.all l.function.body)
  function?_eq : ∀ l ∈ layouts, function? functions l.function.name = some l.function

structure Entered (l : Layout) (s : State) : Prop where
  start : 0 ≤ s.frame.start
  stop : s.frame.stop = s.frame.start + l.regs
  stop_le : s.frame.stop ≤ s.regs.size

namespace Accepted
variable (a : Accepted) (limits : Limits) (bare : Bare)

def setting (s : State) (n : Nat) : Setting where
  program := a.program
  limits := limits
  bare := bare
  room := s.depth + n ≤ limits.frames ∧ s.frame.stop + n * maxRegs ≤ s.regs.size
  deep := s.depth + n ≤ limits.frames

def BodiesMeet (depth : Nat) : Prop :=
  ∀ l ∈ a.layouts, ∀ s n vs r items, s.depth = depth → Entered l s → LowersBody ⟨a.layouts, l⟩ items →
    Laid a.program s.pc items →
    Expected (a.setting limits bare s n).deep r (ProgramTyped a.functions a.layouts ∧
      ∀ i p v, l.function.params[i]? = some p → vs[i]? = some v →
        HoldsAs bare (s.reg (s.base + i)) p.type v)
      (runBody a.functions (callFunction a.functions bare n) bare l.function vs) →
    Meets (a.setting limits bare s n) r
      (fun s' => Inside s s' ∧ (∀ i, i < s.base → s'.reg i = s.reg i) ∧
        ∃ next, Instr.decodeAt a.program.image s'.pc = .ok (.ret 0, next))
      (fun v s' => ∀ x, v = some x → HoldsAs bare (s'.reg s.base) l.function.ret x) s

variable {a limits bare} {entry : State}

/-- A `return` closes the window; the value is already where the caller finds it. -/
theorem leads_return {p : Program} {s : State} {caller : Frame} {rest : List Frame} {next : Nat}
    (h : Instr.decodeAt p.image s.pc = .ok (.ret 0, next)) (hsize : s.base < s.regs.size)
    (hcallers : s.callers = caller :: rest) :
    Leads p limits (fun s' => s'.frame = caller ∧ s'.callers = rest ∧
        s'.regs.size = s.regs.size ∧ s'.pc = s.frame.ret.toNat ∧ ∀ i, s'.reg i = s.reg i)
      (fun _ => False) s := by
  have hstep : step p limits s = _ := step_ret h hsize
  rw [State.apply, hcallers] at hstep
  refine .step hstep (.here ⟨rfl, rfl, by simp, rfl, fun i => ?_⟩)
  change (s.write s.base (s.reg s.base) next).reg i = s.reg i
  by_cases hi : i = s.base
  · rw [hi, s.reg_write_self _ _ _ hsize]
  · exact s.reg_write_of_ne _ _ _ hi

/-- Of a call that nests too deep nothing is expected. -/
theorem expected_call {deep C : Prop} {n : Nat} {f : Function} {vs : List Nat}
    {r : Outcome (Option Nat)} (hr : Expected deep r C (callFunction a.functions bare n f vs))
    (hdeep : n = 0 → deep) :
    Open deep r ∨ ∃ m, n = m + 1 ∧
      Expected deep r C (runBody a.functions (callFunction a.functions bare m) bare f vs) := by
  rcases hr with hr | ⟨hC, hr⟩
  · exact .inl hr
  · cases n with
    | zero => exact .inl (.inr (.inr ⟨hr, hdeep rfl⟩))
    | succ m => exact .inr ⟨m, rfl, .inr ⟨hC, hr⟩⟩

/-- `s₁` is the state in which a function begins that is called in `s`. -/
structure Opens (s s₁ : State) (first next : Nat) : Prop where
  regs : s₁.regs = s.regs
  callers : s₁.callers = s.frame :: s.callers
  ret : s₁.frame.ret = next
  base : s₁.base = first
  first_lt : first < s.regs.size

/-- What a body has to do for a call of it. -/
theorem meets_return {l : Layout} {s s₁ : State} {first next : Nat} {c : Setting}
    {r : Outcome (Option Nat)} (hs : Inside entry s) (ho : Opens s s₁ first next)
    (h : Meets c r
      (fun s' => Inside s₁ s' ∧ (∀ i, i < s₁.base → s'.reg i = s₁.reg i) ∧
        ∃ next, Instr.decodeAt c.program.image s'.pc = .ok (.ret 0, next))
      (fun v s' => ∀ x, v = some x → HoldsAs bare (s'.reg s₁.base) l.function.ret x) s₁) :
    Meets c r (fun s' => Passes entry s s' next (· < first) ∧ first < s'.regs.size)
      (fun v s' => ∀ x, v = some x → HoldsAs bare (s'.reg first) l.function.ret x) s₁ := by
  refine h.andThen ?_
  rintro s₂ ⟨hin, hkept, after, hdecode⟩
  have hbase : s₂.base = first := hin.base_eq.trans ho.base
  have hsize : s₂.regs.size = s.regs.size := by rw [hin.size, ho.regs]
  refine (leads_return hdecode (by rw [hbase, hsize]; exact ho.first_lt)
    (hin.callers.trans ho.callers)).mono ?_ fun _ he => he
  rintro s₃ ⟨hframe, hrest, hsize₃, hpc, hreg⟩
  rw [hsize] at hsize₃
  refine ⟨⟨⟨⟨hframe.trans hs.frame, hrest.trans hs.callers, hsize₃.trans hs.size⟩, ?_, ?_⟩, ?_⟩, ?_⟩
  · rw [hpc, hin.frame, ho.ret]
    rfl
  · intro i hi
    rw [hreg, hkept i (ho.base ▸ hi), State.reg, ho.regs, State.reg]
  · rw [hsize₃]
    exact ho.first_lt
  · intro v hv x hx
    rw [hreg, ← ho.base]
    exact hv x hx

/-- A call opens the window of the function, or frames or registers are used up. -/
theorem step_call_cases (limits : Limits) (bare : Bare) {l callee : Layout} {s : State} {next pc : Nat}
    (hs : Inside entry s) (hentered : Entered l entry) (hsound : callee.Sound)
    (hargs : callee.args ≤ l.regs)
    (hcall : Instr.decodeAt a.program.image s.pc = .ok (.call callee.index.toUInt32, next))
    (hprologue : a.program.prologue callee.index.toUInt32 = .ok ⟨callee.regs, callee.args, pc⟩) :
    (∃ e : RunFault, step a.program limits s = .error e ∧ e.isOverflow ∧
      ∀ n, ¬ (a.setting limits bare entry (n + 1)).room) ∨
    ∃ s₁, step a.program limits s = .ok (.running s₁) ∧ entry.depth < limits.frames ∧
      s₁.depth = entry.depth + 1 ∧ s₁.pc = pc ∧ s₁.frame.stop ≤ entry.frame.stop + maxRegs ∧
      Entered callee s₁ ∧ Opens s s₁ (entry.base + (l.regs - callee.args)) next := by
  have hstep : step a.program limits s = _ := step_call hcall hprologue
  have hsizes := hsound.sizes
  have hlocals := hsound.args
  obtain ⟨hstart, hstop, hstop_le⟩ := hentered
  have hdepth : s.depth = entry.depth := by rw [State.depth, hs.callers]; rfl
  have hmul : ∀ n : Nat, (n + 1) * maxRegs = n * maxRegs + maxRegs := fun n => Nat.succ_mul n _
  simp only [hdepth, hs.frame, hs.size] at hstep
  split at hstep
  next hframes =>
    refine .inl ⟨_, hstep, rfl, fun n hroom => ?_⟩
    have := hroom.1
    omega
  next hframes =>
  split at hstep
  next hwindow =>
    refine .inl ⟨_, hstep, rfl, fun n hroom => ?_⟩
    have := hroom.2
    have := hmul n
    omega
  next hwindow =>
    refine .inr ⟨_, hstep, by omega, ?_, rfl, ?_, ⟨?_, rfl, ?_⟩, ⟨rfl, ?_, rfl, ?_, ?_⟩⟩
    · rw [← hdepth]
      rfl
    · dsimp only
      omega
    · dsimp only
      omega
    · rw [hs.size]
      dsimp only
      omega
    · rw [hs.frame]
    · dsimp only [State.base]
      omega
    · rw [hs.size]
      unfold State.base
      omega

/-- A call follows the evaluation of it if the bodies one frame deeper do. -/
theorem callMeets_of_bodiesMeet {l callee : Layout} {n : Nat}
    (hbodies : entry.depth < limits.frames → a.BodiesMeet limits bare (entry.depth + 1))
    (hdepth : entry.depth ≤ limits.frames) (hentered : Entered l entry)
    (hcallee : callee ∈ a.layouts) (hargs : callee.args ≤ l.regs) :
    CallMeets (a.setting limits bare entry n) (ProgramTyped a.functions a.layouts) entry
      (entry.base + (l.regs - callee.args)) callee (callFunction a.functions bare n) := by
  intro s next vs r hs hcall hr
  have hr := expected_call hr fun hn => by subst hn; exact hdepth
  obtain ⟨pc, items, hprologue, hlowers, hlaid⟩ := a.linked.body callee hcallee
  rcases step_call_cases limits bare hs hentered (a.sound callee hcallee) hargs hcall
    hprologue with ⟨e, hstep, he, hroom⟩ | ⟨s₁, hstep, hframes, hdepth₁, rfl, hstop, hentered₁, ho⟩
  · refine .fault hstep ?_
    rcases hr with hopen | ⟨m, rfl, -⟩
    · exact hopen.permits (.inl he)
    · exact permits_overflow r he (hroom m)
  refine .step hstep ?_
  have hbody := fun m r => hbodies hframes callee hcallee s₁ m vs r items hdepth₁ hentered₁ hlowers
    hlaid
  rcases hr with hopen | ⟨m, rfl, hr⟩
  · exact (meets_return hs ho (hbody 0 .undefined (.inl (.inl rfl)))).of_open rfl rfl hopen
  · have hdeep : (a.setting limits bare entry (m + 1)).deep ↔ (a.setting limits bare s₁ m).deep := by
      unfold setting
      rw [hdepth₁]
      omega
    rw [propext hdeep] at hr
    refine (meets_return hs ho (hbody m r (hr.mono fun hC => ⟨hC.1, ?_⟩))).change rfl rfl ?_ hdeep
    · intro i p v hp hv
      rw [ho.base, State.reg, ho.regs]
      exact hC.2.2 i p v hp hv
    · rintro ⟨hroom, hroom'⟩
      have : (m + 1) * maxRegs = m * maxRegs + maxRegs := Nat.succ_mul _ _
      refine ⟨hdeep.mp hroom, ?_⟩
      rw [ho.regs, hs.size]
      omega

theorem bodiesMeet_of_next {depth : Nat}
    (hnext : depth < limits.frames → a.BodiesMeet limits bare (depth + 1))
    (hdepth : depth ≤ limits.frames) : a.BodiesMeet limits bare depth := by
  rintro l hl s n vs r items rfl hentered hlowers hlaid hr
  let c : Scene :=
    { a.setting limits bare s n with
      layouts := a.layouts
      current := l
      entry := s
      functions := a.functions
      call := callFunction a.functions bare n
      sound := a.sound l hl
      start := hentered.start
      stop := hentered.stop
      stop_le := hentered.stop_le
      function?_eq := a.function?_eq
      callee_sound := a.sound
      calls := fun callee hcallee hargs =>
        callMeets_of_bodiesMeet hnext hdepth hentered hcallee hargs }
  exact c.meets_body hl (a.paired l hl) hlowers hlaid hr

/-- The bodies of all functions follow the execution of them, at every depth that there is. -/
theorem bodiesMeet {depth : Nat} (hdepth : depth ≤ limits.frames) : a.BodiesMeet limits bare depth := by
  induction hk : limits.frames - depth generalizing depth with
  | zero => exact bodiesMeet_of_next (fun h => by omega) hdepth
  | succ k ih => exact bodiesMeet_of_next (fun h => ih h (by omega)) hdepth

end Accepted
end RegisterLang.Machine
