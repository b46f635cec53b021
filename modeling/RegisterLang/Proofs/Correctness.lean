import RegisterLang.Proofs.WellFormed
import RegisterLang.Proofs.Whole

/-!
# Compiled programs

What a machine does with the image of an accepted program, whatever its limits. Its run ends, and it
fails only where something is divided by zero or where frames or registers are used up. If the values
of the program have the types of their targets, the run ends as the evaluation of `main` says.
-/
namespace RegisterLang

def RunError.isWindow : RunError → Bool
  | .startWindow .. | .step _ (.window ..) => true
  | _ => false

namespace Machine
open Lowering Reference

/-- From some number of steps on, a run ends like this. -/
def Settles (limits : Limits) (image : Image) (e : Ending) : Prop :=
  ∃ k, ∀ fuel, k ≤ fuel → (run limits image fuel).ending = e

section
variable {limits : Limits} {image : Image}

theorem Settles.unique {e e' : Ending} (h : Settles limits image e) (h' : Settles limits image e') :
    e = e' := by
  obtain ⟨k, hk⟩ := h
  obtain ⟨k', hk'⟩ := h'
  rw [← hk (max k k') (Nat.le_max_left _ _), hk' (max k k') (Nat.le_max_right _ _)]

theorem runFrom_mono {p : Program} {fuel n : Nat} {s : State}
    (h : (runFrom p limits fuel n s).ending ≠ .unfinished) (more : Nat) :
    runFrom p limits (fuel + more) n s = runFrom p limits fuel n s := by
  induction fuel generalizing n s with
  | zero => exact absurd rfl h
  | succ fuel ih =>
    rw [Nat.add_right_comm]
    unfold runFrom at h ⊢
    cases hf : fetch p.image s.pc with
    | error e => rfl
    | ok i =>
      simp only [hf] at h ⊢
      cases he : effect p limits s i with
      | error e => rfl
      | ok e =>
        simp only [he] at h ⊢
        cases ha : s.apply i.next e with
        | running s' =>
          simp only [ha] at h ⊢
          exact ih h
        | returned v s' => rfl

theorem run_of_start {p : Program} {s : State} (h : start limits image = .ok (p, s)) (fuel : Nat) :
    run limits image fuel = runFrom p limits fuel 0 s := by
  rw [run, h]

/-- A run that has ended stays so with more steps. -/
theorem settles_of_ending {fuel : Nat} {e : Ending} (h : (run limits image fuel).ending = e)
    (he : e ≠ .unfinished) : Settles limits image e := by
  refine ⟨fuel, fun fuel' hle => ?_⟩
  obtain ⟨more, rfl⟩ := Nat.exists_eq_add_of_le hle
  cases hstart : start limits image with
  | error e' => rwa [run, hstart] at h ⊢
  | ok ps =>
    rw [run_of_start hstart] at h ⊢
    rw [runFrom_mono (h ▸ he), h]

/-- A run that is led to states from which the first function returns. -/
theorem settles_of_leads {p : Program} {s : State} {Q : State → Prop} {E : RunFault → Prop}
    {R : Register → Prop} (hstart : start limits image = .ok (p, s)) (h : Leads p limits Q E s)
    (hQ : ∀ s', Q s' → ∃ v s₁, step p limits s' = .ok (.returned v s₁) ∧ R v) :
    (∃ v, Settles limits image (.returned v) ∧ R v) ∨
      ∃ pc f, Settles limits image (.failed (.step pc f)) ∧ E f := by
  obtain ⟨k, ⟨s', hs', hrun⟩ | ⟨pc, f, hf, hrun⟩⟩ := h.ending
  · obtain ⟨v, s₁, hstep, hv⟩ := hQ s' hs'
    refine .inl ⟨v, ⟨k + 1, fun fuel hle => ?_⟩, hv⟩
    obtain ⟨more, rfl⟩ := Nat.exists_eq_add_of_le hle
    rw [run_of_start hstart, show k + 1 + more = more + 1 + k by omega, hrun]
    exact ending_of_returned hstep more _
  · refine .inr ⟨pc, f, ⟨k, fun fuel hle => ?_⟩, hf⟩
    obtain ⟨more, rfl⟩ := Nat.exists_eq_add_of_le hle
    rw [run_of_start hstart, Nat.add_comm, hrun]

end

def Ending.isOverflow : Ending → Bool
  | .failed (.startWindow ..) => true
  | .failed (.step _ e) => e.isOverflow
  | _ => false

def Ending.isDivision : Ending → Bool
  | .failed (.step _ e) => e.isDivision
  | _ => false

def Suffices (limits : Limits) (n : Nat) : Prop :=
  n ≤ limits.frames ∧ n * maxRegs ≤ limits.registers

theorem fault_of_isOverflow {e : RunError} (h : (Ending.failed e).isOverflow) :
    e.fault = .frameOverflow ∨ e.fault = .registerOverflow ∧ e.isWindow := by
  cases e with
  | header | start => cases h
  | startWindow => exact .inr ⟨rfl, rfl⟩
  | step pc f =>
    cases f with
    | frames => exact .inl rfl
    | window => exact .inr ⟨rfl, rfl⟩
    | _ => cases h

theorem fault_of_isDivision {e : RunError} (h : (Ending.failed e).isDivision) :
    e.fault = .divisionByZero := by
  cases e with
  | step pc f =>
    cases f with
    | divisionByZero => rfl
    | _ => cases h
  | _ => cases h

/-- How a run of `main`, which returns a value of the type `ret`, ends if an evaluation that follows
calls `n` deep has the given outcome. A value is returned in the bytes that its type has, and in a
register of its kind if no `return` without a value was taken to give one. -/
def Ending.Accords (limits : Limits) (bare : Bare) (ret : Option Ty) (n : Nat) (e : Ending) :
    Outcome (Option Nat) → Prop
  | .value v => (∃ r, e = .returned r ∧ ∀ x, v = some x → HoldsAs bare r ret x) ∨
    e.isOverflow ∧ ¬ Suffices limits n
  | .divisionByZero => e.isDivision ∨ e.isOverflow ∧ ¬ Suffices limits n
  | .undefined | .illFormed => (∃ r, e = .returned r) ∨ e.isDivision ∨ e.isOverflow
  | .tooDeep => n ≤ limits.frames ∧ ((∃ r, e = .returned r) ∨ e.isDivision) ∨ e.isOverflow

section
variable {limits : Limits} {bare : Bare} {ret : Option Ty} {n : Nat} {r : Outcome (Option Nat)}

theorem accords_of_overflow {e : Ending} (he : e.isOverflow) (hsuffices : ¬ Suffices limits n) :
    e.Accords limits bare ret n r := by
  cases r with
  | value v => exact .inr ⟨he, hsuffices⟩
  | divisionByZero => exact .inr ⟨he, hsuffices⟩
  | undefined | illFormed => exact .inr (.inr he)
  | tooDeep => exact .inr he

theorem accords_of_fulfils {v : Register}
    (h : Fulfils (n ≤ limits.frames) r fun o => ∀ x, o = some x → HoldsAs bare v ret x) :
    (Ending.returned v).Accords limits bare ret n r := by
  cases r with
  | value o => exact .inl ⟨v, rfl, h⟩
  | divisionByZero => exact h.elim
  | undefined | illFormed => exact .inl ⟨v, rfl⟩
  | tooDeep => exact .inl ⟨h, .inl ⟨v, rfl⟩⟩

theorem accords_of_permits {room : Prop} {pc : Nat} {f : RunFault}
    (h : Permits room (n ≤ limits.frames) r f) (hroom : Suffices limits n → room) :
    (Ending.failed (.step pc f)).Accords limits bare ret n r := by
  cases r with
  | value o => exact .inr ⟨h.1, fun hsuffices => h.2 (hroom hsuffices)⟩
  | divisionByZero =>
    rcases h with h | h
    · exact .inr ⟨h.1, fun hsuffices => h.2 (hroom hsuffices)⟩
    · exact .inl h
  | undefined | illFormed => exact .inr h.symm
  | tooDeep =>
    rcases h with h | h
    · exact .inr h
    · exact .inl ⟨h.2, .inr h.1⟩

end

/-- An accepted program with its file and its image, and the layout of `main`, which comes first. -/
structure Compiled (file : File) (image : Image) extends Accepted where
  main : Layout
  header : Header
  functions_eq : functions = file.functions
  main_mem : main ∈ layouts
  main_index : main.index = 0
  main_name : main.function.name = mainName
  read : Header.read image = .ok header
  program_eq : program = ⟨image, header.functions, header.labels⟩
  checked : ∀ l ∈ layouts, l.function ∈ file.functions ∧
    Typing.CheckedFunction file.functions l.function

/-- What an accepted text is compiled to, with the layouts that compiling leaves. -/
theorem exists_compiled_layouts {name : String} {text : Text.Bytes} {buffer : Int} {b : Builder}
    (h : (compile name text buffer).result = .ok b) (hsize : b.image.size < 2 ^ 32) :
    ∃ file, parseChecked name text = .ok file ∧
      ∃ c : Compiled file b.image, c.layouts = (compile name text buffer).layouts ∧
        Layouts file c.layouts := by
  obtain ⟨file, layouts, header, hfile, heq, hlayouts, hread, hlinked⟩ := compile_linked h hsize
  have hchecked : ∀ l ∈ layouts, l.function ∈ file.functions ∧
      Typing.CheckedFunction file.functions l.function := by
    intro l hl
    have hmem := hlayouts.perm.mem_iff.mp (List.mem_map_of_mem hl)
    exact ⟨hmem, parseChecked_checked hfile _ hmem⟩
  have hsound : ∀ l ∈ layouts, l.Sound := by
    intro l hl
    obtain ⟨i, hi⟩ := List.getElem?_of_mem hl
    exact (hlayouts.numbered i l hi).2.2
  obtain ⟨main, rest, rfl, hname⟩ := hlayouts.main
  refine ⟨file, hfile, {
    program := ⟨b.image, header.functions, header.labels⟩
    layouts := main :: rest
    functions := file.functions
    linked := hlinked
    sound := hsound
    paired := fun l hl => (hchecked l hl).2.paired
    function?_eq := fun l hl => hlayouts.function?_eq hl
    main := main
    header := header
    functions_eq := rfl
    main_mem := List.mem_cons_self
    main_index := (hlayouts.numbered 0 main rfl).1
    main_name := hname
    read := hread
    program_eq := rfl
    checked := hchecked }, heq, hlayouts⟩

theorem exists_compiled {name : String} {text : Text.Bytes} {buffer : Int} {b : Builder}
    (h : (compile name text buffer).result = .ok b) (hsize : b.image.size < 2 ^ 32) :
    ∃ file, parseChecked name text = .ok file ∧ Nonempty (Compiled file b.image) := by
  obtain ⟨file, hfile, c, -⟩ := exists_compiled_layouts h hsize
  exact ⟨file, hfile, ⟨c⟩⟩

namespace Compiled
variable {file : File} {image : Image} (c : Compiled file image)

theorem wellTyped {l : Layout} (hl : l ∈ c.layouts) (h : l.function.targetsTyped = true) :
    WellTyped (signatures c.functions) l l.function.ret (.all l.function.body) := by
  obtain ⟨-, hchecked⟩ := c.checked l hl
  rw [c.functions_eq]
  refine hchecked.typed l (fun p hp => ?_) (c.sound l hl).body h
  obtain ⟨i, hi⟩ := List.getElem?_of_mem hp
  obtain ⟨v, hv, -, hty⟩ := (c.sound l hl).params i p hi
  exact ⟨v, hv, hty (hchecked.params p hp)⟩

theorem programTyped (h : file.targetsTyped = true) : ProgramTyped c.functions c.layouts := by
  intro l hl
  obtain ⟨hmem, hchecked⟩ := c.checked l hl
  exact ⟨hchecked.params, c.wellTyped hl (List.all_eq_true.mp h _ hmem)⟩

/-- The functions of an accepted text mean something, to every depth of calls. -/
theorem formed_callFunction (htyped : file.targetsTyped = true) {name : String} {text : Text.Bytes}
    (hfile : parseChecked name text = .ok file) {l : Layout} (hl : l ∈ c.layouts) (bare : Bare)
    (n : Nat) (vs : List Nat) : (callFunction c.functions bare n l.function vs).Formed := by
  have hwhole := (isRead_of_parseChecked hfile).whole
  exact Accepted.formed_callFunction (c.programTyped htyped) (fun l hl => (c.checked l hl).2.ret)
    (fun l hl => (hwhole _ (c.checked l hl).1).body) hl bare n vs

theorem named?_main : named? file.functions "main" = some c.main.function := by
  have hfunction := c.function?_eq c.main c.main_mem
  rwa [c.main_name, c.functions_eq] at hfunction

def first (limits : Limits) (pc : Nat) : State where
  regs := Array.replicate limits.registers {}
  frame := ⟨0, c.main.regs, -1⟩
  pc := pc

theorem start_eq (limits : Limits) : ∃ pc items, LowersBody ⟨c.layouts, c.main⟩ items ∧
    Laid c.program pc items ∧ start limits image =
      if limits.registers < c.main.regs then .error (.startWindow c.main.regs limits.registers)
      else .ok (c.program, c.first limits pc) := by
  obtain ⟨pc, items, hprologue, hlowers, hlaid⟩ := c.linked.body c.main c.main_mem
  refine ⟨pc, items, hlowers, hlaid, ?_⟩
  rw [c.main_index, c.program_eq] at hprologue
  have hzero : Program.prologue ⟨image, c.header.functions, c.header.labels⟩ 0 = _ := hprologue
  unfold start
  simp only [c.read, hzero, c.program_eq]
  rfl

variable {limits : Limits}

/-- A run ends as an evaluation says that is expected of it. -/
theorem exists_accords (hframes : 1 ≤ limits.frames) (bare : Bare) (n : Nat)
    {r : Outcome (Option Nat)}
    (hr : Expected (n + 1 ≤ limits.frames) r
      (ProgramTyped c.functions c.layouts ∧ c.main.function.params = [])
      (callFunction c.functions bare (n + 1) c.main.function [])) :
    ∃ e, Settles limits image e ∧ e.Accords limits bare c.main.function.ret (n + 1) r := by
  obtain ⟨pc, items, hlowers, hlaid, hstart⟩ := c.start_eq limits
  have hsizes := (c.sound c.main c.main_mem).sizes
  have hmul : (n + 1) * maxRegs = n * maxRegs + maxRegs := Nat.succ_mul _ _
  by_cases hregs : limits.registers < c.main.regs
  · rw [if_pos hregs] at hstart
    refine ⟨.failed (.startWindow c.main.regs limits.registers), ⟨0, fun fuel _ => ?_⟩,
      accords_of_overflow rfl fun hsuffices => ?_⟩
    · simp only [run, hstart]
    · have := hsuffices.2
      omega
  rw [if_neg hregs] at hstart
  have hentered : Entered c.main (c.first limits pc) := by
    refine ⟨Int.le_refl 0, (Int.zero_add _).symm, ?_⟩
    simp only [first, Array.size_replicate]
    omega
  have hdeep : (n + 1 ≤ limits.frames) = (c.setting limits bare (c.first limits pc) n).deep :=
    congrArg (· ≤ limits.frames) (Nat.add_comm n 1)
  have hroom : Suffices limits (n + 1) → (c.setting limits bare (c.first limits pc) n).room := by
    rintro ⟨hdepth, hregisters⟩
    refine ⟨hdeep.mp hdepth, ?_⟩
    simp only [first, Array.size_replicate]
    omega
  rw [hdeep] at hr
  have hmeets := c.bodiesMeet hframes c.main c.main_mem (c.first limits pc) n [] r items rfl hentered
    hlowers hlaid (hr.mono fun hC => ⟨hC.1, by simp [hC.2]⟩)
  -- `main` has no caller, so its `return` ends the run
  have hreturns : ∀ s', Inside (c.first limits pc) s' →
      (∃ next, Instr.decodeAt c.program.image s'.pc = .ok (.ret 0, next)) →
      step c.program limits s' = .ok (.returned (s'.reg (c.first limits pc).base) s') := by
    rintro s' hin ⟨next, hret⟩
    rw [step_ret hret, State.apply, hin.callers, hin.base_eq]
    · rfl
    · rw [hin.base_eq, hin.size]
      simp only [first, Array.size_replicate]
      exact Nat.lt_of_lt_of_le hsizes.2.1 (Nat.le_of_not_lt hregs)
  rcases settles_of_leads (R := fun v => Fulfils (n + 1 ≤ limits.frames) r fun o =>
      ∀ x, o = some x → HoldsAs bare v c.main.function.ret x) hstart hmeets fun s' hs' =>
    ⟨_, _, hreturns s' hs'.1.1 hs'.1.2.2, hdeep ▸ hs'.2⟩ with ⟨v, hv, hv'⟩ | ⟨pc', f, hf, hp⟩
  · exact ⟨_, hv, accords_of_fulfils hv'⟩
  · exact ⟨_, hf, accords_of_permits (hdeep ▸ hp) hroom⟩

/-- Nothing is needed of a program for its run to end. -/
theorem exists_settles (c : Compiled file image) (hframes : 1 ≤ limits.frames) :
    ∃ e : Ending, Settles limits image e ∧ ((∃ r, e = .returned r) ∨ e.isDivision ∨ e.isOverflow) :=
  c.exists_accords hframes .nothing 0 (r := .undefined) (.inl (.inl rfl))

end Compiled

def factorial : Text.Bytes :=
  ("f::(n:s32)->s32{if n<2{return 1;}return n*f(n-1);}" ++
    "main::()->s32{x:s32=f(5);return x/2;}").toList.map fun c => c.toNat.toUInt8

theorem computed_factorial :
    (compile "f" factorial 1).result.toOption.any (fun b => b.image.size < 2 ^ 32) = true ∧
    (parseChecked "f" factorial).toOption.any (fun file => file.targetsTyped &&
      (named? file.functions "main").any fun main => main.params.isEmpty &&
        callFunction file.functions .nothing 6 main [] == .value (some 60)) = true := by
  decide +kernel

theorem exists_image_factorial :
    ∃ b, (compile "f" factorial 1).result = .ok b ∧ b.image.size < 2 ^ 32 := by
  have h := computed_factorial.1
  cases hb : (compile "f" factorial 1).result with
  | error e => simp [hb, Except.toOption] at h
  | ok b => exact ⟨b, rfl, by simpa [hb, Except.toOption] using h⟩

theorem exists_file_factorial : ∃ file main, parseChecked "f" factorial = .ok file ∧
    file.targetsTyped = true ∧ named? file.functions "main" = some main ∧ main.params = [] ∧
    callFunction file.functions .nothing 6 main [] = .value (some 60) := by
  have h := computed_factorial.2
  cases hfile : parseChecked "f" factorial with
  | error e => simp [hfile, Except.toOption] at h
  | ok file =>
    simp only [hfile, Except.toOption, Option.any_some, Bool.and_eq_true, Option.any_eq_true] at h
    obtain ⟨htyped, main, hmain, hparams, hvalue⟩ := h
    exact ⟨file, main, rfl, htyped, hmain, List.isEmpty_iff.mp hparams, beq_iff_eq.mp hvalue⟩

section
variable {name : String} {text : Text.Bytes} {buffer : Int} {b : Builder}

/-- The run of an image that a text was compiled to ends as the evaluation of `main` says: with its
value in a register of the type that `main` returns, or with a division by zero. Where frames or
registers are used up instead there were not enough of them for calls that nest as deep as those of
the evaluation, and where no depth is enough they are used up. The evaluation goes by the tree alone,
which is never ill-formed, and it may take a `return` without a value for one of zero. -/
theorem run_accords {file : File} {main : Function}
    (hb : (compile name text buffer).result = .ok b) (hsize : b.image.size < 2 ^ 32)
    (hfile : parseChecked name text = .ok file) (htyped : file.targetsTyped = true)
    (hmain : named? file.functions "main" = some main) (hparams : main.params = [])
    (registers frames stack : Int) :
    ∃ e, Settles (Limits.ofSettings registers frames stack) b.image e ∧
      ∀ bare n, callFunction file.functions bare n main [] ≠ .illFormed ∧
        e.Accords (Limits.ofSettings registers frames stack) bare main.ret n
          (callFunction file.functions bare n main []) := by
  have hframes := one_le_frames registers frames stack
  obtain ⟨file', hfile', ⟨c⟩⟩ := exists_compiled hb hsize
  obtain rfl : file = file' := Except.ok.inj (hfile.symm.trans hfile')
  obtain rfl : c.main.function = main := Option.some.inj (c.named?_main.symm.trans hmain)
  rw [← c.functions_eq]
  have hprogram := c.programTyped htyped
  obtain ⟨e, he, hknown⟩ := c.exists_settles hframes
  refine ⟨e, he, fun bare n => ⟨c.formed_callFunction htyped hfile c.main_mem bare n [], ?_⟩⟩
  cases n with
  | zero =>
    rcases hknown with hr | hd | ho
    · exact .inl ⟨Nat.zero_le _, .inl hr⟩
    · exact .inl ⟨Nat.zero_le _, .inr hd⟩
    · exact .inr ho
  | succ n =>
    obtain ⟨e', he', haccords⟩ := c.exists_accords hframes bare n (.inr ⟨⟨hprogram, hparams⟩, rfl⟩)
    rwa [he.unique he']

/-- With the standard limits there is room for the evaluation, so its value is returned. -/
theorem run_accords_factorial : ∃ b file main, (compile "f" factorial 1).result = .ok b ∧
    b.image.size < 2 ^ 32 ∧ parseChecked "f" factorial = .ok file ∧ file.targetsTyped = true ∧
    named? file.functions "main" = some main ∧ main.params = [] ∧
    callFunction file.functions .nothing 6 main [] = .value (some 60) ∧
    ∃ r, Settles (Limits.ofSettings 0 0 0) b.image (.returned r) ∧
      HoldsAs .nothing r main.ret 60 := by
  obtain ⟨b, hb, hsize⟩ := exists_image_factorial
  obtain ⟨file, main, hfile, htyped, hmain, hparams, hvalue⟩ := exists_file_factorial
  obtain ⟨e, he, haccords⟩ := run_accords hb hsize hfile htyped hmain hparams 0 0 0
  have haccords := (haccords .nothing 6).2
  rw [hvalue] at haccords
  rcases haccords with ⟨r, rfl, hr⟩ | ⟨-, hsuffices⟩
  · exact ⟨b, file, main, hb, hsize, hfile, htyped, hmain, hparams, hvalue, r, he, hr 60 rfl⟩
  · exact absurd ⟨by decide, by decide⟩ hsuffices

/-- A run of a compiled image fails only where something is divided by zero, or where frames or the
registers for the window of a function are used up. -/
theorem fault_of_run (hb : (compile name text buffer).result = .ok b)
    (hsize : b.image.size < 2 ^ 32) (registers frames stack : Int) (fuel : Nat) {e : RunError}
    (he : (run (Limits.ofSettings registers frames stack) b.image fuel).ending = .failed e) :
    e.fault = .divisionByZero ∨ e.fault = .frameOverflow ∨
      e.fault = .registerOverflow ∧ e.isWindow := by
  obtain ⟨file, -, ⟨c⟩⟩ := exists_compiled hb hsize
  obtain ⟨e', he', hknown⟩ := c.exists_settles (one_le_frames registers frames stack)
  obtain rfl := (settles_of_ending he nofun).unique he'
  rcases hknown with ⟨r, hr⟩ | hd | ho
  · cases hr
  · exact .inl (fault_of_isDivision hd)
  · exact .inr (fault_of_isOverflow ho)

def quotient : Text.Bytes := "main::()->s32{return 1/0;}".toList.map fun c => c.toNat.toUInt8

theorem fault_of_run_quotient : ∃ b e, (compile "q" quotient 1).result = .ok b ∧
    b.image.size < 2 ^ 32 ∧ (run (Limits.ofSettings 2 1 1) b.image 3).ending = .failed e ∧
    (e.fault = .divisionByZero ∨ e.fault = .frameOverflow ∨
      e.fault = .registerOverflow ∧ e.isWindow) := by
  have h : (compile "q" quotient 1).result.toOption.any (fun b => b.image.size < 2 ^ 32 &&
      (run (Limits.ofSettings 2 1 1) b.image 3).ending =
        .failed (.step 44 (.divisionByZero .div .s32))) = true := by
    decide +kernel
  cases hb : (compile "q" quotient 1).result with
  | error e => simp [hb, Except.toOption] at h
  | ok b =>
    obtain ⟨hsize, he⟩ : b.image.size < 2 ^ 32 ∧ _ := by simpa [hb, Except.toOption] using h
    exact ⟨b, _, rfl, hsize, he, fault_of_run hb hsize 2 1 1 3 he⟩

/-- Every run of a compiled image ends. -/
theorem run_ends (hb : (compile name text buffer).result = .ok b) (hsize : b.image.size < 2 ^ 32)
    (registers frames stack : Int) :
    ∃ e, e ≠ .unfinished ∧ Settles (Limits.ofSettings registers frames stack) b.image e := by
  obtain ⟨file, -, ⟨c⟩⟩ := exists_compiled hb hsize
  obtain ⟨e, he, hknown⟩ := c.exists_settles (one_le_frames registers frames stack)
  refine ⟨e, ?_, he⟩
  rintro rfl
  rcases hknown with ⟨r, hr⟩ | hd | ho
  · cases hr
  · cases hd
  · cases ho

theorem run_ends_factorial : ∃ b, (compile "f" factorial 1).result = .ok b ∧
    b.image.size < 2 ^ 32 ∧
    ∃ e, e ≠ .unfinished ∧ Settles (Limits.ofSettings 0 0 0) b.image e := by
  obtain ⟨b, hb, hsize⟩ := exists_image_factorial
  exact ⟨b, hb, hsize, run_ends hb hsize 0 0 0⟩

end

end Machine
end RegisterLang
