import RegisterLang.Proofs.Correctness
import RegisterLang.Proofs.Lockstep

/-!
# Calls are pure

A window is not cleared when it is opened, so a callee could find what earlier calls have left in it.
A call whose evaluation is defined never looks: its value is that of the evaluation, which goes by the
arguments alone. That holds wherever the call is made, and whatever the registers are marked with.
-/
namespace RegisterLang.Machine
open Lowering Reference

/-- The function `index` is called in `s` and returns the register `v`, by which the machine comes
back to the depth of `s`. -/
def Returns (p : Program) (limits : Limits) (index : UInt32) (s : State) (v : Register) : Prop :=
  ∃ next s₁ t s', Calls p s index next ∧ step p limits s = .ok (.running s₁) ∧
    Deeper p limits s.depth (fun _ => True) s₁ t ∧ AboutToReturn p t v ∧
    step p limits t = .ok (.running s') ∧ s'.depth = s.depth

def leaving? (p : Program) (s : State) : Option Register :=
  match fetch p.image s.pc with
  | .ok i =>
    if i.op = .ret then (s.place (p.image.number 2 (s.pc + 2)).toUInt16).toOption.map s.reg else none
  | .error _ => none

def returnedTo? (p : Program) (limits : Limits) (d : Nat) : Nat → State → Option Register
  | 0, _ => none
  | fuel + 1, t =>
    match step p limits t with
    | .ok (.running t') =>
      if d < t'.depth then returnedTo? p limits d fuel t'
      else if t'.depth = d then leaving? p t else none
    | _ => none

def returned? (p : Program) (limits : Limits) (index : UInt32) (fuel : Nat) (s : State) :
    Option Register :=
  match fetch p.image s.pc with
  | .ok i =>
    if i.op = .call ∧ (p.image.number 4 (s.pc + 2)).toUInt32 = index then
      match step p limits s with
      | .ok (.running s₁) =>
        if s.depth < s₁.depth then returnedTo? p limits s.depth fuel s₁ else none
      | _ => none
    else none
  | .error _ => none

section
variable {p : Program} {limits : Limits} {s s' t : State} {v : Register}

theorem aboutToReturn_of_leaving? (h : leaving? p s = some v) : AboutToReturn p s v := by
  unfold leaving? at h
  split at h
  next i hi =>
    by_cases hop : i.op = .ret
    · rw [if_pos hop, Option.map_eq_some_iff] at h
      obtain ⟨r, hr, rfl⟩ := h
      cases hplace : s.place (p.image.number 2 (s.pc + 2)).toUInt16 with
      | error e =>
        rw [hplace] at hr
        cases hr
      | ok r' =>
        rw [hplace] at hr
        cases hr
        exact ⟨i, r, hi, hop, hplace, rfl⟩
    · rw [if_neg hop] at h
      cases h
  · cases h

theorem returns_of_returnedTo? {d fuel : Nat} (hs : Deeper p limits d (fun _ => True) s t)
    (h : returnedTo? p limits d fuel t = some v) :
    ∃ t' s', Deeper p limits d (fun _ => True) s t' ∧ AboutToReturn p t' v ∧
      step p limits t' = .ok (.running s') ∧ s'.depth = d := by
  induction fuel generalizing t with
  | zero => cases h
  | succ fuel ih =>
    rw [returnedTo?] at h
    split at h
    next t' hstep =>
      by_cases hd : d < t'.depth
      · rw [if_pos hd] at h
        exact ih (hs.step trivial hstep hd) h
      · rw [if_neg hd] at h
        by_cases heq : t'.depth = d
        · rw [if_pos heq] at h
          exact ⟨t, t', hs, aboutToReturn_of_leaving? h, hstep, heq⟩
        · rw [if_neg heq] at h
          cases h
    · cases h

theorem returns_of_returned? {index : UInt32} {fuel : Nat}
    (h : returned? p limits index fuel s = some v) : Returns p limits index s v := by
  unfold returned? at h
  split at h
  next i hi =>
    by_cases hcall : i.op = .call ∧ (p.image.number 4 (s.pc + 2)).toUInt32 = index
    · rw [if_pos hcall] at h
      split at h
      next s₁ hstep =>
        by_cases hd : s.depth < s₁.depth
        · rw [if_pos hd] at h
          obtain ⟨t, s', hrun, hleaves, hreturn, hdepth⟩ := returns_of_returnedTo? (.refl hd) h
          exact ⟨i.next, s₁, t, s', ⟨i, hi, hcall.1, rfl, hcall.2⟩, hstep, hrun, hleaves, hreturn,
            hdepth⟩
        · rw [if_neg hd] at h
          cases h
      · cases h
    · rw [if_neg hcall] at h
      cases h
  · cases h

theorem visited_of_after {image : Image} {n : Nat} (hs : Visited limits image p s)
    (h : s.after p limits n = some s') : Visited limits image p s' := by
  induction n generalizing s with
  | zero =>
    cases h
    exact hs
  | succ n ih =>
    rw [State.after] at h
    split at h
    next s₁ hstep => exact ih (hs.step hstep) h
    · cases h

end

/-- The patterns of the arguments that a call of a function finds in the last registers of the current
window, in the bytes that the types of the parameters have. -/
def arguments (l : Layout) (s : State) : List Nat :=
  l.function.params.mapIdx fun i p =>
    (s.reg ((s.frame.stop - l.args).toNat + i)).low ((regType? p.type).getD .s8)

/-- The same machine in its outermost frame, with registers of other kinds. -/
def State.dress (kinds : Nat → RegType) (s : State) : State :=
  { s with
    regs := s.regs.mapIdx fun i r => ⟨kinds i, r.bits⟩
    callers := [] }

section
variable {p : Program} {limits : Limits} {s s' t : State}

theorem reg_dress (kinds : Nat → RegType) {i : Nat} (hi : i < s.regs.size) :
    (s.dress kinds).reg i = ⟨kinds i, (s.reg i).bits⟩ := by
  simp [State.dress, State.reg, Array.getD_eq_getD_getElem?, hi]

theorem alike_dress (kinds : Nat → RegType) (s : State) : Alike s.callers s (s.dress kinds) where
  bits i := by
    by_cases hi : i < s.regs.size
    · rw [reg_dress kinds hi]
    · simp [State.dress, State.reg, Array.getD_eq_getD_getElem?, hi]
  size := by simp [State.dress]
  frame := rfl
  callers := rfl
  stack := rfl
  flags := rfl
  pc := rfl

theorem Leads.next {Q : State → Prop} {E : RunFault → Prop} (h : Leads p limits Q E s)
    (hstep : Machine.step p limits s = .ok (.running s')) (hQ : ¬ Q s) : Leads p limits Q E s' := by
  cases h with
  | here hq => exact absurd hq hQ
  | step hs hleads =>
    rw [hs] at hstep
    cases hstep
    exact hleads
  | fault hs _ =>
    rw [hs] at hstep
    cases hstep

theorem Leads.of_returned {Q : State → Prop} {E : RunFault → Prop} {v : Register}
    (h : Leads p limits Q E s) (hstep : Machine.step p limits s = .ok (.returned v s')) : Q s := by
  cases h with
  | here hq => exact hq
  | step hs _ =>
    rw [hs] at hstep
    cases hstep
  | fault hs _ =>
    rw [hs] at hstep
    cases hstep

theorem Deeper.depth_lt {d : Nat} {P : State → Prop} (h : Deeper p limits d P s s') :
    d < s'.depth := by
  cases h with
  | refl hd => exact hd
  | step _ _ _ hd => exact hd

/-- A machine that is led to the end of its outermost function still is, as long as the one with more
frames has not returned. -/
theorem Alike.follow {outer : List Frame} {P Q : State → Prop} {E : RunFault → Prop}
    (h : Alike outer s t) (hleads : Leads p (limits.above outer.length) Q E t)
    (hQ : ∀ u, Q u → ∃ v w, Machine.step p (limits.above outer.length) u = .ok (.returned v w))
    (hrun : Deeper p limits outer.length P s s') :
    ∃ t', Alike outer s' t' ∧ Leads p (limits.above outer.length) Q E t' := by
  induction hrun with
  | refl _ => exact ⟨t, h, hleads⟩
  | step _ _ hstep hdepth ih =>
    obtain ⟨u, halike, hleads'⟩ := ih
    obtain ⟨u', hstep', halike'⟩ := halike.step hstep hdepth
    refine ⟨u', halike', hleads'.next hstep' fun hq => ?_⟩
    obtain ⟨v, w, hreturned⟩ := hQ u hq
    rw [hstep'] at hreturned
    cases hreturned

/-- A call that is carried out finds room for the window of its function. -/
theorem Calls.enter_eq {index : UInt32} {next : Nat} {f : Prologue} (hcalls : Calls p s index next)
    (hf : p.prologue index = .ok f) (h : Machine.step p limits s = .ok (.running s')) :
    s' = s.enter f next ∧ 0 ≤ s.frame.stop - f.args ∧
      s.frame.stop - f.args + f.regs ≤ s.regs.size ∧ s.depth + 1 ≤ limits.frames := by
  obtain ⟨hstart, rfl⟩ := hcalls.step_eq hf h
  obtain ⟨i, e, hi, he, ha⟩ := step_eq_ok_iff.mp h
  have hbounded := bounded_effect he
  rcases effect_cases hi he with hw | ⟨index', f', hcalls', hf', -, rfl⟩ | ⟨v, hleaves, rfl⟩
  · have hdepth := congrArg List.length (keepsBelow_apply hw ha).callers
    exact absurd hdepth (by simp [State.enter])
  · obtain ⟨rfl, -⟩ := hcalls.unique hcalls'
    obtain rfl : f = f' := Except.ok.inj (hf.symm.trans hf')
    exact ⟨rfl, hstart, hbounded.2.2.1, hbounded.2.2.2.2⟩
  · obtain ⟨i', hi', hop, -, -⟩ := hcalls
    obtain ⟨i₂, -, hi₂, hop₂, -, -⟩ := hleaves
    cases hi'.symm.trans hi₂
    rw [hop] at hop₂
    cases hop₂

end

theorem Fulfils.mono {α : Type} {deep deep' : Prop} {r : Outcome α} {P P' : α → Prop}
    (h : Fulfils deep r P) (hdeep : deep → deep') (hP : ∀ a, P a → P' a) : Fulfils deep' r P' := by
  cases r with
  | value a => exact hP a h
  | divisionByZero => exact h
  | undefined | illFormed => trivial
  | tooDeep => exact hdeep h

namespace Accepted
variable {a : Accepted} {limits : Limits} {l : Layout} {s : State} {v : Register}

def paramKinds (l : Layout) (first i : Nat) : RegType :=
  ((l.function.params[i - first]?).bind fun p => regType? p.type).getD .s8

/-- The parameters have their arguments when the function begins. -/
theorem holdsAs_arguments (bare : Bare) (hl : l.Sound) {next pc : Nat}
    (hstart : 0 ≤ s.frame.stop - (l.args : Int))
    (hstop : s.frame.stop - l.args + l.regs ≤ s.regs.size)
    (hmissing : ∀ p ∈ l.function.params, p.init.isMissing = true) :
    let entry := (s.enter ⟨l.regs, l.args, pc⟩ next).dress
      (paramKinds l (s.frame.stop - l.args).toNat)
    ∀ i p x, l.function.params[i]? = some p → (arguments l s)[i]? = some x →
      HoldsAs bare (entry.reg (entry.base + i)) p.type x := by
  intro entry i p x hp hx
  have hbase : entry.base = (s.frame.stop - l.args).toNat := rfl
  obtain ⟨w, hw, -, hty⟩ := hl.params i p hp
  have ht := hl.regType?_eq hw
  rw [hty (hmissing p (List.mem_of_getElem? hp))] at ht
  have hlen : i < l.args := (List.getElem?_eq_some_iff.mp hp).1
  have hargs := hl.args
  have hsizes := hl.sizes
  have hlt : entry.base + i < s.regs.size := by
    rw [hbase]
    omega
  have hreg : entry.reg (entry.base + i) =
      ⟨paramKinds l (s.frame.stop - l.args).toNat (entry.base + i), (s.reg (entry.base + i)).bits⟩ :=
    reg_dress _ hlt
  have hkind : paramKinds l (s.frame.stop - l.args).toNat (entry.base + i) = w.type := by
    rw [paramKinds, hbase, Nat.add_sub_cancel_left, hp, Option.bind_some, ht]
    rfl
  refine holdsAs_of_low ht ?_ (by rw [hreg, hkind])
  rw [arguments, List.getElem?_mapIdx, hp, Option.map_some, ht] at hx
  rw [hreg, ← Option.some.inj hx, hbase]
  rfl

/-- A call that returns gives what the evaluation of it says. -/
theorem fulfils_of_returns (htyped : ProgramTyped a.functions a.layouts) (hl : l ∈ a.layouts)
    (h : Returns a.program limits l.index.toUInt32 s v) (bare : Bare) (n : Nat) {t : RegType}
    (ht : regType? l.function.ret = some t) :
    Fulfils (n + 1 ≤ limits.frames) (callFunction a.functions bare (n + 1) l.function (arguments l s))
      fun o => ∀ x, o = some x → v.low t = x := by
  obtain ⟨next, s₁, last, s', hcalls, hcall, hrun, hleaves, hreturn, hdepth⟩ := h
  obtain ⟨pc, items, hprologue, hlowers, hlaid⟩ := a.linked.body l hl
  obtain ⟨rfl, hstart, hstop, hframes⟩ := hcalls.enter_eq hprologue hcall
  dsimp only at hstart hstop
  have hsound := a.sound l hl
  -- the callee alone, with the kinds that its parameters have
  let outer := s.frame :: s.callers
  let entry := (s.enter ⟨l.regs, l.args, pc⟩ next).dress
    (paramKinds l (s.frame.stop - l.args).toNat)
  have halike : Alike outer (s.enter ⟨l.regs, l.args, pc⟩ next) entry :=
    alike_dress _ (s.enter ⟨l.regs, l.args, pc⟩ next)
  have hentered : Entered l entry := by
    refine ⟨hstart, rfl, ?_⟩
    rw [← halike.size]
    exact hstop
  have hone : 1 ≤ (limits.above outer.length).frames := by
    have hle : s.callers.length + 1 + 1 ≤ limits.frames := hframes
    change 1 ≤ limits.frames - (s.callers.length + 1)
    omega
  have hmeets := a.bodiesMeet hone l hl entry n (arguments l s) _ items rfl hentered hlowers hlaid
    (.inr ⟨⟨htyped, holdsAs_arguments bare hsound hstart hstop (htyped l hl).1⟩, rfl⟩)
  have hreturned : ∀ u, Inside entry u →
      (∃ next, Instr.decodeAt a.program.image u.pc = .ok (.ret 0, next)) →
      step a.program (limits.above outer.length) u = .ok (.returned (u.reg entry.base) u) := by
    rintro u hin ⟨after, hret⟩
    have hlt : u.base + (0 : Reg).toNat < u.regs.size := by
      have := hsound.sizes
      rw [hin.base_eq, hin.size, ← halike.size]
      change (s.frame.stop - l.args).toNat + 0 < s.regs.size
      omega
    rw [step_ret hret hlt, State.apply, hin.callers, hin.base_eq]
    rfl
  obtain ⟨u, hu, hleads⟩ := halike.follow hmeets
    (fun u hQ => ⟨_, _, hreturned u hQ.1.1 hQ.1.2.2⟩) hrun
  have hlast := hrun.depth_lt
  have hcallers : u.callers = [] := by
    have hlen := congrArg List.length hu.callers
    rcases step_cases hreturn with hs | ⟨_, f, after, -, -, -, rfl⟩ | ⟨_, caller, rest, -, hc, rfl⟩
    · have hsame := congrArg List.length hs.callers
      unfold State.depth at hdepth hlast
      omega
    · have hmore : (last.enter f after).depth = last.depth + 1 := rfl
      omega
    · rw [hc, List.length_append] at hlen
      simp only [State.depth, outer, List.length_cons] at hdepth hlen
      exact List.eq_nil_of_length_eq_zero (by omega)
  obtain ⟨v', hstep, hbits⟩ := hu.returned hleaves hcallers
  have hQ := hleads.of_returned hstep
  have hv' := hreturned u hQ.1.1 hQ.1.2.2
  rw [hstep] at hv'
  obtain ⟨rfl, -⟩ := Next.returned.inj (Except.ok.inj hv')
  refine hQ.2.mono ?_ fun o ho x hx => ?_
  · intro hdeep
    have hdeep : 1 + n ≤ limits.frames - outer.length := hdeep
    omega
  · rw [← (ho x hx).low_eq ht, Register.low, Register.low, hbits]

end Accepted

/-- No evaluation of a call, however deep it goes, reads a variable before its declaration was executed
or uses a value that a function did not return, and the call itself returns a value. A `return` without
a value gives zero if the type has at most four bytes. -/
def Defined (functions : List Function) (f : Function) (vs : List Nat) : Prop :=
  ∀ n, callFunction functions .zero n f vs ≠ .undefined ∧
    callFunction functions .zero n f vs ≠ .value none

theorem defined_of_value {functions : List Function} {f : Function} {vs : List Nat} {n x : Nat}
    (h : callFunction functions .zero n f vs = .value (some x)) : Defined functions f vs := by
  have hvalue : ∀ r : Outcome (Option Nat), r = .tooDeep ∨ r = .value (some x) →
      r ≠ .undefined ∧ r ≠ .value none := by
    rintro r (rfl | rfl)
    · exact ⟨nofun, nofun⟩
    · exact ⟨nofun, nofun⟩
  intro m
  apply hvalue
  rcases Nat.le_total n m with hle | hle
  · obtain ⟨k, rfl⟩ := Nat.exists_eq_add_of_le hle
    rcases callFunction_below functions .zero n k f vs with hdeep | heq
    · rw [h] at hdeep
      cases hdeep
    · exact .inr (heq.symm.trans h)
  · obtain ⟨k, rfl⟩ := Nat.exists_eq_add_of_le hle
    exact (callFunction_below functions .zero m k f vs).imp_right fun heq => heq.trans h

def squares : Text.Bytes :=
  ("f::(n:s32)->s32{return n*n;}" ++
    "main::()->s32{x:s32=f(3);return x-f(3);}").toList.map fun c => c.toNat.toUInt8

def leftovers : Text.Bytes :=
  ("g::()->s32{}h::()->s32{return 7;}" ++
    "main::()->s32{a:s32=g();h();return g()-a;}").toList.map fun c => c.toNat.toUInt8

def twoCalls (text : Text.Bytes) (index n m : Nat) (P : File → Layout → State → State → Register →
    Register → Bool) : Bool :=
  let limits := Limits.ofSettings 5 2 1
  let c := compile "p" text 1
  c.result.toOption.any fun b => b.image.size < 2 ^ 32 &&
    (parseChecked "p" text).toOption.any fun file => file.targetsTyped &&
      c.layouts.any fun l => l.index = index &&
        (start limits b.image).toOption.any fun (p, s) =>
          (s.after p limits n).any fun s₁ => (s.after p limits m).any fun s₂ =>
            (returned? p limits index.toUInt32 9 s₁).any fun v₁ =>
              (returned? p limits index.toUInt32 9 s₂).any fun v₂ => P file l s₁ s₂ v₁ v₂

theorem program_of_start {limits : Limits} {image : Image} {p : Program} {s : State}
    (h : start limits image = .ok (p, s)) :
    ∃ header, Header.read image = .ok header ∧ p = ⟨image, header.functions, header.labels⟩ := by
  unfold start at h
  split at h
  · cases h
  next header hread =>
    dsimp only at h
    split at h
    · cases h
    · split at h
      · cases h
      · cases h
        exact ⟨header, hread, rfl⟩

theorem exists_eq_ok_of_any {ε α : Type} {r : Except ε α} {P : α → Bool}
    (h : r.toOption.any P = true) : ∃ a, r = .ok a ∧ P a = true := by
  cases r with
  | error e => cases h
  | ok a => exact ⟨a, rfl, h⟩

theorem exists_of_twoCalls {text : Text.Bytes} {index n m : Nat}
    {P : File → Layout → State → State → Register → Register → Bool}
    (h : twoCalls text index n m P = true) :
    ∃ b file header l s₁ s₂ v₁ v₂, (compile "p" text 1).result = .ok b ∧
      b.image.size < 2 ^ 32 ∧ parseChecked "p" text = .ok file ∧ file.targetsTyped = true ∧
      Header.read b.image = .ok header ∧ l ∈ (compile "p" text 1).layouts ∧
      Visited (Limits.ofSettings 5 2 1) b.image ⟨b.image, header.functions, header.labels⟩ s₁ ∧
      Visited (Limits.ofSettings 5 2 1) b.image ⟨b.image, header.functions, header.labels⟩ s₂ ∧
      Returns ⟨b.image, header.functions, header.labels⟩ (Limits.ofSettings 5 2 1)
        l.index.toUInt32 s₁ v₁ ∧
      Returns ⟨b.image, header.functions, header.labels⟩ (Limits.ofSettings 5 2 1)
        l.index.toUInt32 s₂ v₂ ∧ P file l s₁ s₂ v₁ v₂ = true := by
  unfold twoCalls at h
  obtain ⟨b, hb, h⟩ := exists_eq_ok_of_any h
  obtain ⟨hsize, h⟩ := Bool.and_eq_true_iff.mp h
  obtain ⟨file, hfile, h⟩ := exists_eq_ok_of_any h
  obtain ⟨htyped, h⟩ := Bool.and_eq_true_iff.mp h
  obtain ⟨l, hl, h⟩ := List.any_eq_true.mp h
  obtain ⟨hindex, h⟩ := Bool.and_eq_true_iff.mp h
  obtain ⟨⟨p, s⟩, hstart, h⟩ := exists_eq_ok_of_any h
  simp only [Option.any_eq_true] at h
  obtain ⟨s₁, hs₁, s₂, hs₂, v₁, hv₁, v₂, hv₂, hP⟩ := h
  obtain ⟨header, hread, rfl⟩ := program_of_start hstart
  obtain rfl := of_decide_eq_true hindex
  exact ⟨b, file, header, l, s₁, s₂, v₁, v₂, hb, of_decide_eq_true hsize, hfile, htyped, hread, hl,
    visited_of_after (.start hstart) hs₁, visited_of_after (.start hstart) hs₂,
    returns_of_returned? hv₁, returns_of_returned? hv₂, hP⟩

/-- Two calls of a function of an accepted program whose arguments agree in the bytes of their types
return registers that agree in the bytes of the type that the function returns, if the evaluation of
the call is defined and the values of the program have the types of their targets. The calls may be
made in any two states of any two machines. -/
theorem results_agree {name : String} {text : Text.Bytes} {buffer : Int} {b : Builder} {file : File}
    {header : Header} (hb : (compile name text buffer).result = .ok b)
    (hsize : b.image.size < 2 ^ 32) (hfile : parseChecked name text = .ok file)
    (htyped : file.targetsTyped = true) (hread : Header.read b.image = .ok header) {l : Layout}
    (hl : l ∈ (compile name text buffer).layouts) {limits₁ limits₂ : Limits} {s₁ s₂ : State}
    {v₁ v₂ : Register} (hagree : arguments l s₁ = arguments l s₂)
    (hdefined : Defined file.functions l.function (arguments l s₁))
    (h₁ : Returns ⟨b.image, header.functions, header.labels⟩ limits₁ l.index.toUInt32 s₁ v₁)
    (h₂ : Returns ⟨b.image, header.functions, header.labels⟩ limits₂ l.index.toUInt32 s₂ v₂)
    {t : RegType} (ht : regType? l.function.ret = some t) : v₁.low t = v₂.low t := by
  obtain ⟨file', hfile', c, hlayouts, -⟩ := exists_compiled_layouts hb hsize
  obtain rfl : file = file' := Except.ok.inj (hfile.symm.trans hfile')
  obtain rfl : header = c.header := Except.ok.inj (hread.symm.trans c.read)
  rw [← c.program_eq] at h₁ h₂
  rw [← hlayouts] at hl
  rw [← c.functions_eq] at hdefined
  have hprogram := c.programTyped htyped
  -- deeper than any of the two machines can go
  have hvalue₁ := Accepted.fulfils_of_returns hprogram hl h₁ .zero (limits₁.frames + limits₂.frames) ht
  have hvalue₂ := Accepted.fulfils_of_returns hprogram hl h₂ .zero (limits₁.frames + limits₂.frames) ht
  have hformed := c.formed_callFunction htyped hfile hl .zero (limits₁.frames + limits₂.frames + 1)
    (arguments l s₁)
  obtain ⟨hundefined, hnone⟩ := hdefined (limits₁.frames + limits₂.frames + 1)
  rw [← hagree] at hvalue₂
  generalize callFunction c.functions .zero (limits₁.frames + limits₂.frames + 1) l.function
    (arguments l s₁) = r at *
  cases r with
  | value o =>
    cases o with
    | none => exact absurd rfl hnone
    | some x =>
      exact (hvalue₁ x rfl).trans (hvalue₂ x rfl).symm
  | divisionByZero => exact hvalue₁.elim
  | undefined => exact absurd rfl hundefined
  | illFormed => exact absurd rfl hformed
  | tooDeep =>
    have hdeep : limits₁.frames + limits₂.frames + 1 ≤ limits₁.frames := hvalue₁
    omega

/-- Two calls of the same run, with the same argument, return the same. -/
theorem results_agree_squares : ∃ b file header l s₁ s₂ v₁ v₂,
    (compile "p" squares 1).result = .ok b ∧ b.image.size < 2 ^ 32 ∧
    parseChecked "p" squares = .ok file ∧ file.targetsTyped = true ∧
    Header.read b.image = .ok header ∧ l ∈ (compile "p" squares 1).layouts ∧
    s₁.pc ≠ s₂.pc ∧ arguments l s₁ = [3] ∧ arguments l s₂ = [3] ∧
    Defined file.functions l.function [3] ∧
    Returns ⟨b.image, header.functions, header.labels⟩ (Limits.ofSettings 5 2 1)
      l.index.toUInt32 s₁ v₁ ∧
    Returns ⟨b.image, header.functions, header.labels⟩ (Limits.ofSettings 5 2 1)
      l.index.toUInt32 s₂ v₂ ∧ regType? l.function.ret = some .s32 ∧ v₁.low .s32 = v₂.low .s32 := by
  have h : (twoCalls squares 1 1 6 fun file l s₁ s₂ _ _ => s₁.pc ≠ s₂.pc ∧ arguments l s₁ = [3] ∧
      arguments l s₂ = [3] ∧ callFunction file.functions .zero 1 l.function [3] = .value (some 9) ∧
      regType? l.function.ret = some .s32) = true := by
    decide +kernel
  obtain ⟨b, file, header, l, s₁, s₂, v₁, v₂, hb, hsize, hfile, htyped, hread, hl, -, -, h₁, h₂, h⟩ :=
    exists_of_twoCalls h
  obtain ⟨hpc, ha₁, ha₂, hvalue, ht⟩ := of_decide_eq_true h
  have hdefined := defined_of_value hvalue
  refine ⟨b, file, header, l, s₁, s₂, v₁, v₂, hb, hsize, hfile, htyped, hread, hl, hpc, ha₁, ha₂,
    hdefined, h₁, h₂, ht, ?_⟩
  exact results_agree hb hsize hfile htyped hread hl (ha₁.trans ha₂.symm) (ha₁ ▸ hdefined) h₁ h₂ ht

/-- A function that ends without a `return` gives back what it finds in its window, so two calls of one
run that pass the same arguments, none at all, return different numbers. -/
theorem results_differ_leftovers : ∃ b file header l s₁ s₂ v₁ v₂,
    (compile "p" leftovers 1).result = .ok b ∧ b.image.size < 2 ^ 32 ∧
    parseChecked "p" leftovers = .ok file ∧ file.targetsTyped = true ∧
    Header.read b.image = .ok header ∧ l ∈ (compile "p" leftovers 1).layouts ∧
    Visited (Limits.ofSettings 5 2 1) b.image ⟨b.image, header.functions, header.labels⟩ s₁ ∧
    Visited (Limits.ofSettings 5 2 1) b.image ⟨b.image, header.functions, header.labels⟩ s₂ ∧
    arguments l s₁ = arguments l s₂ ∧
    Returns ⟨b.image, header.functions, header.labels⟩ (Limits.ofSettings 5 2 1)
      l.index.toUInt32 s₁ v₁ ∧
    Returns ⟨b.image, header.functions, header.labels⟩ (Limits.ofSettings 5 2 1)
      l.index.toUInt32 s₂ v₂ ∧ regType? l.function.ret = some .s32 ∧ v₁.low .s32 ≠ v₂.low .s32 := by
  have h : (twoCalls leftovers 1 0 6 fun _ l s₁ s₂ v₁ v₂ => arguments l s₁ = arguments l s₂ ∧
      regType? l.function.ret = some .s32 ∧ v₁.low .s32 ≠ v₂.low .s32) = true := by
    decide +kernel
  obtain ⟨b, file, header, l, s₁, s₂, v₁, v₂, hb, hsize, hfile, htyped, hread, hl, hs₁, hs₂, h₁, h₂,
    h⟩ := exists_of_twoCalls h
  obtain ⟨hagree, ht, hne⟩ := of_decide_eq_true h
  exact ⟨b, file, header, l, s₁, s₂, v₁, v₂, hb, hsize, hfile, htyped, hread, hl, hs₁, hs₂, hagree, h₁,
    h₂, ht, hne⟩

end RegisterLang.Machine
