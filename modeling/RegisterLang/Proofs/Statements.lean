import RegisterLang.Proofs.Expressions

/-!
# Statements that are run

The code of a statement follows the execution of it. It leads to its end, or to an instruction that
returns from the function; where the statement returned a value, the first register of the window
holds it there.
-/
namespace RegisterLang.Machine.Scene
open Lowering Reference
variable {c : Scene} {s s' : State}

def Names (p : Program) (l : Nat) (pc : Nat) : Prop :=
  ∃ t, p.labels[l.toUInt32.toNat]? = some t ∧ t.toNat = pc

/-- The first of the jumps that is taken goes to the label. -/
theorem leads_jumps (js : List Opcode) {l pc : Nat} (hl : Names c.program l pc)
    (h : Laid c.program s.pc ((js.map (Instr.jump · l.toUInt32)).map .instr)) :
    Leads c.program c.limits
      (fun s' => s' = { s with
        pc := if js.any (Operation.taken · s.flags) then pc
          else s.pc + span ((js.map (Instr.jump · l.toUInt32)).map .instr) })
      (fun _ => False) s := by
  induction js generalizing s with
  | nil => exact .here rfl
  | cons j js ih =>
    obtain ⟨t, ht, htpc⟩ := hl
    refine .step (step_jump h.1 ht) ?_
    rw [List.any_cons]
    cases htaken : Operation.taken j s.flags with
    | true => exact .here (by simp [htpc])
    | false =>
      refine (ih h.2).mono (fun s' hs' => ?_) fun _ he => he
      rw [hs']
      simp [Nat.add_assoc]

theorem inside_goTo (hs : Inside c.entry s) (flags : Flags) (pc : Nat) (keep : Nat → Prop) :
    Passes c.entry s { s with flags, pc } pc keep :=
  ⟨⟨hs.frame, hs.callers, hs.size⟩, rfl, fun _ _ => rfl⟩

/-- A comparison of two registers, and jumps to one of two labels. -/
theorem leads_branch {first yes no : Nat} {t : RegType} {a b : Reg} {js : List Opcode}
    (hs : Inside c.entry s) (hyes : Names c.program first yes)
    (hno : Names c.program (first + 1) no)
    (hlaid : Laid c.program s.pc ((Instr.cmp t a b :: js.map (Instr.jump · first.toUInt32) ++
      [Instr.jump .jmp (first + 1).toUInt32]).map .instr))
    (ha : a.toNat < c.current.regs) (hb : b.toNat < c.current.regs) :
    Leads c.program c.limits
      (fun s' => Passes c.entry s s' (if js.any (Operation.taken · (Operation.compare t
        (s.reg (c.base + a.toNat)) (s.reg (c.base + b.toNat)))) then yes else no) fun _ => True)
      (fun _ => False) s := by
  simp only [List.cons_append, List.map_cons, List.map_append, Laid, laid_append] at hlaid
  obtain ⟨hcmp, hjs, hjmp, -⟩ := hlaid
  have hstep : step c.program c.limits s = _ :=
    step_cmp hcmp (place_lt hs (c.lt_size ha)) (place_lt hs (c.lt_size hb))
  rw [base_eq hs] at hstep
  refine .step hstep ((leads_jumps js hyes hjs).trans ?_)
  rintro s₁ rfl
  dsimp only
  split
  next htaken => exact .here (inside_goTo hs _ _ _)
  next htaken =>
    refine (leads_jumps [.jmp] hno ⟨hjmp, trivial⟩).mono ?_ fun _ he => he
    rintro s₂ rfl
    exact inside_goTo hs _ _ _

/-- The code of a condition follows the evaluation of it to one of two labels. -/
theorem meets_test {first : Nat} {test : Expr} {code : List Instr} {yes no : Nat}
    (h : LowersTest c.scope first test code) (hpair : test.IsPair) (hroom : c.current.Room test)
    (hyes : Names c.program first yes) (hno : Names c.program (first + 1) no)
    (hs : Inside c.entry s) (hlaid : Laid c.program s.pc (code.map .instr)) {env : Env}
    {r : Outcome Bool}
    (hr : Expected c.deep r (c.Ready env s ∧ Typed (signatures c.functions) c.current test)
      (evalTest c.functions c.call env test)) :
    Meets c.toSetting r
      (fun s' => ∃ b : Bool, Passes c.entry s s' (if b then yes else no)
        (· < c.base + c.current.locals))
      (fun b s' => s'.pc = if b then yes else no) s := by
  obtain ⟨pos, ty, op, left, right, rfl⟩ : ∃ pos ty op left right,
      test = .op pos ty op true left right := by
    cases test with
    | op pos ty op binary left right =>
      exact ⟨pos, ty, op, left, right, by rw [show binary = true from hpair]⟩
    | _ => exact hpair.elim
  cases h with
  | @intro op left right t js a b codeA codeB hcomparison ht hjumps hleft hright =>
    cases hcomparison
    have hfree : c.scope.current.free.toNat = c.current.locals := c.sound.toNat_free
    have hone : (c.scope.current.free + 1).toNat = c.current.locals + 1 := by
      have := c.sound.sizes
      have htemps : max (operandTemporaries left) (1 + operandTemporaries right) ≤ c.current.temps :=
        hroom.1
      rw [toNat_add_one (by omega), hfree]
    rw [List.append_assoc, List.map_append, laid_append] at hlaid
    have hr := Expected.of_kind ht hr
    refine meets_operands (simulates hleft) (simulates hright) (Nat.le_of_eq hfree.symm)
      (hfree ▸ Nat.add_le_add_left hroom.1 _) hroom.2 hs hlaid.1 hr
      (fun h => ⟨h.1.1, (h.1.2.1 rfl).1, h.1.2.2.1⟩) ?_
    intro ha hb s₁ x y hp₁ hr₁
    rw [← hp₁.pc_eq] at hlaid
    refine Meets.after (leads_branch hp₁.toInside hyes hno hlaid.2 ha hb) fun s₂ hp₂ => ?_
    rw [Operation.taken_jumps hjumps] at hr₁
    refine Meets.here hr₁ ⟨_, hp₂.toInside, hp₂.pc_eq, fun i hi => ?_⟩ fun h => ?_
    · rw [hp₂.kept i trivial, hp₁.kept i ⟨.inl (by omega), .inl (by omega)⟩]
    · rw [hp₂.pc_eq, Operation.compare_eq_flagsOf? (isKnown_of_regType? ht),
        low_of_holdsAs h.2.1 (h.1.1.2.1 rfl).2 h.1.2, low_of_holdsAs h.2.2 h.1.1.2.2.2 h.1.2]

def AtReturn (c : Scene) (s : State) : Prop :=
  ∃ next, Instr.decodeAt c.program.image s.pc = .ok (.ret 0, next)

def returns : Piece → Bool
  | .one x => isReturn x
  | .all xs => xs.getLast?.any isReturn

/-- Code was run to an offset after it, if it does not end with a `return`, or to one. -/
structure Reaches (c : Scene) (s s' : State) (pc : Nat) (returns : Bool) : Prop extends
    Inside c.entry s' where
  kept : ∀ i, i < c.base → s'.reg i = s.reg i
  ends : s'.pc = pc ∧ returns = false ∨ c.AtReturn s'

/-- What the flow of statements says of the state that their code leads to. -/
def Realizes (c : Scene) (pc : Nat) (returns : Bool) : Flow → State → Prop
  | .next env, s => (s.pc = pc ∧ returns = false) ∧ c.HoldsEnv env s
  | .returned v, s => c.AtReturn s ∧ ∀ x, v.or (c.bare.value? c.current.function.ret) = some x →
    HoldsAs c.bare (s.reg c.base) c.current.function.ret x

def Executes (c : Scene) (p : Piece) (items : List Item) : Prop :=
  ∀ env s r, Inside c.entry s → Laid c.program s.pc items →
    Expected c.deep r (c.Ready env s ∧
      WellTyped (signatures c.functions) c.current c.current.function.ret p)
      (runPiece c.functions c.call env p) →
    Meets c.toSetting r (fun s' => c.Reaches s s' (s.pc + span items) (returns p))
      (c.Realizes (s.pc + span items) (returns p)) s

/-- A variable that was written has its value. -/
theorem holdsEnv_cons {env : Env} {name : String} {w : Variable} {a : Nat} (h : c.HoldsEnv env s)
    (hw : c.current.var? name = some w)
    (hkept : ∀ i, i < c.current.locals → i ≠ w.reg.toNat → s'.reg (c.base + i) = s.reg (c.base + i))
    (ha : HoldsAs c.bare (s'.reg (c.base + w.reg.toNat)) w.ty a) : c.HoldsEnv ((name, a) :: env) s' := by
  intro name' a' hlookup
  by_cases hname : name' = name
  · subst hname
    rw [List.lookup_cons_self] at hlookup
    cases hlookup
    exact ⟨w, hw, ha⟩
  · rw [List.lookup_cons, beq_false_of_ne hname] at hlookup
    obtain ⟨v, hv, hholds⟩ := h name' a' hlookup
    refine ⟨v, hv, ?_⟩
    rwa [hkept _ (c.sound.reg_lt hv) fun hreg => hname (c.sound.eq_of_reg_eq hv hw hreg)]

/-- A variable that was written and is not of the environment does not matter. -/
theorem holdsEnv_of_lookup_none {env : Env} {name : String} {w : Variable} (h : c.HoldsEnv env s)
    (hw : c.current.var? name = some w) (hnone : env.lookup name = none)
    (hkept : ∀ i, i < c.current.locals → i ≠ w.reg.toNat →
      s'.reg (c.base + i) = s.reg (c.base + i)) : c.HoldsEnv env s' := by
  intro name' a' hlookup
  have hname : name' ≠ name := by
    rintro rfl
    rw [hnone] at hlookup
    cases hlookup
  obtain ⟨v, hv, hholds⟩ := h name' a' hlookup
  refine ⟨v, hv, ?_⟩
  rwa [hkept _ (c.sound.reg_lt hv) fun hreg => hname (c.sound.eq_of_reg_eq hv hw hreg)]

/-- A value is put into a register; the other variables stay. -/
theorem meets_value {want : Option Ty} {dst : Reg} {x : Expr} {code : List Instr}
    (h : Lowers c.scope (.value want dst c.scope.current.free x) code)
    (hdst : dst.toNat < c.current.regs) (hroom : c.current.Room x) (hs : Inside c.entry s)
    (hlaid : Laid c.program s.pc (code.map .instr)) {env : Env} {r : Outcome Nat}
    (hr : Expected c.deep r (c.Ready env s ∧ Typed (signatures c.functions) c.current x)
      (evalExpr c.functions c.call env x)) :
    Meets c.toSetting r
      (fun s' => Passes c.entry s s' (s.pc + span (code.map .instr))
        fun i => i ≠ c.base + dst.toNat ∧ i < c.base + c.current.locals)
      (fun v s' => HoldsAs c.bare (s'.reg (c.base + dst.toNat)) x.type v) s := by
  have hfree : c.scope.current.free.toNat = c.current.locals := c.sound.toNat_free
  refine (simulates h env s r hs hlaid (Nat.le_of_eq hfree.symm)
    (hfree ▸ Nat.add_le_add_left hroom.1 _) hroom.2 (Layout.target_of_lt hdst) hr).mono
    (fun s' hp => hp.mono fun i hi => ⟨hi.1, .inl ?_⟩) fun s' v _ hv => hv
  rw [hfree]
  exact hi.2

/-- Code that writes a variable, or nothing below the window. -/
theorem Reaches.of_passes {pc : Nat} {keep : Nat → Prop} (hp : Passes c.entry s s' pc keep)
    (hkeep : ∀ i, i < c.base → keep i) : c.Reaches s s' pc false :=
  ⟨hp.toInside, fun i hi => hp.kept i (hkeep i hi), .inl ⟨hp.pc_eq, rfl⟩⟩

/-- Code that is run after something that keeps what is below the window. -/
theorem Reaches.after {s₂ : State} {pc : Nat} {returns returns' : Bool}
    (h : c.Reaches s' s₂ pc returns) (hkept : ∀ i, i < c.base → s'.reg i = s.reg i)
    (hreturns : returns = false → returns' = false) : c.Reaches s s₂ pc returns' :=
  ⟨h.toInside, fun i hi => (h.kept i hi).trans (hkept i hi),
    h.ends.imp_left fun hends => ⟨hends.1, hreturns hends.2⟩⟩

theorem Realizes.after {pc : Nat} {returns returns' : Bool} {flow : Flow}
    (h : c.Realizes pc returns flow s) (hreturns : returns = false → returns' = false) :
    c.Realizes pc returns' flow s := by
  cases flow with
  | next env => exact ⟨⟨h.1.1, hreturns h.1.2⟩, h.2⟩
  | returned v => exact h

theorem executes_declare {v : Var} {w : Variable} (hinit : v.init.isMissing = true)
    (hw : c.current.var? v.name = some w) :
    c.Executes (.one (.var v)) [.instr (.set w.type w.reg 0)] := by
  intro env s r hs hlaid hr
  have hreg := c.sound.reg_lt hw
  have hsizes := c.sound.sizes
  rw [runPiece, runStmt, isAbsent_eq, if_pos hinit] at hr
  rw [span_instr, span_nil, Nat.add_zero]
  refine Meets.after (puts_set hs hlaid.1 (c.lt_size (by omega))) ?_
  rintro s' ⟨hp, hset⟩
  refine Meets.here hr (.of_passes hp fun i hi => by omega) fun hC => ⟨⟨hp.pc_eq, rfl⟩, ?_⟩
  refine holdsEnv_cons hC.1.2 hw (fun i _ hi => hp.kept _ (by omega)) ?_
  rw [hset]
  exact holdsAs_of_low (c.sound.regType?_eq hw) (low_set_cut _ _ _) rfl

theorem executes_init {v : Var} {w : Variable} {code : List Instr}
    (hinit : v.init.isMissing = false) (hw : c.current.var? v.name = some w)
    (hty : v.type ≠ none → w.ty = v.type) (hroom : c.current.Room v.init)
    (h : Lowers c.scope (.value w.ty w.reg c.scope.current.free v.init) code) :
    c.Executes (.one (.var v)) (code.map .instr) := by
  intro env s r hs hlaid hr
  have hreg := c.sound.reg_lt hw
  have hsizes := c.sound.sizes
  rw [runPiece, runStmt, isAbsent_eq, if_neg (by simp [hinit])] at hr
  refine Meets.bind hr (fun r' hr' => meets_value h (by omega) hroom hs hlaid
    (hr'.mono fun hC => ⟨hC.1, ?_⟩)) ?_
  · cases hC.2 with
    | var _ htyped => exact (htyped hinit).1
  intro s' a hp hr'
  refine Meets.here hr' (.of_passes hp fun i hi => by omega) fun hC => ⟨⟨hp.pc_eq, rfl⟩, ?_⟩
  refine holdsEnv_cons hC.1.1.2 hw (fun i hlt hi => hp.kept _ (by omega)) ?_
  cases hC.1.2 with
  | var hne htyped => rw [hty hne, ← (htyped hinit).2]; exact hC.2

theorem executes_assign {pos : Pos} {name : String} {nt : Option Ty} {x : Expr} {w : Variable}
    {code : List Instr} (hw : c.current.var? name = some w) (hroom : c.current.Room x)
    (h : Lowers c.scope (.value w.ty w.reg c.scope.current.free x) code) :
    c.Executes (.one (.assign pos name nt x)) (code.map .instr) := by
  intro env s r hs hlaid hr
  have hreg := c.sound.reg_lt hw
  have hsizes := c.sound.sizes
  rw [runPiece, runStmt] at hr
  refine Meets.bind hr (fun r' hr' => meets_value h (by omega) hroom hs hlaid
    (hr'.mono fun hC => ⟨hC.1, ?_⟩)) ?_
  · cases hC.2 with
    | assign _ _ htyped _ => exact htyped
  intro s' a hp hr'
  have hkept : ∀ i, i < c.current.locals → i ≠ w.reg.toNat →
    s'.reg (c.base + i) = s.reg (c.base + i) := fun i hlt hi => hp.kept _ (by omega)
  refine Meets.here hr' (.of_passes hp fun i hi => by omega) fun hC => ⟨⟨hp.pc_eq, rfl⟩, ?_⟩
  cases hlookup : env.lookup name with
  | none => exact holdsEnv_of_lookup_none hC.1.1.2 hw hlookup hkept
  | some old =>
    refine holdsEnv_cons hC.1.1.2 hw hkept ?_
    cases hC.1.2 with
    | assign hv hvty _ hxty =>
      rw [hw] at hv
      cases hv
      rw [hvty, ← hxty]
      exact hC.2

/-- The low four bytes of the first register are zero where a `return` gives no value. -/
theorem holdsAs_bare {bare : Bare} {r : Register} {ty : Option Ty} {x : Nat}
    (hr : r.bits.toNat % 2 ^ 32 = 0) (hx : bare.value? ty = some x) : HoldsAs bare r ty x := by
  cases bare with
  | nothing => cases hx
  | zero =>
    obtain ⟨k, hk, hx⟩ := Option.bind_eq_some_iff.mp hx
    obtain ⟨hwidth, hx⟩ := Option.ite_none_right_eq_some.mp hx
    obtain rfl := Option.some.inj hx
    refine ⟨k, hk, ?_, nofun⟩
    exact Nat.mod_eq_zero_of_dvd ((Nat.pow_dvd_pow 2 hwidth).trans (Nat.dvd_of_mod_eq_zero hr))

theorem executes_retNothing {pos : Pos} {x : Expr} (hx : x.isMissing = true) :
    c.Executes (.one (.ret pos x)) [.instr (.set .s32 0 0), .instr (.ret 0)] := by
  intro env s r hs hlaid hr
  rw [runPiece, runStmt, isAbsent_eq, if_pos hx] at hr
  refine Meets.after (puts_set hs hlaid.1 (c.lt_size c.sound.sizes.2.1)) ?_
  rintro s' ⟨hp, hset⟩
  have hret : c.AtReturn s' := ⟨_, by rw [hp.pc_eq]; exact hlaid.2.1⟩
  refine Meets.here hr ⟨hp.toInside, fun i hi => hp.kept i ?_, .inr hret⟩ fun _ => ⟨hret, ?_⟩
  · exact Nat.ne_of_lt hi
  · refine fun v hv => holdsAs_bare ?_ hv
    change (s'.reg c.base).low .s32 = 0
    rw [show c.base = c.base + (0 : Reg).toNat from rfl, hset, low_set_cut]
    rfl

theorem executes_ret {pos : Pos} {x : Expr} {code : List Instr} (hx : x.isMissing = false)
    (hroom : c.current.Room x)
    (h : Lowers c.scope (.value c.scope.current.function.ret 0 c.scope.current.free x) code) :
    c.Executes (.one (.ret pos x)) (code.map .instr ++ [Item.instr (.ret 0)]) := by
  intro env s r hs hlaid hr
  rw [laid_append] at hlaid
  rw [runPiece, runStmt, isAbsent_eq, if_neg (by simp [hx])] at hr
  refine Meets.bind hr (fun r' hr' => meets_value h c.sound.sizes.2.1 hroom hs hlaid.1
    (hr'.mono fun hC => ⟨hC.1, ?_⟩)) ?_
  · cases hC.2 with
    | ret htyped => exact (htyped hx).1
  intro s' a hp hr'
  have hret : c.AtReturn s' := ⟨_, by rw [hp.pc_eq]; exact hlaid.2.1⟩
  refine Meets.here hr' ⟨hp.toInside, fun i hi => hp.kept i ⟨Nat.ne_of_lt hi, ?_⟩, .inr hret⟩
    fun hC => ⟨hret, ?_⟩
  · omega
  · rintro _ ⟨⟩
    cases hC.1.2 with
    | ret htyped =>
      rw [← (htyped hx).2]
      exact hC.2

/-- The code of a call: its arguments are put in place, and the function is called. -/
theorem stages_of_lowers {want : Option Ty} {dst free : Reg} {pos : Pos} {ty : Option Ty}
    {name : String} {nt : Option Ty} {args : List Expr} {code : List Instr}
    (h : Lowers c.scope (.value want dst free (.call pos ty name nt args)) code)
    (hfree : c.current.locals ≤ free.toNat)
    (htemps : free.toNat + argTemporaries (args.any makesCall) 0 0 args ≤
      c.current.locals + c.current.temps)
    (hstaging : widestArg args.length args ≤ c.current.staging) :
    ∃ callee codeA, c.scope.callee? name = some callee ∧ args.length = callee.args ∧
      c.Stages free (callee.function.params.map Var.type) args codeA ∧
      code = codeA ++ .call callee.index.toUInt32 :: moveTo dst (c.current.base args.length) := by
  cases h with
  | literal _ hbits => cases hbits
  | call hcallee hlen hany hargs =>
    exact ⟨_, _, hcallee, hlen, stages_direct hany hfree htemps hstaging (simulates hargs), rfl⟩
  | callWaiting hcallee hlen hany hargs =>
    exact ⟨_, _, hcallee, hlen, stages_waiting hany hfree htemps hstaging (simulates hargs), rfl⟩

theorem executes_call {pos' pos : Pos} {ty : Option Ty} {name : String} {nt : Option Ty}
    {args : List Expr} {code : List Instr} (hroom : c.current.Room (.call pos ty name nt args))
    (h : Lowers c.scope (.value none (c.scope.current.base args.length) c.scope.current.free
      (.call pos none name none args)) code) :
    c.Executes (.one (.expr pos' (.call pos ty name nt args))) (code.map .instr) := by
  intro env s r hs hlaid hr
  have hfree : c.scope.current.free.toNat = c.current.locals := c.sound.toNat_free
  obtain ⟨callee, codeA, hcallee, hlen, hstages, rfl⟩ := stages_of_lowers h
    (Nat.le_of_eq hfree.symm) (hfree ▸ Nat.add_le_add_left hroom.1 _) hroom.2
  have hmove : moveTo (c.scope.current.base args.length) (c.current.base args.length) = [] :=
    if_neg fun hne => hne rfl
  rw [hmove] at hlaid ⊢
  have hf : function? c.functions name = some callee.function :=
    function?_of_callee? c.function?_eq hcallee
  rw [runPiece, runStmt, evalCall, named?_eq, hf, Outcome.part_some_bind] at hr
  simp only [← Outcome.bind_assoc] at hr
  rw [Outcome.bind_assoc _ (fun _ => pure ())] at hr
  have htemps := hroom.1
  have hwidest := (le_widestArg args.length args).1
  refine Meets.bind hr (fun r' hr' => meets_call hcallee hlen (by omega)
    (Nat.le_trans hwidest hroom.2) hstages hs hlaid (hr'.mono fun hC => ⟨hC.1, ?_⟩)) ?_
  · cases hC.2 with
    | expr htyped => exact (typed_call hf htyped).2
  rintro s' v ⟨hp, -⟩ hr'
  refine Meets.here hr' (.of_passes hp fun i hi => by omega) fun hC => ⟨⟨hp.pc_eq, rfl⟩, ?_⟩
  exact (hC.1.1.pass hp fun i hi => by omega).2

theorem executes_nil : c.Executes (.all []) [] := by
  intro env s r hs _ hr
  exact Meets.here hr ⟨hs, fun _ _ => rfl, .inl ⟨rfl, rfl⟩⟩ fun hC => ⟨⟨rfl, rfl⟩, hC.1.2⟩

theorem returns_cons {x : Stmt} {rest : Block} (hx : isReturn x = false)
    (hrest : returns (.all rest) = false) : returns (.all (x :: rest)) = false := by
  cases rest with
  | nil => exact hx
  | cons y ys => exact hrest

theorem executes_cons {x : Stmt} {rest : Block} {items items' : List Item}
    (hx : c.Executes (.one x) items) (hrest : c.Executes (.all rest) items') :
    c.Executes (.all (x :: rest)) (items ++ items') := by
  intro env s r hs hlaid hr
  rw [laid_append] at hlaid
  rw [span_append, ← Nat.add_assoc]
  rw [runPiece, runBlock] at hr
  refine Meets.bind hr (fun r' hr' => hx env s r' hs hlaid.1 (hr'.mono fun hC => ⟨hC.1, ?_⟩)) ?_
  · cases hC.2 with
    | cons hx _ => exact hx
  intro s' flow hp hr'
  -- the rest is run from the end of the first statement
  have hgo : ∀ env', (s'.pc = s.pc + span items ∧ isReturn x = false) →
      Expected c.deep r (c.Ready env' s' ∧ WellTyped (signatures c.functions) c.current
        c.current.function.ret (.all rest)) (runPiece c.functions c.call env' (.all rest)) →
      Meets c.toSetting r
        (fun s₂ => c.Reaches s s₂ (s.pc + span items + span items') (returns (.all (x :: rest))))
        (c.Realizes (s.pc + span items + span items') (returns (.all (x :: rest)))) s' := by
    rintro env' ⟨hpc, hno⟩ hr''
    rw [← hpc] at hlaid ⊢
    exact (hrest env' s' r hp.toInside hlaid.2 hr'').mono
      (fun s₂ h => h.after hp.kept (returns_cons hno)) fun s₂ _ _ h => h.after (returns_cons hno)
  rcases hr' with hopen | ⟨hC, hr'⟩
  · rcases hp.ends with hends | hret
    · exact hgo [] hends (.inl hopen)
    · exact Leads.here ⟨⟨hp.toInside, hp.kept, .inr hret⟩, hopen.fulfils _⟩
  · cases flow with
    | next env' =>
      refine hgo env' hC.2.1 (.inr ⟨⟨⟨hC.1.1.1, hC.2.2⟩, ?_⟩, hr'⟩)
      cases hC.1.2 with
      | cons _ hrest => exact hrest
    | returned v =>
      exact Meets.here (.inr ⟨hC, hr'⟩) ⟨hp.toInside, hp.kept, .inr hC.2.1⟩ fun hC => hC.2

/-- The code of a block that another jumps over. -/
theorem executes_jump {xs : Block} {items : List Item} {l pc : Nat} (h : c.Executes (.all xs) items)
    (hl : Names c.program l pc) {env : Env} {r : Outcome Flow} (hs : Inside c.entry s)
    (hlaid : Laid c.program s.pc (items ++ [Item.instr (.jump .jmp l.toUInt32)]))
    (hr : Expected c.deep r (c.Ready env s ∧ WellTyped (signatures c.functions) c.current
      c.current.function.ret (.all xs)) (runPiece c.functions c.call env (.all xs))) :
    Meets c.toSetting r (fun s' => c.Reaches s s' pc false) (c.Realizes pc false) s := by
  rw [laid_append] at hlaid
  obtain ⟨hlaid, hjump, -⟩ := hlaid
  have hne : ∀ s', c.AtReturn s' → s'.pc ≠ s.pc + span items := by
    rintro s' ⟨next, hret⟩ hpc
    rw [hpc, hjump] at hret
    cases hret
  refine (h env s r hs hlaid hr).andThen fun s₁ hp₁ => ?_
  rcases hp₁.ends with ⟨hpc, -⟩ | hret
  · rw [← hpc] at hjump
    refine (leads_jumps [.jmp] hl ⟨hjump, trivial⟩).mono ?_ fun _ he => he
    rintro s₂ rfl
    have hp₂ := inside_goTo hp₁.toInside s₁.flags pc fun _ => True
    refine ⟨⟨hp₂.toInside, hp₁.kept, .inl ⟨rfl, rfl⟩⟩, ?_⟩
    rintro (env' | v) hfollows
    · exact ⟨⟨rfl, rfl⟩, hfollows.2⟩
    · exact absurd hpc (hne s₁ hfollows.1)
  · refine .here ⟨⟨hp₁.toInside, hp₁.kept, .inr hret⟩, ?_⟩
    rintro (env' | v) hfollows
    · exact absurd hfollows.1.1 (hne s₁ hret)
    · exact hfollows

theorem executes_cond {n : Nat} {pos : Pos} {test : Expr} {body : Block} {more : Option Block}
    {code : List Instr} {items items' : List Item} (htest : LowersTest c.scope n test code)
    (hpair : test.IsPair) (hroom : c.current.Room test) (hbody : c.Executes (.all body) items)
    (hmore : c.Executes (.all (elseStmts more)) items') :
    c.Executes (.one (.cond pos test body more))
      (code.map .instr ++ .label n :: items ++ .instr (.jump .jmp (n + 2).toUInt32) ::
        .label (n + 1) :: items' ++ [Item.label (n + 2)]) := by
  intro env s r hs hlaid hr
  simp only [laid_append, Laid, span_append, span_label, span_instr, span_nil, ← Nat.add_assoc,
    Nat.add_zero] at hlaid ⊢
  obtain ⟨⟨⟨hcode, hyes, hitems⟩, hjump, hno, hitems'⟩, hend, -⟩ := hlaid
  rw [runPiece, runStmt_cond] at hr
  refine Meets.bind hr (fun r' hr' => meets_test htest hpair hroom hyes hno hs hcode
    (hr'.mono fun hC => ⟨hC.1, ?_⟩)) ?_
  · cases hC.2 with
    | cond htyped _ _ => exact htyped
  rintro s₁ b ⟨b', hp⟩ hr₁
  -- the branch is the one of the evaluation, if there is one
  obtain ⟨b, hp, hr₁⟩ : ∃ b : Bool,
      Passes c.entry s s₁ (if b then s.pc + span (code.map .instr) else s.pc +
          span (code.map .instr) + span items + (Instr.jump .jmp (n + 2).toUInt32).bytes.length)
        (· < c.base + c.current.locals) ∧
      Expected c.deep r (c.Ready env s₁ ∧ WellTyped (signatures c.functions) c.current
        c.current.function.ret (.all (if b then body else elseStmts more)))
        (runPiece c.functions c.call env (.all (if b then body else elseStmts more))) := by
    rcases hr₁ with hopen | ⟨hC, hr₁⟩
    · exact ⟨b', hp, .inl hopen⟩
    · refine ⟨b, ⟨hp.toInside, hC.2, hp.kept⟩, .inr ⟨⟨hC.1.1.pass hp fun i hi => ?_, ?_⟩, hr₁⟩⟩
      · omega
      · cases hC.1.2 with
        | cond _ hbody hmore => cases b <;> assumption
  have hkept : ∀ i, i < c.base → s₁.reg i = s.reg i := fun i hi => hp.kept i (by omega)
  have hpc := hp.pc_eq
  cases b with
  | true =>
    rw [if_pos rfl] at hpc hr₁
    refine (executes_jump hbody hend hp.toInside ?_ hr₁).mono
      (fun s₂ h => h.after hkept id) fun s₂ _ _ h => h
    rw [hpc, laid_append]
    exact ⟨hitems, hjump, trivial⟩
  | false =>
    rw [if_neg Bool.false_ne_true] at hpc hr₁
    rw [← hpc] at hitems' ⊢
    exact (hmore env s₁ r hp.toInside hitems' hr₁).mono
      (fun s₂ h => h.after hkept fun _ => rfl) fun s₂ _ _ h => h.after fun _ => rfl

/-- The code of all statements follows the execution of them. -/
theorem executes {p : Piece} {n n' : Nat} {items : List Item}
    (h : LowersStmt c.scope p n items n') (hplanned : Planned c.current p) (hpaired : Paired p) :
    c.Executes p items := by
  induction h with
  | declare hinit =>
    cases hplanned with
    | var hw _ _ =>
      have hw' : c.scope.current.var? _ = _ := hw
      rw [hw']
      exact executes_declare hinit hw
  | init hinit hcode =>
    cases hplanned with
    | var hw hty hroom =>
      have hw' : c.scope.current.var? _ = _ := hw
      rw [hw'] at hcode
      exact executes_init hinit hw hty hroom hcode
  | assign hw hcode =>
    cases hplanned with
    | assign hroom => exact executes_assign hw hroom hcode
  | retNothing hx => exact executes_retNothing hx
  | ret hx hcode =>
    cases hplanned with
    | ret hroom => exact executes_ret hx hroom hcode
  | call hcode =>
    cases hplanned with
    | expr hroom => exact executes_call hroom hcode
  | cond htest _ _ ihbody ihmore =>
    cases hplanned with
    | cond hroom hbody hmore =>
      cases hpaired with
      | cond hpair hbody' hmore' =>
        exact executes_cond htest hpair hroom (ihbody hbody hbody') (ihmore hmore hmore')
  | nil => exact executes_nil
  | cons _ _ ihx ihrest =>
    cases hplanned with
    | cons hx hrest =>
      cases hpaired with
      | cons hx' hrest' => exact executes_cons (ihx hx hx') (ihrest hrest hrest')

end RegisterLang.Machine.Scene
