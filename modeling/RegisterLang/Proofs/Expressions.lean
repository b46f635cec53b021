import RegisterLang.Proofs.Scene

/-!
# Expressions that are run

The code of an expression follows the evaluation of it.
-/
namespace RegisterLang.Machine.Scene
open Lowering Reference
variable {c : Scene} {s s' : State}

def keepValue (c : Scene) (dst free : Reg) (x : Expr) (i : Nat) : Prop :=
  i ≠ c.base + dst.toNat ∧ (i < c.base + free.toNat ∨
    makesCall x = false ∧ c.base + free.toNat + temporaries x ≤ i)

def keepOperand (c : Scene) (free : Reg) (x : Expr) (i : Nat) : Prop :=
  i < c.base + free.toNat ∨
    makesCall x = false ∧ c.base + free.toNat + operandTemporaries x ≤ i

def keepArgs (c : Scene) (waiting : Bool) (dst free : Reg) (i : Nat) : Prop :=
  i < c.base + dst.toNat ∧ (waiting = true ∨ i < c.base + free.toNat ∨
    c.base + c.current.locals + c.current.temps ≤ i)

/-- Code for a task follows the evaluation of it. -/
def Simulates (c : Scene) : Task → List Instr → Prop
  | .value _ dst free x, code => ∀ env s r, Inside c.entry s →
    Laid c.program s.pc (code.map .instr) → c.current.locals ≤ free.toNat →
    free.toNat + temporaries x ≤ c.current.locals + c.current.temps →
    widestCall x ≤ c.current.staging → c.current.Target dst x →
    Expected c.deep r (c.Ready env s ∧ Typed (signatures c.functions) c.current x)
      (evalExpr c.functions c.call env x) →
    Meets c.toSetting r
      (fun s' => Passes c.entry s s' (s.pc + span (code.map .instr)) (c.keepValue dst free x))
      (fun v s' => HoldsAs c.bare (s'.reg (c.base + dst.toNat)) x.type v) s
  | .operand _ free x a, code => c.current.locals ≤ free.toNat →
    free.toNat + operandTemporaries x ≤ c.current.locals + c.current.temps →
    widestCall x ≤ c.current.staging → a.toNat ≤ free.toNat ∧ a.toNat < c.current.regs ∧
    ∀ env s r, Inside c.entry s → Laid c.program s.pc (code.map .instr) →
      Expected c.deep r (c.Ready env s ∧ Typed (signatures c.functions) c.current x)
        (evalExpr c.functions c.call env x) →
      Meets c.toSetting r
        (fun s' => Passes c.entry s s' (s.pc + span (code.map .instr)) (c.keepOperand free x))
        (fun v s' => HoldsAs c.bare (s'.reg (c.base + a.toNat)) x.type v) s
  | .args waiting dst free types xs, code => ∀ env s r, Inside c.entry s →
    Laid c.program s.pc (code.map .instr) → c.current.Seats waiting dst free xs →
    Expected c.deep r (c.Ready env s ∧ TypedArgs (signatures c.functions) c.current types xs)
      (evalArgs c.functions c.call env xs) →
    Meets c.toSetting r
      (fun s' => Passes c.entry s s' (s.pc + span (code.map .instr)) (c.keepArgs waiting dst free))
      (fun vs s' => vs.length = xs.length ∧ ∀ j a v, xs[j]? = some a → vs[j]? = some v →
        HoldsAs c.bare (s'.reg (c.base + dst.toNat + j)) a.type v) s

/-- A move that is made only if it has to be. -/
theorem puts_moveTo (hs : Inside c.entry s) {dst src : Reg}
    (h : Laid c.program s.pc ((moveTo dst src).map .instr))
    (hdst : src ≠ dst → c.base + dst.toNat < c.entry.regs.size)
    (hsrc : src ≠ dst → c.base + src.toNat < c.entry.regs.size) :
    c.Puts s (s.pc + span ((moveTo dst src).map .instr)) (c.base + dst.toNat)
      (· = s.reg (c.base + src.toNat)) := by
  unfold moveTo at h ⊢
  by_cases hne : src ≠ dst
  · rw [if_pos hne] at h ⊢
    exact puts_mov hs h.1 (hdst hne) (hsrc hne)
  · rw [if_neg hne]
    obtain rfl := Decidable.not_not.mp hne
    exact .here ⟨⟨hs, rfl, fun _ _ => rfl⟩, rfl⟩

/-- A variable that is read has the type and the value of the environment. -/
theorem holdsAs_of_ready {env : Env} {pos : Pos} {ty : Option Ty} {name : String} {v : Variable}
    {a : Nat} (hv : c.current.var? name = some v) (h : c.Ready env s)
    (ht : Typed (signatures c.functions) c.current (.ident pos ty name))
    (ha : env.lookup name = some a) : HoldsAs c.bare (s.reg (c.base + v.reg.toNat)) ty a := by
  obtain ⟨w, hw, rfl⟩ := ht
  obtain ⟨w', hw', hr⟩ := h.2 name a ha
  rw [hv] at hw hw'
  cases hw
  cases hw'
  exact hr

theorem simulates_ident {want : Option Ty} {dst free : Reg} {pos : Pos} {ty : Option Ty}
    {name : String} {v : Variable} (hv : c.current.var? name = some v) :
    c.Simulates (.value want dst free (.ident pos ty name)) (moveTo dst v.reg) := by
  intro env s r hs hlaid hfree _ _ hdst hr
  have hsizes := c.sound.sizes
  have hreg := c.sound.reg_lt hv
  refine Meets.after (puts_moveTo hs hlaid (fun _ => c.lt_size hdst) fun _ =>
    c.lt_size (by omega)) ?_
  rintro s' ⟨hp, hreg'⟩
  obtain ⟨a, hvalue⟩ := hr.value_of_read
  refine Meets.here hvalue (hp.mono fun i hi => hi.1) fun hC => ?_
  rw [hreg']
  exact holdsAs_of_ready hv hC.1.1 hC.1.2 hC.2

theorem simulates_literal {scope : Scope} {want : Option Ty} {dst free : Reg} {x : Expr}
    {t : RegType} {bits : UInt64} (ht : regType? (scope.typeOf want x) = some t)
    (hbits : literalBits? t x = some bits) :
    c.Simulates (.value want dst free x) [.set t dst bits] := by
  intro env s r hs hlaid hfree _ _ hdst hr
  have hdst : dst.toNat < c.current.regs := by
    cases x <;> first | exact hdst | cases hbits
  rw [evalExpr_literal hbits] at hr
  have hr := (hr.of_kind ht).of_illFormed_or (literal_of_literalBits? hbits)
  rw [List.map_singleton, span_instr, span_nil, Nat.add_zero]
  refine Meets.after (puts_set hs hlaid.1 (c.lt_size hdst)) ?_
  rintro s' ⟨hp, hreg⟩
  refine Meets.here hr (hp.mono fun i hi => hi.1) fun hC => ?_
  rw [hreg]
  exact holdsAs_of_low hC.2 (low_set_cut _ _ _) rfl

theorem simulates_operandIdent {want : Option Ty} {free : Reg} {pos : Pos} {ty : Option Ty}
    {name : String} {v : Variable} (hv : c.current.var? name = some v) :
    c.Simulates (.operand want free (.ident pos ty name) v.reg) [] := by
  intro hfree _ _
  have hsizes := c.sound.sizes
  have hreg := c.sound.reg_lt hv
  refine ⟨by omega, by omega, fun env s r hs _ hr => ?_⟩
  obtain ⟨a, hvalue⟩ := hr.value_of_read
  refine Meets.here hvalue ⟨hs, rfl, fun _ _ => rfl⟩ fun hC => ?_
  exact holdsAs_of_ready hv hC.1.1 hC.1.2 hC.2

theorem simulates_operandValue {want : Option Ty} {free : Reg} {x : Expr} {code : List Instr}
    (hx : isIdent x = false) (h : c.Simulates (.value want free (free + 1) x) code) :
    c.Simulates (.operand want free x free) code := by
  intro hfree htemps hstaging
  have hsizes := c.sound.sizes
  rw [operandTemporaries, hx] at htemps
  simp only [Bool.false_eq_true, if_false] at htemps
  have hnext : (free + 1).toNat = free.toNat + 1 := toNat_add_one (by omega)
  refine ⟨Nat.le_refl _, by omega, fun env s r hs hlaid hr => ?_⟩
  refine (h env s r hs hlaid (by omega) (by omega) hstaging (Layout.target_of_lt (by omega)) hr).mono
    (fun s' hp => hp.mono fun i hi => ?_) fun s' a _ ha => ha
  simp only [keepOperand, operandTemporaries, hx, Bool.false_eq_true, if_false] at hi
  rw [keepValue, hnext]
  rcases hi with hi | ⟨hcall, hi⟩
  · exact ⟨by omega, .inl (by omega)⟩
  · exact ⟨by omega, .inr ⟨hcall, by omega⟩⟩

/-- The value of an operand as a type reads it. -/
theorem low_of_holdsAs {bare : Bare} {r : Register} {x : Expr} {ty : Option Ty} {t : RegType}
    {a : Nat} (h : HoldsAs bare r x.type a) (hx : x.type = none ∨ x.type = ty)
    (ht : regType? ty = some t) : r.low t = a := by
  rcases hx with hx | hx
  · obtain ⟨k, hk, -⟩ := h
    rw [hx] at hk
    cases hk
  · rw [hx] at h
    exact h.low_eq ht

/-- Two operands are evaluated one after the other, and then what is done with their values. -/
theorem meets_operands {α : Type} {want : Option Ty} {free : Reg} {left right : Expr} {a b : Reg}
    {codeA codeB : List Instr} (hleft : c.Simulates (.operand want free left a) codeA)
    (hright : c.Simulates (.operand want (free + 1) right b) codeB)
    (hfree : c.current.locals ≤ free.toNat)
    (htemps : free.toNat + max (operandTemporaries left) (1 + operandTemporaries right) ≤
      c.current.locals + c.current.temps)
    (hstaging : max (widestCall left) (widestCall right) ≤ c.current.staging)
    (hs : Inside c.entry s) (hlaid : Laid c.program s.pc ((codeA ++ codeB).map .instr)) {env : Env}
    {r : Outcome α} {C : Prop} {f : Nat → Nat → Outcome α} {Q : State → Prop}
    {P : α → State → Prop}
    (hr : Expected c.deep r C (evalExpr c.functions c.call env left >>= fun x =>
      evalExpr c.functions c.call env right >>= f x))
    (hC : C → c.Ready env s ∧ Typed (signatures c.functions) c.current left ∧
      Typed (signatures c.functions) c.current right)
    (hnext : a.toNat < c.current.regs → b.toNat < c.current.regs → ∀ s' x y,
      Passes c.entry s s' (s.pc + span ((codeA ++ codeB).map .instr))
        (fun i => c.keepOperand free left i ∧ c.keepOperand (free + 1) right i) →
      Expected c.deep r (C ∧ HoldsAs c.bare (s'.reg (c.base + a.toNat)) left.type x ∧
        HoldsAs c.bare (s'.reg (c.base + b.toNat)) right.type y) (f x y) →
      Meets c.toSetting r Q P s') :
    Meets c.toSetting r Q P s := by
  have hsizes := c.sound.sizes
  have hone : (free + 1).toNat = free.toNat + 1 := toNat_add_one (by omega)
  simp only [List.map_append, laid_append, span_append] at hlaid hnext
  obtain ⟨ha, ha', hleft⟩ := hleft hfree (by omega) (by omega)
  obtain ⟨hb, hb', hright⟩ := hright (by omega) (by omega) (by omega)
  refine Meets.bind hr (fun r' hr' =>
    hleft env s r' hs hlaid.1 (hr'.mono fun h => ⟨(hC h).1, (hC h).2.1⟩)) ?_
  intro s₁ x hp₁ hr₁
  have hlaidB := hlaid.2
  rw [← hp₁.pc_eq] at hlaidB
  have hready : ∀ i, i < c.current.locals → c.keepOperand free left (c.base + i) :=
    fun i hi => .inl (by omega)
  refine Meets.bind hr₁ (fun r' hr' => hright env s₁ r' hp₁.toInside hlaidB
    (hr'.mono fun h => ⟨(hC h.1).1.pass hp₁ hready, (hC h.1).2.2⟩)) ?_
  intro s₂ y hp₂ hr₂
  refine hnext ha' hb' s₂ x y ⟨hp₂.toInside, ?_, fun i hi => ?_⟩
    (hr₂.mono fun h => ⟨h.1.1, ?_, h.2⟩)
  · rw [hp₂.pc_eq, hp₁.pc_eq, Nat.add_assoc]
  · rw [hp₂.kept i hi.2, hp₁.kept i hi.1]
  · rw [hp₂.kept _ (.inl (by omega))]
    exact h.1.2

theorem simulates_operation {want : Option Ty} {dst free : Reg} {pos : Pos} {ty : Option Ty}
    {op : Op} {left right : Expr} {t : RegType} {m : Opcode} {a b : Reg} {codeA codeB : List Instr}
    (ht : regType? (c.scope.typeOf want (.op pos ty op true left right)) = some t)
    (hm : mathOp? op = some m)
    (hleft : c.Simulates
      (.operand (c.scope.typeOf want (.op pos ty op true left right)) free left a) codeA)
    (hright : c.Simulates
      (.operand (c.scope.typeOf want (.op pos ty op true left right)) (free + 1) right b) codeB) :
    c.Simulates (.value want dst free (.op pos ty op true left right))
      (codeA ++ codeB ++ [Instr.math m t dst a b]) := by
  intro env s r hs hlaid hfree htemps hstaging hdst hr
  have hsizes := c.sound.sizes
  have htemps : free.toNat + max (operandTemporaries left) (1 + operandTemporaries right) ≤
      c.current.locals + c.current.temps := htemps
  have hone : (free + 1).toNat = free.toNat + 1 := toNat_add_one (by omega)
  rw [List.map_append, List.map_singleton, laid_append] at hlaid
  obtain ⟨hlaid, hmath, -⟩ := hlaid
  rw [evalExpr] at hr
  have hr := hr.of_kind ht
  simp only [if_true] at hr
  refine meets_operands hleft hright hfree htemps hstaging hs hlaid hr
    (fun h => ⟨h.1.1, (h.1.2.1 rfl).1, h.1.2.2.1⟩) ?_
  intro ha hb s₁ x y hp₁ hr₁
  rw [← hp₁.pc_eq] at hmath
  refine (meets_math hp₁.toInside hm hmath (isKnown_of_regType? ht) (c.lt_size hdst) (c.lt_size ha)
    (c.lt_size hb) hr₁ fun h => ⟨?_, ?_⟩).mono (fun s' hp => ⟨hp.toInside, ?_, fun i hi => ?_⟩) ?_
  · exact low_of_holdsAs h.2.1 (h.1.1.2.1 rfl).2 h.1.2
  · exact low_of_holdsAs h.2.2 h.1.1.2.2.2 h.1.2
  · rw [hp.pc_eq, hp₁.pc_eq, span_concat, Nat.add_assoc]
  · have hkeep : c.keepOperand free left i ∧ c.keepOperand (free + 1) right i := by
      rcases hi.2 with hi | ⟨hcall, hi⟩
      · exact ⟨.inl hi, .inl (by omega)⟩
      · obtain ⟨hl, hr⟩ := Bool.or_eq_false_iff.mp hcall
        change _ + max (operandTemporaries left) (1 + operandTemporaries right) ≤ i at hi
        exact ⟨.inr ⟨hl, by omega⟩, .inr ⟨hr, by omega⟩⟩
    rw [hp.kept i hi.1, hp₁.kept i hkeep]
  · exact fun s' v _ h => holdsAs_of_low h.1.1.2 h.2.2 h.2.1

theorem simulates_negation {want : Option Ty} {dst free : Reg} {pos : Pos} {ty : Option Ty}
    {op : Op} {left right : Expr} {t : RegType} {b : Reg} {code : List Instr}
    (ht : regType? (c.scope.typeOf want (.op pos ty op false left right)) = some t)
    (hright : c.Simulates
      (.operand (c.scope.typeOf want (.op pos ty op false left right)) (free + 1) right b) code) :
    c.Simulates (.value want dst free (.op pos ty op false left right))
      (.set t free 0 :: code ++ [Instr.math .sub t dst free b]) := by
  intro env s r hs hlaid hfree htemps hstaging hdst hr
  have hsizes := c.sound.sizes
  have htemps : free.toNat + (1 + operandTemporaries right) ≤ c.current.locals + c.current.temps :=
    htemps
  have hstaging : max (widestCall left) (widestCall right) ≤ c.current.staging := hstaging
  have hnext : (free + 1).toNat = free.toNat + 1 := toNat_add_one (by omega)
  simp only [List.cons_append, List.map_cons, List.map_append, List.map_nil, Laid, laid_append,
    span_append, span_instr, span_nil, Nat.add_zero] at hlaid ⊢
  obtain ⟨hset, hlaidB, hlaidM, -⟩ := hlaid
  obtain ⟨hb, hb', hright⟩ := hright (by omega) (by omega) (by omega)
  rw [evalExpr] at hr
  have hr := hr.of_kind ht
  simp only [if_false, Bool.false_eq_true] at hr
  refine Meets.after (puts_set hs hset (c.lt_size (by omega))) ?_
  rintro s₁ ⟨hp₁, hzero⟩
  rw [← hp₁.pc_eq] at hlaidB hlaidM
  have hready : ∀ i, i < c.current.locals → c.base + i ≠ c.base + free.toNat := by
    intro i hi
    omega
  refine Meets.bind hr (fun r' hr' => hright env s₁ r' hp₁.toInside hlaidB
    (hr'.mono fun h => ⟨h.1.1.pass hp₁ hready, h.1.2.2.1⟩)) ?_
  intro s₂ y hp₂ hr₂
  rw [← hp₂.pc_eq] at hlaidM
  have hop : mathOp? .sub = some .sub := rfl
  refine (meets_math hp₂.toInside hop hlaidM (isKnown_of_regType? ht) (c.lt_size hdst)
    (c.lt_size (by omega)) (c.lt_size hb') hr₂ fun h => ⟨?_, ?_⟩).mono ?_ ?_
  · rw [hp₂.kept _ (.inl (by omega)), hzero, low_set_cut]
    rfl
  · exact low_of_holdsAs h.2 h.1.1.2.2.2 h.1.2
  · intro s' hp
    refine ⟨hp.toInside, ?_, fun i hi => ?_⟩
    · rw [hp.pc_eq, hp₂.pc_eq, hp₁.pc_eq]
      omega
    · have hkeep : i ≠ c.base + free.toNat ∧ c.keepOperand (free + 1) right i := by
        rcases hi.2 with hi | ⟨hcall, hi⟩
        · exact ⟨by omega, .inl (by omega)⟩
        · obtain ⟨-, hr⟩ := Bool.or_eq_false_iff.mp hcall
          change _ + (1 + operandTemporaries right) ≤ i at hi
          exact ⟨by omega, .inr ⟨hr, by omega⟩⟩
      rw [hp.kept i hi.1, hp₂.kept i hkeep.2, hp₁.kept i hkeep.1]
  · exact fun s' v _ h => holdsAs_of_low h.1.1.2 h.2.2 h.2.1

theorem simulates_nil {waiting : Bool} {dst free : Reg} {types : List (Option Ty)} :
    c.Simulates (.args waiting dst free types []) [] := by
  intro env s r hs _ _ hr
  exact Meets.here hr ⟨hs, rfl, fun _ _ => rfl⟩ fun _ => ⟨rfl, fun j a v ha => by simp at ha⟩

/-- What the first argument leaves for the others. -/
theorem keepValue_of_seats {waiting : Bool} {dst free : Reg} {a : Expr} {rest : List Expr}
    (h : c.current.Seats waiting dst free (a :: rest)) {i : Nat}
    (hi : c.keepArgs waiting dst free i ∨ ∃ j, j < c.current.locals ∧ i = c.base + j) :
    c.keepValue dst (if waiting then dst + 1 else free) a i := by
  obtain ⟨-, -, hnext⟩ := h.toNat_next c.sound
  cases waiting with
  | true =>
    obtain ⟨hlocals, -⟩ := h.waits rfl
    rcases hi with ⟨hi, -⟩ | ⟨j, hj, rfl⟩
    · exact ⟨by omega, .inl (by simp only [if_true, hnext]; omega)⟩
    · exact ⟨by omega, .inl (by simp only [if_true, hnext]; omega)⟩
  | false =>
    obtain ⟨hlocals, hdst, hlen, hall⟩ := h.direct rfl
    obtain ⟨hcall, htemps⟩ := hall a List.mem_cons_self
    rcases hi with ⟨hi, hw | hi' | hi'⟩ | ⟨j, hj, rfl⟩
    · cases hw
    · exact ⟨by omega, .inl hi'⟩
    · refine ⟨by omega, .inr ⟨hcall, ?_⟩⟩
      simp only [Bool.false_eq_true, if_false]
      omega
    · exact ⟨by omega, .inl (by simp only [Bool.false_eq_true, if_false]; omega)⟩

theorem simulates_cons {waiting : Bool} {dst free : Reg} {types : List (Option Ty)} {a : Expr}
    {rest : List Expr} {code code' : List Instr}
    (ha : c.Simulates (.value (types.headD none) dst (if waiting then dst + 1 else free) a) code)
    (hrest : c.Simulates (.args waiting (dst + 1) free types.tail rest) code') :
    c.Simulates (.args waiting dst free types (a :: rest)) (code ++ code') := by
  intro env s r hs hlaid hseats hr
  obtain ⟨-, hdst, hnext⟩ := hseats.toNat_next c.sound
  obtain ⟨hfree, htemps⟩ := hseats.head c.sound
  rw [List.map_append, laid_append] at hlaid
  rw [evalArgs] at hr
  refine Meets.bind hr (fun r' hr' => ha env s r' hs hlaid.1 hfree htemps
    (hseats.staging a List.mem_cons_self) (Layout.target_of_lt hdst)
    (hr'.mono fun h => ⟨h.1, h.2.1.1⟩)) ?_
  intro s₁ v hp₁ hr₁
  have hready : ∀ i, i < c.current.locals →
      c.keepValue dst (if waiting then dst + 1 else free) a (c.base + i) :=
    fun i hi => keepValue_of_seats hseats (.inr ⟨i, hi, rfl⟩)
  refine Meets.bind hr₁ (fun r' hr' => hrest env s₁ r' hp₁.toInside (hp₁.pc_eq ▸ hlaid.2)
    (hseats.tail c.sound) (hr'.mono fun h => ⟨h.1.1.pass hp₁ hready, h.1.2.2⟩)) ?_
  intro s₂ vs hp₂ hr₂
  have hfirst : c.keepArgs waiting (dst + 1) free (c.base + dst.toNat) := by
    refine ⟨by omega, ?_⟩
    cases waiting with
    | true => exact .inl rfl
    | false =>
      have := (hseats.direct rfl).2.1
      exact .inr (.inr (by omega))
  refine Meets.here hr₂ ⟨hp₂.toInside, ?_, fun i hi => ?_⟩ fun hC => ⟨?_, fun j b w hb hw => ?_⟩
  · rw [hp₂.pc_eq, hp₁.pc_eq, List.map_append, span_append]
    omega
  · rw [hp₂.kept i ⟨by have := hi.1; omega, hi.2⟩, hp₁.kept i (keepValue_of_seats hseats (.inl hi))]
  · rw [List.length_cons, List.length_cons, hC.2.1]
  · cases j with
    | zero =>
      cases hb
      cases hw
      rw [Nat.add_zero, hp₂.kept _ hfirst]
      exact hC.1.2
    | succ j =>
      have := hC.2.2 j b w hb hw
      rwa [hnext, show c.base + (dst.toNat + 1) + j = c.base + dst.toNat + (j + 1) by omega] at this

/-- Values that waited are moved to where the call expects them. -/
theorem leads_moves (hs : Inside c.entry s) {target source : Reg} {n : Nat}
    (hlaid : Laid c.program s.pc ((moves target source n).map .instr))
    (hsource : source.toNat + n ≤ target.toNat) (htarget : target.toNat + n ≤ c.current.regs) :
    Leads c.program c.limits (fun s' =>
      Passes c.entry s s' (s.pc + span ((moves target source n).map .instr))
        (· < c.base + target.toNat) ∧
      ∀ j, j < n → s'.reg (c.base + target.toNat + j) = s.reg (c.base + source.toNat + j))
      (fun _ => False) s := by
  have hsizes := c.sound.sizes
  induction n with
  | zero => exact .here ⟨⟨hs, rfl, fun _ _ => rfl⟩, fun j hj => absurd hj (Nat.not_lt_zero j)⟩
  | succ n ih =>
    have hmoves : moves target source (n + 1) =
        moves target source n ++ [Instr.mov (target + n.toUInt16) (source + n.toUInt16)] := by
      simp [moves, List.range_succ]
    rw [hmoves, List.map_append, laid_append] at hlaid
    obtain ⟨hlaid, hmov, -⟩ := hlaid
    refine (ih hlaid (by omega) (by omega)).trans ?_
    rintro s₁ ⟨hp₁, hregs⟩
    have ht : (target + n.toUInt16).toNat = target.toNat + n := toNat_add_toUInt16 (by omega)
    have hsrc : (source + n.toUInt16).toNat = source.toNat + n := toNat_add_toUInt16 (by omega)
    rw [← hp₁.pc_eq] at hmov
    refine (puts_mov hp₁.toInside hmov (c.lt_size (by omega)) (c.lt_size (by omega))).mono ?_
      fun _ he => he
    rintro s₂ ⟨hp₂, hreg⟩
    rw [ht] at hp₂ hreg
    rw [hsrc] at hreg
    refine ⟨⟨hp₂.toInside, ?_, fun i hi => ?_⟩, fun j hj => ?_⟩
    · rw [hp₂.pc_eq, hp₁.pc_eq, hmoves, List.map_append, span_append]
      simp only [List.map_singleton, span_instr, span_nil]
      omega
    · rw [hp₂.kept i (by omega), hp₁.kept i hi]
    · by_cases hjn : j = n
      · subst hjn
        rw [Nat.add_assoc, hreg, hp₁.kept _ (by omega), Nat.add_assoc]
      · rw [hp₂.kept _ (by omega), hregs j (by omega)]

def Stages (c : Scene) (free : Reg) (types : List (Option Ty)) (args : List Expr)
    (code : List Instr) : Prop :=
  ∀ env s r, Inside c.entry s → Laid c.program s.pc (code.map .instr) →
    Expected c.deep r (c.Ready env s ∧ TypedArgs (signatures c.functions) c.current types args)
      (evalArgs c.functions c.call env args) →
    Meets c.toSetting r
      (fun s' => Passes c.entry s s' (s.pc + span (code.map .instr)) (· < c.base + free.toNat))
      (fun vs s' => vs.length = args.length ∧ ∀ j a v, args[j]? = some a → vs[j]? = some v →
        HoldsAs c.bare (s'.reg (c.base + (c.current.regs - args.length) + j)) a.type v) s

theorem stages_direct {free : Reg} {types : List (Option Ty)} {args : List Expr}
    {code : List Instr} (hcall : args.any makesCall = false) (hfree : c.current.locals ≤ free.toNat)
    (htemps : free.toNat + argTemporaries (args.any makesCall) 0 0 args ≤
      c.current.locals + c.current.temps)
    (hstaging : widestArg args.length args ≤ c.current.staging)
    (h : c.Simulates (.args false (c.current.base args.length) free types args) code) :
    c.Stages free types args code := by
  have hsizes := c.sound.sizes
  have hbase := c.sound.toNat_base args.length
  obtain ⟨hlen, hwidest⟩ := le_widestArg args.length args
  have hseats := c.sound.seats_direct hcall hfree htemps hstaging
  intro env s r hs hlaid hr
  refine (h env s r hs hlaid hseats hr).mono (fun s' hp => hp.mono fun i hi => ?_)
    fun s' vs _ hvs => ?_
  · exact ⟨by omega, .inr (.inl hi)⟩
  · rw [hbase] at hvs
    exact hvs

theorem stages_waiting {free : Reg} {types : List (Option Ty)} {args : List Expr}
    {code : List Instr} (hcall : args.any makesCall = true) (hfree : c.current.locals ≤ free.toNat)
    (htemps : free.toNat + argTemporaries (args.any makesCall) 0 0 args ≤
      c.current.locals + c.current.temps)
    (hstaging : widestArg args.length args ≤ c.current.staging)
    (h : c.Simulates (.args true free free types args) code) :
    c.Stages free types args (code ++ moves (c.current.base args.length) free args.length) := by
  have hsizes := c.sound.sizes
  have hbase := c.sound.toNat_base args.length
  obtain ⟨hlen, hwidest⟩ := le_widestArg args.length args
  have hseats := Layout.seats_waiting hcall hfree htemps hstaging
  have hcount := hseats.length_le (by omega)
  intro env s r hs hlaid hr
  rw [List.map_append, laid_append] at hlaid
  refine (h env s r hs hlaid.1 hseats hr).andThen fun s₁ hp₁ => ?_
  rw [← hp₁.pc_eq] at hlaid
  refine (leads_moves hp₁.toInside hlaid.2 (by omega) (by omega)).mono ?_ fun _ he => he
  rintro s₂ ⟨hp₂, hregs⟩
  refine ⟨⟨hp₂.toInside, ?_, fun i hi => ?_⟩, fun vs hvs => ⟨hvs.1, fun j a v ha hv => ?_⟩⟩
  · rw [hp₂.pc_eq, hp₁.pc_eq, List.map_append, span_append, Nat.add_assoc]
  · rw [hp₂.kept i (by omega), hp₁.kept i ⟨hi, .inl rfl⟩]
  · have hj : j < args.length := (List.getElem?_eq_some_iff.mp ha).1
    rw [← hbase, hregs j hj]
    exact hvs.2 j a v ha hv

/-- What is known of the values of arguments where the function is called. -/
theorem holdsAs_of_args {callee : Layout} (hcallee : callee ∈ c.layouts) {args : List Expr}
    {vs : List Nat} {first : Nat} (htyped : ProgramTyped c.functions c.layouts)
    (hargs : TypedArgs (signatures c.functions) c.current (callee.function.params.map Var.type) args)
    (hvs : vs.length = args.length ∧ ∀ j a v, args[j]? = some a → vs[j]? = some v →
      HoldsAs c.bare (s.reg (first + j)) a.type v) {i : Nat} {p : Var} {v : Nat}
    (hp : callee.function.params[i]? = some p) (hv : vs[i]? = some v) :
    HoldsAs c.bare (s.reg (first + i)) p.type v := by
  have hi : i < args.length := by
    rw [← hvs.1]
    exact (List.getElem?_eq_some_iff.mp hv).1
  have ha := List.getElem?_eq_getElem hi
  have hholds := hvs.2 i _ v ha hv
  obtain ⟨w, hw, -, hty⟩ := (c.callee_sound callee hcallee).params i p hp
  have hty := hty ((htyped callee hcallee).1 p (List.mem_of_getElem? hp))
  have hreg := (c.callee_sound callee hcallee).regType?_eq hw
  rcases hargs.type_eq ha (by rw [List.getElem?_map, hp]; rfl) with h | h | h
  · rw [hty, h] at hreg
    cases hreg
  · obtain ⟨t, ht, -⟩ := hholds
    rw [h] at ht
    cases ht
  · rw [← h]
    exact hholds

theorem meets_call {free : Reg} {name : String} {callee : Layout} {args : List Expr}
    {code : List Instr} (hcallee : c.scope.callee? name = some callee)
    (hlen : args.length = callee.args)
    (hfree : free.toNat ≤ c.current.locals + c.current.temps)
    (hstaging : args.length ≤ c.current.staging)
    (hstages : c.Stages free (callee.function.params.map Var.type) args code) {env : Env}
    {r : Outcome (Option Nat)} (hs : Inside c.entry s)
    (hlaid : Laid c.program s.pc ((code ++ [Instr.call callee.index.toUInt32]).map .instr))
    (hr : Expected c.deep r (c.Ready env s ∧ TypedArgs (signatures c.functions) c.current
      (callee.function.params.map Var.type) args)
      (evalArgs c.functions c.call env args >>= fun vs => c.call callee.function vs)) :
    Meets c.toSetting r
      (fun s' => Passes c.entry s s'
          (s.pc + span ((code ++ [Instr.call callee.index.toUInt32]).map .instr))
          (· < c.base + free.toNat) ∧
        c.base + (c.current.regs - args.length) < c.entry.regs.size)
      (fun v s' => ∀ x, v = some x →
        HoldsAs c.bare (s'.reg (c.base + (c.current.regs - args.length))) callee.function.ret x) s := by
  have hsizes := c.sound.sizes
  have hmem : callee ∈ c.layouts := List.mem_of_find?_eq_some hcallee
  simp only [List.map_append, laid_append, List.map_singleton, span_append, span_instr,
    span_nil, Nat.add_zero] at hlaid ⊢
  obtain ⟨hlaid, hcall, -⟩ := hlaid
  refine Meets.bind hr (fun r' hr' => hstages env s r' hs hlaid hr') ?_
  intro s₁ vs hp₁ hr₁
  rw [← hp₁.pc_eq] at hcall
  have hcalls := c.calls callee hmem (by omega)
  rw [← hlen] at hcalls
  refine (hcalls s₁ _ vs r hp₁.toInside hcall (hr₁.mono fun h => ⟨h.1.1.1, ?_, ?_⟩)).mono ?_ ?_
  · rw [h.2.1, hlen]
  · exact fun i p v hp hv => holdsAs_of_args hmem h.1.1.1 h.1.2 h.2 hp hv
  · rintro s₂ ⟨hp₂, hsize⟩
    refine ⟨⟨hp₂.toInside, ?_, fun i hi => ?_⟩, ?_⟩
    · rw [hp₂.pc_eq, hp₁.pc_eq, Nat.add_assoc]
    · rw [hp₂.kept i _, hp₁.kept i hi]
      change i < c.base + (c.current.regs - args.length)
      omega
    · rw [← hp₂.size]
      exact hsize
  · exact fun s₂ v _ hv => hv

theorem simulates_call {want : Option Ty} {dst free : Reg} {pos : Pos} {ty : Option Ty}
    {name : String} {nt : Option Ty} {args : List Expr} {callee : Layout} {code : List Instr}
    (hcallee : c.scope.callee? name = some callee) (hlen : args.length = callee.args)
    (hstages : c.current.locals ≤ free.toNat →
      free.toNat + argTemporaries (args.any makesCall) 0 0 args ≤
        c.current.locals + c.current.temps →
      widestArg args.length args ≤ c.current.staging →
      c.Stages free (callee.function.params.map Var.type) args code) :
    c.Simulates (.value want dst free (.call pos ty name nt args))
      (code ++ .call callee.index.toUInt32 :: moveTo dst (c.current.base args.length)) := by
  intro env s r hs hlaid hfree htemps hstaging hdst hr
  have htemps : free.toNat + argTemporaries (args.any makesCall) 0 0 args ≤
    c.current.locals + c.current.temps := htemps
  have hstaging : widestArg args.length args ≤ c.current.staging := hstaging
  have hbase := c.sound.toNat_base args.length
  have hwidest := (le_widestArg args.length args).1
  have hcode : code ++ .call callee.index.toUInt32 :: moveTo dst (c.current.base args.length) =
      (code ++ [Instr.call callee.index.toUInt32]) ++ moveTo dst (c.current.base args.length) := by
    simp
  have hspan : span (((code ++ [Instr.call callee.index.toUInt32]) ++
      moveTo dst (c.current.base args.length)).map .instr) =
      span ((code ++ [Instr.call callee.index.toUInt32]).map .instr) +
        span ((moveTo dst (c.current.base args.length)).map .instr) := by
    rw [List.map_append, span_append]
  rw [hcode, List.map_append, laid_append] at hlaid
  have hf : function? c.functions name = some callee.function :=
    function?_of_callee? c.function?_eq hcallee
  rw [evalExpr, named?_eq, hf, Outcome.part_some_bind] at hr
  simp only [← Outcome.bind_assoc] at hr
  refine Meets.bind hr (fun r' hr' => meets_call hcallee hlen (by omega) (by omega)
    (hstages hfree htemps hstaging) hs hlaid.1
    (hr'.mono fun h => ⟨h.1, (typed_call hf h.2).2⟩)) ?_
  rintro s₁ v ⟨hp₁, hsize⟩ hr₁
  rw [← hp₁.pc_eq] at hlaid
  refine Meets.after (puts_moveTo hp₁.toInside hlaid.2 (fun hne => ?_) fun _ => ?_) ?_
  · rcases hdst with hdst | rfl
    · exact c.lt_size hdst
    · exact absurd rfl hne
  · rwa [hbase]
  rintro s₂ ⟨hp₂, hreg⟩
  obtain ⟨x, hvalue⟩ := hr₁.value_of_read
  refine Meets.here hvalue ⟨hp₂.toInside, ?_, fun i hi => ?_⟩ fun hC => ?_
  · rw [hp₂.pc_eq, hp₁.pc_eq, hcode, hspan, Nat.add_assoc]
  · rcases hi.2 with hlt | ⟨hno, -⟩
    · rw [hp₂.kept i hi.1, hp₁.kept i hlt]
    · cases hno
  · rw [hreg, hbase]
    have hret := (typed_call hf hC.1.1.2).1
    change HoldsAs _ _ ty x
    rw [hret]
    exact hC.1.2 x hC.2

/-- The code of every task follows the evaluation of it. -/
theorem simulates {task : Task} {code : List Instr} (h : Lowers c.scope task code) :
    c.Simulates task code := by
  induction h with
  | ident hv => exact simulates_ident hv
  | literal ht hbits => exact simulates_literal ht hbits
  | negation ht _ ih => exact simulates_negation ht ih
  | operation ht hm _ _ iha ihb => exact simulates_operation ht hm iha ihb
  | call hcallee hlen hany _ ih =>
    exact simulates_call hcallee hlen fun hfree htemps hstaging =>
      stages_direct hany hfree htemps hstaging ih
  | callWaiting hcallee hlen hany _ ih =>
    exact simulates_call hcallee hlen fun hfree htemps hstaging =>
      stages_waiting hany hfree htemps hstaging ih
  | operandIdent hv => exact simulates_operandIdent hv
  | operandValue hx _ ih => exact simulates_operandValue hx ih
  | nil => exact simulates_nil
  | cons _ _ iha ihrest => exact simulates_cons iha ihrest

end RegisterLang.Machine.Scene
