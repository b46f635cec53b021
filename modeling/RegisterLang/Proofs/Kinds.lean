import Mathlib.Logic.Function.Basic
import RegisterLang.Proofs.Definite
import RegisterLang.Proofs.WellFormed

/-!
# Code that keeps the kinds of variables

`Kinded` follows the items of a function along all ways that they can be run, with the kinds that
registers are known to have. Instructions give registers kinds of their own, except that a move copies
the kind of its source, a call takes the kinds of its arguments and leaves that of its value. A variable
is only given the kind of its type. That is so of the code of every function in which variables are
declared before they are read. The lemmas are about code that something follows: it keeps the kinds if
what follows does with all that is known after it.
-/
namespace RegisterLang.Lowering

abbrev Kinds := Nat → Option RegType

def written? (g : Kinds) : Instr → Option (Reg × Option RegType)
  | .set t dst _ | .math _ t dst _ _ => some (dst, some t)
  | .mov dst src => some (dst, g src.toNat)
  | _ => none

/-- What is known after a call whose window begins at `base` and that leaves a value there. -/
def Kinds.afterCall (g : Kinds) (base : Nat) (value : Option RegType) : Kinds :=
  fun r => if r < base then g r else if r = base then value else none

/-- A kind fits the variable of a register, or the register is the first one and the function returns
from it next. -/
def Layout.Admits (l : Layout) (dst : Reg) (kind : Option RegType) (rest : List Item) : Prop :=
  (∀ name v, l.var? name = some v → v.reg = dst → kind = some v.type) ∨
    dst = 0 ∧ ∃ after, rest = .instr (.ret 0) :: after

/-- Items of a function that keep the kinds of variables, where registers have the given kinds. Jumps
only go forward, to a label among what follows. -/
inductive Kinded (s : Scope) : Kinds → List Item → Prop
  | label {g : Kinds} {l : Nat} {rest : List Item} : Kinded s g rest → Kinded s g (.label l :: rest)
  | write {g : Kinds} {x : Instr} {dst : Reg} {kind : Option RegType} {rest : List Item} :
      written? g x = some (dst, kind) → s.current.Admits dst kind rest →
      Kinded s (Function.update g dst.toNat kind) rest → Kinded s g (.instr x :: rest)
  | cmp {g : Kinds} {t : RegType} {a b : Reg} {rest : List Item} : Kinded s g rest →
      Kinded s g (.instr (.cmp t a b) :: rest)
  | jump {g : Kinds} {op : Opcode} {l : Nat} {before after : List Item} : Kinded s g after →
      (op ≠ .jmp → Kinded s g (before ++ .label l :: after)) →
      Kinded s g (.instr (.jump op l.toUInt32) :: (before ++ .label l :: after))
  | call {g : Kinds} {callee : Layout} {rest : List Item} : callee ∈ s.layouts →
      s.current.locals + callee.args ≤ s.current.regs →
      (∀ i p t, callee.function.params[i]? = some p → regType? p.type = some t →
        g (s.current.regs - callee.args + i) = some t) →
      Kinded s (g.afterCall (s.current.regs - callee.args) (regType? callee.function.ret)) rest →
      Kinded s g (.instr (.call callee.index.toUInt32) :: rest)
  | ret {g : Kinds} {rest : List Item} :
      (∀ t, regType? s.current.function.ret = some t → g 0 = some t) →
      Kinded s g (.instr (.ret 0) :: rest)

def Layout.Covers (l : Layout) (g : Kinds) (declared : List String) : Prop :=
  ∀ name ∈ declared, ∀ v, l.var? name = some v → g v.reg.toNat = some v.type

/-- What follows keeps the kinds of variables wherever some registers have the kinds of `g` and `P`
holds. -/
def Continues (s : Scope) (g : Kinds) (keep : Nat → Prop) (P : Kinds → Prop) (rest : List Item) :
    Prop :=
  ∀ g', (∀ r, keep r → g' r = g r) → P g' → Kinded s g' rest

section
variable {l : Layout} {g g' : Kinds} {declared declared' : List String}

theorem Layout.Covers.congr (h : l.Covers g declared) (hl : l.Sound)
    (hg : ∀ r, r < l.locals → g' r = g r) : l.Covers g' declared := by
  intro name hname v hv
  rw [hg _ (hl.reg_lt hv), h name hname v hv]

theorem Layout.Covers.mono (h : l.Covers g declared) (hd : ∀ name ∈ declared', name ∈ declared) :
    l.Covers g declared' :=
  fun name hname => h name (hd name hname)

/-- A variable that was given its kind. -/
theorem Layout.Covers.write (h : l.Covers g declared) (hl : l.Sound) {name : String} {w : Variable}
    (hw : l.var? name = some w) (hg : ∀ r, r ≠ w.reg.toNat ∧ r < l.locals → g' r = g r)
    (hkind : g' w.reg.toNat = some w.type) : l.Covers g' (name :: declared) := by
  intro name' hname' v hv
  by_cases hreg : v.reg.toNat = w.reg.toNat
  · obtain rfl := hl.eq_of_reg_eq hv hw hreg
    rw [hw] at hv
    cases hv
    exact hkind
  · have hne : name' ≠ name := by
      rintro rfl
      rw [hw] at hv
      cases hv
      exact hreg rfl
    rw [hg _ ⟨hreg, hl.reg_lt hv⟩]
    exact h name' ((List.mem_cons.mp hname').resolve_left hne) v hv

/-- Registers after the variables may have any kind. -/
theorem admits_of_le (hl : l.Sound) {dst : Reg} (h : l.locals ≤ dst.toNat) (kind : Option RegType)
    (rest : List Item) : l.Admits dst kind rest := by
  refine .inl fun name v hv hreg => ?_
  have hlt := hl.reg_lt hv
  rw [hreg] at hlt
  omega

theorem admits_var (hl : l.Sound) {name : String} {w : Variable} (hw : l.var? name = some w)
    (rest : List Item) : l.Admits w.reg (some w.type) rest := by
  refine .inl fun name' v hv hreg => ?_
  obtain rfl := hl.eq_of_reg_eq hv hw (congrArg UInt16.toNat hreg)
  rw [hw] at hv
  cases hv
  rfl

end

section
variable {s : Scope} {functions : List Function}

def Keeps (s : Scope) (functions : List Function) : Task → List Instr → Prop
  | .value _ dst free x, code => ∀ declared g rest, s.current.Covers g declared →
    Typed (signatures functions) s.current x → x.readsOnly declared = true →
    s.current.locals ≤ free.toNat →
    free.toNat + temporaries x ≤ s.current.locals + s.current.temps →
    widestCall x ≤ s.current.staging → s.current.Admits dst (regType? x.type) rest →
    Continues s g (fun r => r ≠ dst.toNat ∧ (r < free.toNat ∨
      makesCall x = false ∧ s.current.locals + s.current.temps ≤ r))
      (fun g' => g' dst.toNat = regType? x.type) rest →
    Kinded s g (code.map .instr ++ rest)
  | .operand _ free x _, code => ∀ declared g rest, s.current.Covers g declared →
    Typed (signatures functions) s.current x → x.readsOnly declared = true →
    s.current.locals ≤ free.toNat →
    free.toNat + operandTemporaries x ≤ s.current.locals + s.current.temps →
    widestCall x ≤ s.current.staging →
    Continues s g (fun r => r < free.toNat ∨
      makesCall x = false ∧ s.current.locals + s.current.temps ≤ r) (fun _ => True) rest →
    Kinded s g (code.map .instr ++ rest)
  | .args waiting dst free types xs, code => ∀ declared g rest, s.current.Covers g declared →
    TypedArgs (signatures functions) s.current types xs → argsReadOnly declared xs = true →
    s.current.Seats waiting dst free xs →
    Continues s g (fun r => r < dst.toNat ∧ (waiting = true ∨ r < free.toNat ∨
      s.current.locals + s.current.temps ≤ r))
      (fun g' => ∀ j a, xs[j]? = some a → a.type ≠ none ∧ g' (dst.toNat + j) = regType? a.type) rest →
    Kinded s g (code.map .instr ++ rest)

/-- A move that is made only if it has to be. -/
theorem kinded_moveTo {g : Kinds} {dst src : Reg} {rest : List Item}
    (hadmits : s.current.Admits dst (g src.toNat) rest)
    (h : Continues s g (· ≠ dst.toNat) (fun g' => g' dst.toNat = g src.toNat) rest) :
    Kinded s g ((moveTo dst src).map .instr ++ rest) := by
  unfold moveTo
  by_cases hne : src ≠ dst
  · rw [if_pos hne]
    exact .write rfl hadmits (h _ (fun r hr => Function.update_of_ne hr _ _)
      (Function.update_self _ _ _))
  · rw [if_neg hne]
    obtain rfl := Decidable.not_not.mp hne
    exact h g (fun _ _ => rfl) rfl

theorem keeps_ident (hs : s.current.Sound) {want : Option Ty} {dst free : Reg} {pos : Pos}
    {ty : Option Ty} {name : String} {v : Variable} (hv : s.current.var? name = some v) :
    Keeps s functions (.value want dst free (.ident pos ty name)) (moveTo dst v.reg) := by
  intro declared g rest hcovers htyped hreads _ _ _ hadmits hnext
  obtain ⟨w, hw, rfl⟩ := htyped
  rw [hv] at hw
  cases hw
  have hkind : g v.reg.toNat = regType? v.ty := by
    rw [hs.regType?_eq hv]
    exact hcovers name (List.contains_iff_mem.mp hreads) v hv
  have hadmits : s.current.Admits dst (regType? v.ty) rest := hadmits
  rw [← hkind] at hadmits
  refine kinded_moveTo hadmits fun g' hg hdst => ?_
  exact hnext g' (fun r hr => hg r hr.1) (hdst.trans hkind)

/-- The kind of a value for which there is code is that of its annotation. -/
theorem regType?_of_lowers (hk : Knows s functions) {want : Option Ty} {dst free : Reg}
    {x : Expr} {code : List Instr} (h : Lowers s (.value want dst free x) code)
    (htyped : Typed (signatures functions) s.current x) {t : RegType}
    (ht : regType? (s.typeOf want x) = some t) : regType? x.type = some t := by
  rw [typeOf_eq_type s want x (h.annotated hk htyped)] at ht
  exact ht

theorem keeps_literal (hk : Knows s functions) {want : Option Ty} {dst free : Reg} {x : Expr}
    {t : RegType} {bits : UInt64} (ht : regType? (s.typeOf want x) = some t)
    (hbits : literalBits? t x = some bits) :
    Keeps s functions (.value want dst free x) [.set t dst bits] := by
  intro declared g rest _ htyped _ _ _ _ hadmits hnext
  have hlowers : Lowers s (.value want dst free x) [.set t dst bits] := .literal ht hbits
  have hkind := regType?_of_lowers hk hlowers htyped ht
  rw [hkind] at hadmits
  refine .write rfl hadmits (hnext _ (fun r hr => Function.update_of_ne hr.1 _ _) ?_)
  exact (Function.update_self _ _ _).trans hkind.symm

theorem keeps_operandIdent {want : Option Ty} {free : Reg} {pos : Pos} {ty : Option Ty}
    {name : String} {r : Reg} : Keeps s functions (.operand want free (.ident pos ty name) r) [] := by
  intro declared g rest _ _ _ _ _ _ hnext
  exact hnext g (fun _ _ => rfl) trivial

theorem keeps_operandValue (hs : s.current.Sound) {want : Option Ty} {free : Reg} {x : Expr}
    {code : List Instr} (hx : isIdent x = false)
    (h : Keeps s functions (.value want free (free + 1) x) code) :
    Keeps s functions (.operand want free x free) code := by
  intro declared g rest hcovers htyped hreads hfree htemps hstaging hnext
  have hsizes := hs.sizes
  rw [operandTemporaries, hx] at htemps
  simp only [Bool.false_eq_true, if_false] at htemps
  have hone : (free + 1).toNat = free.toNat + 1 := toNat_add_one (by omega)
  refine h declared g rest hcovers htyped hreads (by omega) (by omega) hstaging
    (admits_of_le hs hfree _ _) fun g' hg _ => hnext g' (fun r hr => hg r ?_) trivial
  rcases hr with hr | ⟨hcall, hr⟩
  · exact ⟨by omega, .inl (by omega)⟩
  · exact ⟨by omega, .inr ⟨hcall, hr⟩⟩

/-- Two operands are evaluated one after the other. -/
theorem kinded_operands (hs : s.current.Sound) {want : Option Ty} {free : Reg} {left right : Expr}
    {a b : Reg} {codeA codeB : List Instr} {rest : List Item} {declared : List String} {g : Kinds}
    (hleft : Keeps s functions (.operand want free left a) codeA)
    (hright : Keeps s functions (.operand want (free + 1) right b) codeB)
    (hcovers : s.current.Covers g declared) (htyped : Typed (signatures functions) s.current left ∧
      Typed (signatures functions) s.current right)
    (hreads : left.readsOnly declared = true ∧ right.readsOnly declared = true)
    (hfree : s.current.locals ≤ free.toNat)
    (htemps : free.toNat + max (operandTemporaries left) (1 + operandTemporaries right) ≤
      s.current.locals + s.current.temps)
    (hstaging : max (widestCall left) (widestCall right) ≤ s.current.staging)
    (hnext : Continues s g (fun r => r < free.toNat ∨ (makesCall left || makesCall right) = false ∧
      s.current.locals + s.current.temps ≤ r) (fun _ => True) rest) :
    Kinded s g ((codeA ++ codeB).map .instr ++ rest) := by
  have hsizes := hs.sizes
  have hone : (free + 1).toNat = free.toNat + 1 := toNat_add_one (by omega)
  rw [List.map_append, List.append_assoc]
  refine hleft declared g _ hcovers htyped.1 hreads.1 hfree (by omega) (by omega) fun g₁ hg₁ _ => ?_
  refine hright declared g₁ _ (hcovers.congr hs fun r hr => hg₁ r (.inl (by omega))) htyped.2
    hreads.2 (by omega) (by omega) (by omega) fun g₂ hg₂ _ => hnext g₂ (fun r hr => ?_) trivial
  rcases hr with hr | ⟨hcall, hr⟩
  · rw [hg₂ r (.inl (by omega)), hg₁ r (.inl hr)]
  · obtain ⟨hl, hr'⟩ := Bool.or_eq_false_iff.mp hcall
    rw [hg₂ r (.inr ⟨hr', hr⟩), hg₁ r (.inr ⟨hl, hr⟩)]

theorem keeps_operation (hk : Knows s functions) {want : Option Ty} {dst free : Reg} {pos : Pos}
    {ty : Option Ty} {op : Op} {left right : Expr} {t : RegType} {m : Opcode} {a b : Reg}
    {codeA codeB : List Instr}
    (h : Lowers s (.value want dst free (.op pos ty op true left right))
      (codeA ++ codeB ++ [Instr.math m t dst a b]))
    (ht : regType? (s.typeOf want (.op pos ty op true left right)) = some t)
    (hleft : Keeps s functions
      (.operand (s.typeOf want (.op pos ty op true left right)) free left a) codeA)
    (hright : Keeps s functions
      (.operand (s.typeOf want (.op pos ty op true left right)) (free + 1) right b) codeB) :
    Keeps s functions (.value want dst free (.op pos ty op true left right))
      (codeA ++ codeB ++ [Instr.math m t dst a b]) := by
  intro declared g rest hcovers htyped hreads hfree htemps hstaging hadmits hnext
  have hkind := regType?_of_lowers hk h htyped ht
  rw [hkind] at hadmits
  rw [Expr.readsOnly, Bool.and_eq_true] at hreads
  rw [List.map_append, List.append_assoc]
  refine kinded_operands hk.sound hleft hright hcovers ⟨(htyped.1 rfl).1, htyped.2.1⟩ hreads hfree
    htemps hstaging fun g₁ hg₁ _ => .write rfl hadmits (hnext _ (fun r hr => ?_) ?_)
  · rw [Function.update_of_ne hr.1]
    exact hg₁ r hr.2
  · exact (Function.update_self _ _ _).trans hkind.symm

theorem keeps_negation (hk : Knows s functions) {want : Option Ty} {dst free : Reg} {pos : Pos}
    {ty : Option Ty} {op : Op} {left right : Expr} {t : RegType} {b : Reg} {code : List Instr}
    (h : Lowers s (.value want dst free (.op pos ty op false left right))
      (.set t free 0 :: code ++ [Instr.math .sub t dst free b]))
    (ht : regType? (s.typeOf want (.op pos ty op false left right)) = some t)
    (hright : Keeps s functions
      (.operand (s.typeOf want (.op pos ty op false left right)) (free + 1) right b) code) :
    Keeps s functions (.value want dst free (.op pos ty op false left right))
      (.set t free 0 :: code ++ [Instr.math .sub t dst free b]) := by
  intro declared g rest hcovers htyped hreads hfree htemps hstaging hadmits hnext
  have hsizes := hk.sound.sizes
  have htemps : free.toNat + (1 + operandTemporaries right) ≤ s.current.locals + s.current.temps :=
    htemps
  have hstaging : max (widestCall left) (widestCall right) ≤ s.current.staging := hstaging
  have hone : (free + 1).toNat = free.toNat + 1 := toNat_add_one (by omega)
  have hkind := regType?_of_lowers hk h htyped ht
  rw [hkind] at hadmits
  rw [Expr.readsOnly, Bool.and_eq_true] at hreads
  rw [List.map_append, List.append_assoc]
  refine .write rfl (admits_of_le hk.sound hfree _ _) ?_
  have hzero : ∀ r, r ≠ free.toNat → Function.update g free.toNat (some t) r = g r :=
    fun r hr => Function.update_of_ne hr _ _
  refine hright declared _ _ (hcovers.congr hk.sound fun r hr => hzero r (by omega)) htyped.2.1
    hreads.2 (by omega) (by omega) (by omega) fun g₁ hg₁ _ => .write rfl hadmits (hnext _ ?_ ?_)
  · rintro r ⟨hdst, hr | ⟨hcall, hr⟩⟩
    · rw [Function.update_of_ne hdst, hg₁ r (.inl (by omega)), hzero r (by omega)]
    · obtain ⟨-, hcall⟩ := Bool.or_eq_false_iff.mp hcall
      rw [Function.update_of_ne hdst, hg₁ r (.inr ⟨hcall, hr⟩), hzero r (by omega)]
  · exact (Function.update_self _ _ _).trans hkind.symm

theorem keeps_nil {waiting : Bool} {dst free : Reg} {types : List (Option Ty)} :
    Keeps s functions (.args waiting dst free types []) [] := by
  intro declared g rest _ _ _ _ hnext
  refine hnext g (fun _ _ => rfl) fun j a ha => ?_
  cases ha

theorem keeps_cons (hk : Knows s functions) {waiting : Bool} {dst free : Reg}
    {types : List (Option Ty)} {a : Expr} {rest : List Expr} {code code' : List Instr}
    (h : Lowers s (.value (types.headD none) dst (if waiting then dst + 1 else free) a) code)
    (ha : Keeps s functions
      (.value (types.headD none) dst (if waiting then dst + 1 else free) a) code)
    (hrest : Keeps s functions (.args waiting (dst + 1) free types.tail rest) code') :
    Keeps s functions (.args waiting dst free types (a :: rest)) (code ++ code') := by
  intro declared g after hcovers htyped hreads hseats hnext
  obtain ⟨hdst, -, hone⟩ := hseats.toNat_next hk.sound
  have hstaging := hseats.staging a List.mem_cons_self
  rw [argsReadOnly, Bool.and_eq_true] at hreads
  -- the first argument leaves the variables, and what the others leave
  obtain ⟨hfree, htemps, hkeep⟩ : s.current.locals ≤ (if waiting then dst + 1 else free).toNat ∧
      (if waiting then dst + 1 else free).toNat + temporaries a ≤
        s.current.locals + s.current.temps ∧
      ∀ r, r < s.current.locals ∨ r < dst.toNat ∧ (waiting = true ∨ r < free.toNat ∨
        s.current.locals + s.current.temps ≤ r) →
        r ≠ dst.toNat ∧ (r < (if waiting then dst + 1 else free).toNat ∨ makesCall a = false ∧
          s.current.locals + s.current.temps ≤ r) := by
    cases waiting with
    | true =>
      obtain ⟨hlocals, hroom⟩ := hseats.waits rfl
      have hfirst := hroom 0 a rfl
      simp only [if_true, hone]
      exact ⟨by omega, by omega, fun r hr => ⟨by omega, .inl (by omega)⟩⟩
    | false =>
      obtain ⟨hlocals, hstart, -, hall⟩ := hseats.direct rfl
      obtain ⟨hcall, hroom⟩ := hall a List.mem_cons_self
      simp only [Bool.false_eq_true, if_false, false_or]
      refine ⟨hlocals, hroom, fun r hr => ⟨by omega, ?_⟩⟩
      rcases hr with hr | ⟨-, hr | hr⟩
      · exact .inl (by omega)
      · exact .inl hr
      · exact .inr ⟨hcall, hr⟩
  rw [List.map_append, List.append_assoc]
  refine ha declared g _ hcovers htyped.1.1 hreads.1 hfree htemps hstaging
    (admits_of_le hk.sound hdst _ _) fun g₁ hg₁ hvalue => ?_
  refine hrest declared g₁ _ (hcovers.congr hk.sound fun r hr => hg₁ r (hkeep r (.inl hr))) htyped.2
    hreads.2 (hseats.tail hk.sound) fun g₂ hg₂ hvalues => hnext g₂ (fun r hr => ?_) ?_
  · rw [hg₂ r ⟨by omega, hr.2⟩, hg₁ r (hkeep r (.inr hr))]
  · intro j b hb
    cases j with
    | zero =>
      cases hb
      refine ⟨h.annotated hk htyped.1.1, ?_⟩
      have hstays : waiting = true ∨ dst.toNat < free.toNat ∨
          s.current.locals + s.current.temps ≤ dst.toNat := by
        cases waiting with
        | true => exact .inl rfl
        | false => exact .inr (.inr (hseats.direct rfl).2.1)
      rw [Nat.add_zero, hg₂ _ ⟨by omega, hstays⟩, hvalue]
    | succ j =>
      have hb' := hvalues j b hb
      rwa [hone, Nat.add_assoc, Nat.add_comm 1 j] at hb'

/-- Values that waited are moved with their kinds. -/
theorem kinded_moves (hs : s.current.Sound) {target source : Reg} {n : Nat} {g : Kinds}
    {rest : List Item} (hsource : source.toNat + n ≤ target.toNat)
    (hlocals : s.current.locals ≤ target.toNat) (htarget : target.toNat + n ≤ s.current.regs)
    (hnext : Continues s g (· < target.toNat)
      (fun g' => ∀ j, j < n → g' (target.toNat + j) = g (source.toNat + j)) rest) :
    Kinded s g ((moves target source n).map .instr ++ rest) := by
  have hsizes := hs.sizes
  induction n generalizing rest with
  | zero => exact hnext g (fun _ _ => rfl) fun j hj => absurd hj (Nat.not_lt_zero j)
  | succ n ih =>
    have hmoves : moves target source (n + 1) =
        moves target source n ++ [Instr.mov (target + n.toUInt16) (source + n.toUInt16)] := by
      simp [moves, List.range_succ]
    have ht : (target + n.toUInt16).toNat = target.toNat + n := toNat_add_toUInt16 (by omega)
    have hsrc : (source + n.toUInt16).toNat = source.toNat + n := toNat_add_toUInt16 (by omega)
    rw [hmoves, List.map_append, List.append_assoc]
    refine ih (by omega) (by omega) fun g₁ hg₁ hmoved => ?_
    refine .write rfl (admits_of_le hs (by omega) _ _) (hnext _ (fun r hr => ?_) fun j hj => ?_)
    · rw [ht, Function.update_of_ne (by omega), hg₁ r hr]
    · rw [ht, hsrc]
      by_cases hjn : j = n
      · subst hjn
        rw [Function.update_self, hg₁ _ (by omega)]
      · rw [Function.update_of_ne (by omega), hmoved j (by omega)]

def StagesKinds (s : Scope) (functions : List Function) (free : Reg) (types : List (Option Ty))
    (args : List Expr) (code : List Instr) : Prop :=
  ∀ declared g rest, s.current.Covers g declared →
    TypedArgs (signatures functions) s.current types args → argsReadOnly declared args = true →
    Continues s g (· < free.toNat) (fun g' => ∀ j a, args[j]? = some a →
      a.type ≠ none ∧ g' (s.current.regs - args.length + j) = regType? a.type) rest →
    Kinded s g (code.map .instr ++ rest)

theorem stagesKinds_direct (hs : s.current.Sound) {free : Reg} {types : List (Option Ty)}
    {args : List Expr} {code : List Instr} (hcall : args.any makesCall = false)
    (hfree : s.current.locals ≤ free.toNat)
    (htemps : free.toNat + argTemporaries (args.any makesCall) 0 0 args ≤
      s.current.locals + s.current.temps)
    (hstaging : widestArg args.length args ≤ s.current.staging)
    (h : Keeps s functions (.args false (s.current.base args.length) free types args) code) :
    StagesKinds s functions free types args code := by
  intro declared g rest hcovers htyped hreads hnext
  have hsizes := hs.sizes
  have hbase := hs.toNat_base args.length
  obtain ⟨hlen, hwidest⟩ := le_widestArg args.length args
  have hseats := hs.seats_direct hcall hfree htemps hstaging
  rw [← hbase] at hnext
  exact h declared g rest hcovers htyped hreads hseats fun g' hg hvalues =>
    hnext g' (fun r hr => hg r ⟨by omega, .inr (.inl hr)⟩) hvalues

theorem stagesKinds_waiting (hs : s.current.Sound) {free : Reg} {types : List (Option Ty)}
    {args : List Expr} {code : List Instr} (hcall : args.any makesCall = true)
    (hfree : s.current.locals ≤ free.toNat)
    (htemps : free.toNat + argTemporaries (args.any makesCall) 0 0 args ≤
      s.current.locals + s.current.temps)
    (hstaging : widestArg args.length args ≤ s.current.staging)
    (h : Keeps s functions (.args true free free types args) code) :
    StagesKinds s functions free types args
      (code ++ moves (s.current.base args.length) free args.length) := by
  intro declared g rest hcovers htyped hreads hnext
  have hsizes := hs.sizes
  have hbase := hs.toNat_base args.length
  obtain ⟨hlen, hwidest⟩ := le_widestArg args.length args
  have hseats := Layout.seats_waiting hcall hfree htemps hstaging
  have hcount := hseats.length_le (by omega)
  rw [List.map_append, List.append_assoc]
  refine h declared g _ hcovers htyped hreads hseats fun g₁ hg₁ hvalues => ?_
  refine kinded_moves hs (by omega) (by omega) (by omega) fun g₂ hg₂ hmoved =>
    hnext g₂ (fun r hr => ?_) fun j a ha => ?_
  · rw [hg₂ r (by omega), hg₁ r ⟨hr, .inl rfl⟩]
  · have hj := (List.getElem?_eq_some_iff.mp ha).1
    refine ⟨(hvalues j a ha).1, ?_⟩
    rw [← hbase, hmoved j hj, (hvalues j a ha).2]

/-- A call takes arguments of the kinds of its parameters. -/
theorem kinded_call (hs : s.current.Sound) {free : Reg} {name : String} {callee : Layout}
    {args : List Expr} {code : List Instr} {declared : List String} {g : Kinds} {rest : List Item}
    (hcallee : s.callee? name = some callee) (hlen : args.length = callee.args)
    (hfree : free.toNat ≤ s.current.locals + s.current.temps)
    (hstaging : args.length ≤ s.current.staging)
    (hstages : StagesKinds s functions free (callee.function.params.map Var.type) args code)
    (hcovers : s.current.Covers g declared)
    (htyped : TypedArgs (signatures functions) s.current (callee.function.params.map Var.type) args)
    (hreads : argsReadOnly declared args = true)
    (hnext : Continues s g (· < free.toNat) (fun g' =>
      g' (s.current.regs - args.length) = regType? callee.function.ret) rest) :
    Kinded s g ((code ++ [Instr.call callee.index.toUInt32]).map .instr ++ rest) := by
  have hsizes := hs.sizes
  rw [List.map_append, List.append_assoc]
  refine hstages declared g _ hcovers htyped hreads fun g₁ hg₁ hvalues => ?_
  refine .call (List.mem_of_find?_eq_some hcallee) (by omega) (fun i p t hp ht => ?_)
    (hnext _ (fun r hr => ?_) ?_)
  · have hi : i < args.length := by
      rw [hlen]
      exact (List.getElem?_eq_some_iff.mp hp).1
    have ha := List.getElem?_eq_getElem hi
    obtain ⟨hne, hkind⟩ := hvalues i _ ha
    rw [← hlen, hkind]
    rcases htyped.type_eq ha (by rw [List.getElem?_map, hp]; rfl) with h | h | h
    · rw [h] at ht
      cases ht
    · exact absurd h hne
    · rw [h, ht]
  · rw [Kinds.afterCall, if_pos (by omega), hg₁ r hr]
  · rw [← hlen]
    simp [Kinds.afterCall]

theorem keeps_call (hk : Knows s functions) {want : Option Ty} {dst free : Reg} {pos : Pos}
    {ty : Option Ty} {name : String} {nt : Option Ty} {args : List Expr} {callee : Layout}
    {code : List Instr} (hcallee : s.callee? name = some callee) (hlen : args.length = callee.args)
    (hstages : s.current.locals ≤ free.toNat →
      free.toNat + argTemporaries (args.any makesCall) 0 0 args ≤
        s.current.locals + s.current.temps →
      widestArg args.length args ≤ s.current.staging →
      StagesKinds s functions free (callee.function.params.map Var.type) args code) :
    Keeps s functions (.value want dst free (.call pos ty name nt args))
      (code ++ .call callee.index.toUInt32 :: moveTo dst (s.current.base args.length)) := by
  intro declared g rest hcovers htyped hreads hfree htemps hstaging hadmits hnext
  have htemps : free.toNat + argTemporaries (args.any makesCall) 0 0 args ≤
    s.current.locals + s.current.temps := htemps
  have hstaging : widestArg args.length args ≤ s.current.staging := hstaging
  have hbase := hk.sound.toNat_base args.length
  have hwidest := (le_widestArg args.length args).1
  obtain ⟨rfl, hargs⟩ := typed_call (function?_of_callee? hk.function?_eq hcallee) htyped
  have hadmits : s.current.Admits dst (regType? callee.function.ret) rest := hadmits
  have hcode : code ++ .call callee.index.toUInt32 :: moveTo dst (s.current.base args.length) =
      (code ++ [Instr.call callee.index.toUInt32]) ++ moveTo dst (s.current.base args.length) := by
    simp
  rw [hcode, List.map_append, List.append_assoc]
  refine kinded_call hk.sound hcallee hlen (by omega) (by omega) (hstages hfree htemps hstaging)
    hcovers hargs hreads fun g₁ hg₁ hvalue => ?_
  rw [← hbase] at hvalue
  rw [← hvalue] at hadmits
  refine kinded_moveTo hadmits fun g₂ hg₂ hdst => hnext g₂ ?_ (hdst.trans hvalue)
  rintro r ⟨hr, hlt | ⟨hcall, -⟩⟩
  · rw [hg₂ r hr, hg₁ r hlt]
  · cases hcall

/-- The code of every task keeps the kinds of variables. -/
theorem Lowers.keeps (hk : Knows s functions) {task : Task} {code : List Instr}
    (h : Lowers s task code) : Keeps s functions task code := by
  induction h with
  | ident hv => exact keeps_ident hk.sound hv
  | literal ht hbits => exact keeps_literal hk ht hbits
  | negation ht h ih => exact keeps_negation hk (.negation ht h) ht ih
  | operation ht hm h h' ih ih' => exact keeps_operation hk (.operation ht hm h h') ht ih ih'
  | call hcallee hlen hany _ ih =>
    exact keeps_call hk hcallee hlen fun hfree htemps hstaging =>
      stagesKinds_direct hk.sound hany hfree htemps hstaging ih
  | callWaiting hcallee hlen hany _ ih =>
    exact keeps_call hk hcallee hlen fun hfree htemps hstaging =>
      stagesKinds_waiting hk.sound hany hfree htemps hstaging ih
  | operandIdent => exact keeps_operandIdent
  | operandValue hx _ ih => exact keeps_operandValue hk.sound hx ih
  | nil => exact keeps_nil
  | cons h _ ih ih' => exact keeps_cons hk h ih ih'

end

end RegisterLang.Lowering
