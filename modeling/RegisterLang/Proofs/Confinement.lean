import RegisterLang.Proofs.Allocation
import RegisterLang.Proofs.Whole

/-!
# Registers within a window

The uses of registers are followed one by one. What is written lies in the window; what is read is a
variable or a temporary, except the value of a call, which is taken where the call leaves it. Before a
call its arguments have been put, one by one and nothing else, into the registers at the end of the
window, which are after all variables and temporaries.
-/
namespace RegisterLang.Lowering

namespace Use

def target? : Use → Option Nat
  | set dst | mov dst _ | math dst _ _ => some dst
  | _ => none

def sources : Use → List Nat
  | mov _ src | ret src => [src]
  | math _ a b | cmp a b => [a, b]
  | _ => []

end Use

/-- What is known between two uses: the number of arguments of a call directly before, and the
registers after the temporaries that were written since the last call or return. -/
structure Scan where
  called : Option Nat
  staged : List Nat

namespace Scan

def next (l : Layout) (c : Scan) : Use → Scan
  | .call n => ⟨some n, []⟩
  | .ret _ => ⟨none, []⟩
  | u => ⟨none, c.staged ++ u.target?.toList.filter (l.locals + l.temps ≤ ·)⟩

/-- A use that is in order: it writes to the window, it reads variables, temporaries and the value of
the call before, and a call finds its arguments at the end of the window. -/
structure Allows (l : Layout) (c : Scan) (u : Use) : Prop where
  written : ∀ r ∈ u.target?, r < l.regs
  read : ∀ r ∈ u.sources, r < l.locals + l.temps ∨
    (∃ n dst, c.called = some n ∧ u = .mov dst r ∧ r = l.regs - n) ∨ u = .ret 0
  staged : ∀ n, u = .call n → n ≤ l.staging ∧ c.staged = List.range' (l.regs - n) n

end Scan

def Confined (l : Layout) : Scan → List Use → Prop
  | _, [] => True
  | c, u :: rest => c.Allows l u ∧ Confined l (c.next l u) rest

theorem confined_append {l : Layout} {c : Scan} {a b : List Use} :
    Confined l c (a ++ b) ↔ Confined l c a ∧ Confined l (a.foldl (Scan.next l) c) b := by
  induction a generalizing c with
  | nil => simp [Confined]
  | cons u a ih => simp only [List.cons_append, Confined, ih, List.foldl_cons, and_assoc]

/-- Uses that are in order where the registers in `before` are staged, and leave those in `after`. -/
def InOrder (l : Layout) (before : List Nat) (us : List Use) (after : List Nat) : Prop :=
  ∀ called, Confined l ⟨called, before⟩ us ∧
    (us.foldl (Scan.next l) ⟨called, before⟩).staged = after

def Layout.stage (l : Layout) (dst : Nat) (staged : List Nat) : List Nat :=
  staged ++ [dst].filter (l.locals + l.temps ≤ ·)

theorem Layout.stage_of_lt {l : Layout} {dst : Nat} (h : dst < l.locals + l.temps)
    (staged : List Nat) : l.stage dst staged = staged := by
  simp [stage, h]

theorem Layout.stage_of_le {l : Layout} {dst : Nat} (h : l.locals + l.temps ≤ dst)
    (staged : List Nat) : l.stage dst staged = staged ++ [dst] := by
  simp [stage, h]

namespace InOrder
variable {l : Layout} {before mid after : List Nat} {a b : List Use}

theorem nil : InOrder l before [] before := fun _ => ⟨trivial, rfl⟩

theorem append (ha : InOrder l before a mid) (hb : InOrder l mid b after) :
    InOrder l before (a ++ b) after := by
  intro called
  obtain ⟨hconfined, hmid⟩ := ha called
  obtain ⟨hconfined', hafter⟩ := hb (a.foldl (Scan.next l) ⟨called, before⟩).called
  rw [← hmid] at hconfined' hafter
  rw [confined_append, List.foldl_append]
  exact ⟨⟨hconfined, hconfined'⟩, hafter⟩

/-- A use that writes a register and reads variables and temporaries. -/
theorem write {u : Use} {dst : Nat} (htarget : u.target? = some dst) (hdst : dst < l.regs)
    (hsources : ∀ r ∈ u.sources, r < l.locals + l.temps) :
    InOrder l before [u] (l.stage dst before) := by
  intro called
  have hallows : Scan.Allows l ⟨called, before⟩ u := by
    refine ⟨fun r hr => ?_, fun r hr => .inl (hsources r hr), fun n hn => ?_⟩
    · rw [htarget] at hr
      cases hr
      exact hdst
    · rw [hn] at htarget
      cases htarget
  refine ⟨⟨hallows, trivial⟩, ?_⟩
  cases u <;> first | cases htarget; rfl | cases htarget

/-- A use that writes nothing and does not leave the function. -/
theorem look {u : Use} (htarget : u.target? = none) (hcall : ∀ n, u ≠ .call n)
    (hret : ∀ r, u ≠ .ret r) (hsources : ∀ r ∈ u.sources, r < l.locals + l.temps) :
    InOrder l before [u] before := by
  intro called
  have hallows : Scan.Allows l ⟨called, before⟩ u := by
    refine ⟨fun r hr => ?_, fun r hr => .inl (hsources r hr), fun n hn => absurd hn (hcall n)⟩
    rw [htarget] at hr
    cases hr
  refine ⟨⟨hallows, trivial⟩, ?_⟩
  cases u with
  | call n => exact absurd rfl (hcall n)
  | ret r => exact absurd rfl (hret r)
  | set | mov | math => cases htarget
  | _ => exact List.append_nil _

theorem jump : InOrder l before [.jump] before := look rfl nofun nofun nofun

theorem ret : InOrder l before [.ret 0] [] := by
  intro called
  refine ⟨⟨⟨nofun, fun r hr => .inr (.inr ?_), nofun⟩, trivial⟩, rfl⟩
  rfl

/-- A call whose arguments are staged. -/
theorem call {n : Nat} (hn : n ≤ l.staging) :
    InOrder l (List.range' (l.regs - n) n) [.call n] [] := by
  intro called
  refine ⟨⟨⟨nofun, nofun, fun m hm => ?_⟩, trivial⟩, rfl⟩
  cases hm
  exact ⟨hn, rfl⟩

/-- A call whose value goes to `dst`. -/
theorem call_transfer {n dst : Nat} (hn : n ≤ l.staging) (hdst : l.regs - n ≠ dst → dst < l.regs) :
    ∃ after, InOrder l (List.range' (l.regs - n) n) (.call n :: transfer dst (l.regs - n)) after ∧
      (dst < l.locals + l.temps → after = []) := by
  unfold transfer
  by_cases h : l.regs - n = dst
  · rw [if_neg (not_not.mpr h)]
    exact ⟨[], call hn, fun _ => rfl⟩
  · rw [if_pos h]
    refine ⟨l.stage dst [], fun called => ⟨⟨⟨nofun, nofun, fun m hm => ?_⟩, ⟨?_, ?_, nofun⟩, trivial⟩,
      rfl⟩, fun hlt => l.stage_of_lt hlt []⟩
    · cases hm
      exact ⟨hn, rfl⟩
    · intro r hr
      cases hr
      exact hdst h
    · intro r hr
      obtain rfl := List.mem_singleton.mp hr
      exact .inr (.inl ⟨n, dst, rfl, rfl, rfl⟩)

/-- Values that waited in temporaries are staged. -/
theorem transferAll {target source n : Nat} (htarget : l.locals + l.temps ≤ target)
    (hregs : target + n ≤ l.regs) (hsource : source + n ≤ l.locals + l.temps) :
    InOrder l before (transferAll target source n) (before ++ List.range' target n) := by
  induction n with
  | zero => simpa [Lowering.transferAll] using nil
  | succ n ih =>
    have hlast : InOrder l (before ++ List.range' target n) [.mov (target + n) (source + n)] _ :=
      write rfl (by omega : target + n < l.regs) (by simp [Use.sources]; omega)
    rw [l.stage_of_le (by omega), List.append_assoc, ← List.range'_1_concat] at hlast
    have h := (ih (by omega) (by omega)).append hlast
    simpa [Lowering.transferAll, List.range_succ] using h

end InOrder

def Task.InOrder (l : Layout) : Task → Prop
  | .value want dst free x => l.Target dst x → ∀ staged, (makesCall x = true → staged = []) →
    ∃ after, Lowering.InOrder l staged (Task.uses l (.value want dst free x)) after ∧
      (dst.toNat < l.locals + l.temps ∨ makesCall x = false → after = l.stage dst.toNat staged)
  | .operand want free x r => r.toNat < l.locals + l.temps ∧
    ∀ staged, (makesCall x = true → staged = []) →
      Lowering.InOrder l staged (Task.uses l (.operand want free x r)) staged
  | .args true dst free types xs =>
    Lowering.InOrder l [] (Task.uses l (.args true dst free types xs)) []
  | .args false dst free types xs => ∀ staged,
    Lowering.InOrder l staged (Task.uses l (.args false dst free types xs))
      (staged ++ List.range' dst.toNat xs.length)

theorem inOrder_literal {l : Layout} {want : Option Ty} {dst free : Reg} {x : Expr} {t : RegType}
    {bits : UInt64} (hbits : literalBits? t x = some bits) :
    (Task.value want dst free x).InOrder l := by
  intro hdst staged _
  have hlt : dst.toNat < l.regs := by
    cases x <;> first | exact hdst | cases hbits
  refine ⟨l.stage dst.toNat staged, ?_, fun _ => rfl⟩
  rw [Task.uses, Layout.valueUses_literal _ _ _ hbits]
  exact .write rfl hlt (List.forall_mem_nil _)

section
variable {s : Scope} (hs : s.current.Sound)
include hs

theorem inOrder_ident {want : Option Ty} {dst free : Reg} {pos : Pos} {ty : Option Ty}
    {name : String} {v : Variable} (hv : s.current.var? name = some v) :
    (Task.value want dst free (.ident pos ty name)).InOrder s.current := by
  intro hdst staged _
  have hslot := hs.slot_lt hv
  refine ⟨s.current.stage dst.toNat staged, ?_, fun _ => rfl⟩
  rw [Task.uses, Layout.valueUses, transfer]
  by_cases h : s.current.slot name = dst.toNat
  · rw [if_neg (not_not.mpr h), s.current.stage_of_lt (by omega)]
    exact .nil
  · rw [if_pos h]
    refine .write rfl hdst fun r hr => ?_
    obtain rfl := List.mem_singleton.mp hr
    omega

theorem inOrder_negation {want want' : Option Ty} {dst free r : Reg} {pos : Pos} {ty : Option Ty}
    {op : Op} {left right : Expr}
    (hspace : (Task.value want dst free (.op pos ty op false left right)).HasRoom s.current)
    (hplace : r.toNat = s.current.place (free + 1).toNat right)
    (h : (Task.operand want' (free + 1) right r).InOrder s.current) :
    (Task.value want dst free (.op pos ty op false left right)).InOrder s.current := by
  intro hdst staged hstaged
  have hdst : dst.toNat < s.current.regs := hdst
  have hsizes := hs.sizes
  obtain ⟨-, hone, hfree⟩ := hspace.negation hs (w := want') (r := r)
  obtain ⟨hr, hright⟩ := h
  have hright := hright staged fun hcall => hstaged (by simp [makesCall, hcall])
  have hset : InOrder s.current staged [.set free.toNat] _ := .write rfl (by omega) (List.forall_mem_nil _)
  rw [s.current.stage_of_lt hfree] at hset
  have hmath : InOrder s.current staged [.math dst.toNat free.toNat r.toNat] _ :=
    .write rfl hdst (by simp [Use.sources, hfree, hr])
  rw [Task.uses, hone] at hright
  rw [hone] at hplace
  rw [hplace] at hmath
  exact ⟨_, (hset.append hright).append hmath, fun _ => rfl⟩

theorem inOrder_operation {want want' : Option Ty} {dst free a b : Reg} {pos : Pos} {ty : Option Ty}
    {op : Op} {left right : Expr}
    (hspace : (Task.value want dst free (.op pos ty op true left right)).HasRoom s.current)
    (hplaceA : a.toNat = s.current.place free.toNat left)
    (hplaceB : b.toNat = s.current.place (free + 1).toNat right)
    (h : (Task.operand want' free left a).InOrder s.current)
    (h' : (Task.operand want' (free + 1) right b).InOrder s.current) :
    (Task.value want dst free (.op pos ty op true left right)).InOrder s.current := by
  intro hdst staged hstaged
  have hdst : dst.toNat < s.current.regs := hdst
  obtain ⟨-, -, hone⟩ := hspace.operation hs (w := want') (r := a) (q := b)
  obtain ⟨ha, hleft⟩ := h
  obtain ⟨hb, hright⟩ := h'
  have hleft := hleft staged fun hcall => hstaged (by simp [makesCall, hcall])
  have hright := hright staged fun hcall => hstaged (by simp [makesCall, hcall])
  have hmath : InOrder s.current staged [.math dst.toNat a.toNat b.toNat] _ :=
    .write rfl hdst (by simp [Use.sources, ha, hb])
  rw [Task.uses, hone] at hright
  rw [hone] at hplaceB
  rw [hplaceA, hplaceB] at hmath
  exact ⟨_, (hleft.append hright).append hmath, fun _ => rfl⟩

theorem inOrder_operandValue {want : Option Ty} {free : Reg} {x : Expr} (hx : isIdent x = false)
    (hspace : (Task.operand want free x free).HasRoom s.current)
    (h : (Task.value want free (free + 1) x).InOrder s.current) :
    (Task.operand want free x free).InOrder s.current := by
  have hsizes := hs.sizes
  obtain ⟨-, hone, hfree⟩ := hspace.operandValue hs hx (w := want)
  refine ⟨hfree, fun staged hstaged => ?_⟩
  obtain ⟨after, horder, hafter⟩ := h (Layout.target_of_lt (by omega)) staged hstaged
  rw [hafter (.inl hfree), s.current.stage_of_lt hfree, Task.uses, hone] at horder
  rw [Task.uses, Layout.operandUses, hx]
  exact horder

theorem inOrder_cons {waiting : Bool} {want : Option Ty} {dst free : Reg}
    {types : List (Option Ty)} {a : Expr} {rest : List Expr}
    (hseats : s.current.Seats waiting dst free (a :: rest))
    (h : (Task.value want dst (if waiting then dst + 1 else free) a).InOrder s.current)
    (h' : (Task.args waiting (dst + 1) free types.tail rest).InOrder s.current) :
    (Task.args waiting dst free types (a :: rest)).InOrder s.current := by
  obtain ⟨-, hregs, hone⟩ := hseats.toNat_next hs
  have hvalue := h (Layout.target_of_lt hregs)
  cases waiting with
  | true =>
    have hfirst := (hseats.waits rfl).2 0 a rfl
    obtain ⟨after, horder, hafter⟩ := hvalue [] fun _ => rfl
    rw [hafter (.inl (by omega)), s.current.stage_of_lt (by omega), Task.uses, if_pos rfl, hone]
      at horder
    have hrest : InOrder s.current [] _ [] := h'
    rw [Task.uses, hone] at hrest
    exact horder.append hrest
  | false =>
    obtain ⟨-, hlow, -, hall⟩ := hseats.direct rfl
    have hcall := (hall a List.mem_cons_self).1
    intro staged
    obtain ⟨after, horder, hafter⟩ := hvalue staged (by simp [hcall])
    rw [hafter (.inr hcall), s.current.stage_of_le hlow, Task.uses] at horder
    have hrest := h' (staged ++ [dst.toNat])
    rw [Task.uses, hone] at hrest
    have hlist : staged ++ [dst.toNat] ++ List.range' (dst.toNat + 1) rest.length =
        staged ++ List.range' dst.toNat (a :: rest).length := by
      simp [List.range'_succ]
    rw [hlist] at hrest
    exact horder.append hrest

/-- The arguments of a call end up at the end of the window, in their order. -/
theorem inOrder_staging {want : Option Ty} {dst free : Reg} {pos : Pos} {ty : Option Ty}
    {name : String} {nt : Option Ty} {types : List (Option Ty)} {args : List Expr}
    (hspace : (Task.value want dst free (.call pos ty name nt args)).HasRoom s.current)
    (h : (args.any makesCall = false →
        (Task.args false (s.current.base args.length) free types args).InOrder s.current) ∧
      (args.any makesCall = true → (Task.args true free free types args).InOrder s.current)) :
    InOrder s.current [] (s.current.stagingUses free.toNat args)
      (List.range' (s.current.regs - args.length) args.length) := by
  have hsizes := hs.sizes
  have hlen := hspace.length_le
  rw [Layout.stagingUses]
  cases hcall : args.any makesCall with
  | false =>
    have horder := h.1 hcall []
    rw [Task.uses, hs.toNat_base, List.nil_append] at horder
    exact horder
  | true =>
    obtain ⟨-, hcount⟩ := hspace.waiting types hcall
    have hmoves : InOrder s.current []
        (transferAll (s.current.regs - args.length) free.toNat args.length) _ :=
      .transferAll (by omega) (by omega) hcount
    exact (h.2 hcall).append hmoves

theorem inOrder_call {want : Option Ty} {dst free : Reg} {pos : Pos} {ty : Option Ty}
    {name : String} {nt : Option Ty} {args : List Expr}
    (hspace : (Task.value want dst free (.call pos ty name nt args)).HasRoom s.current)
    (h : InOrder s.current [] (s.current.stagingUses free.toNat args)
      (List.range' (s.current.regs - args.length) args.length)) :
    (Task.value want dst free (.call pos ty name nt args)).InOrder s.current := by
  intro hdst staged hstaged
  obtain rfl := hstaged rfl
  have hdst' : s.current.regs - args.length ≠ dst.toNat → dst.toNat < s.current.regs := by
    intro hne
    rcases hdst with hdst | rfl
    · exact hdst
    · exact absurd (hs.toNat_base _).symm hne
  obtain ⟨after, hcall, hafter⟩ := InOrder.call_transfer hspace.length_le hdst'
  rw [Task.uses, Layout.valueUses_call]
  refine ⟨after, h.append hcall, ?_⟩
  rintro (hlt | hmakes)
  · rw [hafter hlt, s.current.stage_of_lt hlt]
  · cases hmakes

/-- The uses for every task are in order. -/
theorem Lowers.inOrder {task : Task} {code : List Instr} (h : Lowers s task code)
    (hspace : task.HasRoom s.current) : task.InOrder s.current := by
  induction h with
  | ident hv => exact inOrder_ident hs hv
  | literal _ hbits => exact inOrder_literal hbits
  | negation _ hr ih => exact inOrder_negation hs hspace (hr.toNat_operand hs) (ih (hspace.negation hs).1)
  | operation _ _ ha hb iha ihb =>
    obtain ⟨hleft, hright, -⟩ := hspace.operation hs
    exact inOrder_operation hs hspace (ha.toNat_operand hs) (hb.toNat_operand hs) (iha hleft)
      (ihb hright)
  | call _ _ hcall _ ih =>
    exact inOrder_call hs hspace (inOrder_staging hs hspace
      ⟨fun _ => ih (hspace.direct hs hcall), fun h => (nomatch hcall.symm.trans h)⟩)
  | callWaiting _ _ hcall _ ih =>
    exact inOrder_call hs hspace (inOrder_staging hs hspace
      ⟨fun h => (nomatch hcall.symm.trans h), fun _ => ih (hspace.waiting _ hcall).1⟩)
  | operandIdent hv =>
    refine ⟨?_, fun staged _ => .nil⟩
    have hreg := hs.reg_lt hv
    omega
  | operandValue hx _ ih => exact inOrder_operandValue hs hx hspace (ih (hspace.operandValue hs hx).1)
  | @nil waiting dst free types =>
    cases waiting with
    | true => exact .nil
    | false => exact fun staged => (List.append_nil staged).symm ▸ .nil
  | cons _ _ ih ih' => exact inOrder_cons hs hspace (ih (hspace.head hs)) (ih' (Layout.Seats.tail hspace hs))

/-- A value of a statement is evaluated while nothing is staged. -/
theorem Lowers.inOrder_value {want : Option Ty} {dst : Reg} {x : Expr} {code : List Instr}
    (h : Lowers s (.value want dst s.current.free x) code) (hroom : s.current.Room x)
    (hdst : dst.toNat < s.current.regs) :
    ∃ after, InOrder s.current [] (s.current.valueUses dst.toNat s.current.locals x) after ∧
      (dst.toNat < s.current.locals + s.current.temps → after = []) := by
  obtain ⟨after, horder, hafter⟩ := h.inOrder hs (hroom.hasRoom hs _ _) (Layout.target_of_lt hdst) []
    fun _ => rfl
  rw [Task.uses, hs.toNat_free] at horder
  exact ⟨after, horder, fun hlt => (hafter (.inl hlt)).trans (s.current.stage_of_lt hlt [])⟩

/-- The value of a variable. -/
theorem Lowers.inOrder_var {want : Option Ty} {name : String} {v : Variable} {x : Expr}
    {code : List Instr} (hv : s.current.var? name = some v)
    (h : Lowers s (.value want v.reg s.current.free x) code) (hroom : s.current.Room x) :
    InOrder s.current [] (s.current.valueUses (s.current.slot name) s.current.locals x) [] := by
  have hsizes := hs.sizes
  have hreg := hs.reg_lt hv
  obtain ⟨after, horder, hafter⟩ := h.inOrder_value hs hroom (by omega)
  rwa [hafter (by omega), hs.toNat_reg hv] at horder

/-- A call for its effect. -/
theorem Lowers.inOrder_effect {want : Option Ty} {dst : Reg} {pos : Pos} {ty : Option Ty}
    {name : String} {nt : Option Ty} {args : List Expr} {code : List Instr}
    (h : Lowers s (.value want dst s.current.free (.call pos ty name nt args)) code)
    (hroom : s.current.Room (.call pos ty name nt args)) :
    InOrder s.current [] (s.current.stagingUses s.current.locals args ++ [Use.call args.length]) [] := by
  have hspace := hroom.hasRoom hs want dst
  have hstaging : InOrder s.current [] (s.current.stagingUses s.current.free.toNat args)
      (List.range' (s.current.regs - args.length) args.length) := by
    cases h with
    | literal _ hbits => cases hbits
    | call _ _ hcall hargs =>
      exact inOrder_staging hs hspace
        ⟨fun _ => hargs.inOrder hs (hspace.direct hs hcall), fun h => (nomatch hcall.symm.trans h)⟩
    | callWaiting _ _ hcall hargs =>
      exact inOrder_staging hs hspace
        ⟨fun h => (nomatch hcall.symm.trans h), fun _ => hargs.inOrder hs (hspace.waiting _ hcall).1⟩
  rw [hs.toNat_free] at hstaging
  exact hstaging.append (.call hspace.length_le)

theorem LowersTest.inOrder {first : Nat} {test : Expr} {code : List Instr}
    (h : LowersTest s first test code) (hroom : s.current.Room test) (hpair : test.IsPair) :
    InOrder s.current [] (s.current.testUses test) [] := by
  obtain @⟨_, _, _, _, _, a, b, _, _, hcomparison, ht, hjumps, ha, hb⟩ := h
  cases test with
  | op pos ty op binary left right =>
    obtain rfl : binary = true := hpair
    cases hcomparison
    have hspace := hroom.hasRoom hs none 0
    obtain ⟨hleft, hright, hone⟩ := hspace.operation hs
    obtain ⟨ha', hstaysA⟩ := ha.inOrder hs hleft
    obtain ⟨hb', hstaysB⟩ := hb.inOrder hs hright
    have hstaysA := hstaysA [] fun _ => rfl
    have hstaysB := hstaysB [] fun _ => rfl
    have hplaceA := ha.toNat_operand hs
    have hplaceB := hb.toNat_operand hs
    rw [hs.toNat_free] at hone hplaceA
    rw [Task.uses, hs.toNat_free] at hstaysA
    rw [Task.uses, hone] at hstaysB
    rw [hone] at hplaceB
    have hcmp : InOrder s.current [] [.cmp a.toNat b.toNat] [] :=
      .look rfl (fun _ h => by cases h) (fun _ h => by cases h) (by simp [Use.sources, ha', hb'])
    rw [hplaceA, hplaceB] at hcmp
    have hreplicate : ∀ n, InOrder s.current [] (List.replicate n .jump) [] := by
      intro n
      induction n with
      | zero => exact .nil
      | succ n ih => exact InOrder.jump.append ih
    exact ((hstaysA.append hstaysB).append (hcmp.append (hreplicate _))).append .jump
  | _ => exact hpair.elim

/-- The uses by statements are in order. Nothing is staged before and after a statement. -/
theorem LowersStmt.inOrder {p : Piece} {n n' : Nat} {items : List Item}
    (h : LowersStmt s p n items n') (hp : Planned s.current p) (hw : Whole p) :
    InOrder s.current [] (s.current.pieceUses p) [] := by
  have hsizes := hs.sizes
  induction h with
  | @declare n v hmissing =>
    cases hp with
    | var hv =>
      have hslot := hs.slot_lt hv
      have hset : InOrder s.current [] [.set (s.current.slot v.name)] _ :=
        .write rfl (by omega) (List.forall_mem_nil _)
      rw [s.current.stage_of_lt (by omega)] at hset
      rw [Layout.pieceUses, Layout.stmtUses, if_pos hmissing]
      exact hset
  | @init n v code hmissing hcode =>
    cases hp with
    | var hv _ hroom =>
      rw [hv] at hcode
      rw [Layout.pieceUses, Layout.stmtUses, hmissing]
      exact hcode.inOrder_var hs hv hroom
  | assign hv hcode =>
    cases hp with
    | assign hroom => exact hcode.inOrder_var hs hv hroom
  | retNothing hmissing =>
    rw [Layout.pieceUses, Layout.stmtUses, if_pos hmissing]
    exact (InOrder.write (u := .set 0) rfl hsizes.2.1 (List.forall_mem_nil _)).append .ret
  | ret hmissing hcode =>
    cases hp with
    | ret hroom =>
      have hzero : (0 : Reg).toNat < s.current.regs := hsizes.2.1
      obtain ⟨after, horder, -⟩ := hcode.inOrder_value hs hroom hzero
      rw [Layout.pieceUses, Layout.stmtUses, hmissing]
      exact horder.append .ret
  | call hcode =>
    cases hp with
    | expr hroom => exact hcode.inOrder_effect hs hroom
  | cond htest _ _ ihbody ihmore =>
    cases hp with
    | cond hroom hbody hmore =>
      cases hw with
      | cond hpair _ hwbody hwmore =>
        rw [Layout.pieceUses, Layout.stmtUses_cond]
        exact (((htest.inOrder hs hroom hpair).append (ihbody hbody hwbody)).append .jump).append
          (ihmore hmore hwmore)
  | nil => exact .nil
  | cons _ _ ih ih' =>
    cases hp with
    | cons hx hrest =>
      cases hw with
      | cons hwx hwrest => exact (ih hx hwx).append (ih' hrest hwrest)

/-- The uses by a function are in order. -/
theorem LowersFunction.confined {items : List Item} (h : LowersFunction s items)
    (hw : Whole (.all s.current.function.body)) : Confined s.current ⟨none, []⟩ s.current.uses := by
  obtain ⟨body, hbody, -⟩ := h
  have henter : InOrder s.current [] [.enter s.current.regs s.current.args] [] :=
    .look rfl nofun nofun nofun
  have horder := henter.append (hbody.inOrder hs hs.body hw)
  have hend : InOrder s.current []
      (if s.current.function.body.getLast?.any isReturn = true then [] else [.ret 0]) [] := by
    by_cases hreturn : s.current.function.body.getLast?.any isReturn = true
    · rw [if_pos hreturn]
      exact .nil
    · rw [if_neg hreturn]
      exact .ret
  exact ((horder.append hend) none).1

end

theorem Confined.allows {l : Layout} {c : Scan} {us before after : List Use} {u : Use}
    (h : Confined l c us) (hu : us = before ++ u :: after) :
    (before.foldl (Scan.next l) c).Allows l u := by
  rw [hu, confined_append] at h
  exact h.2.1

theorem getLast?_of_called {l : Layout} {staged : List Nat} {before : List Use} {n : Nat}
    (h : (before.foldl (Scan.next l) ⟨none, staged⟩).called = some n) :
    before.getLast? = some (.call n) := by
  rcases List.eq_nil_or_concat before with rfl | ⟨init, u, rfl⟩
  · cases h
  · rw [List.concat_eq_append, List.foldl_append] at h
    rw [List.concat_eq_append, List.getLast?_append]
    cases u <;> cases h
    rfl

/-- A register is read by one of the uses, and not as the value of a call directly before. -/
def Layout.Needs (l : Layout) (us : List Use) (r : Nat) : Prop :=
  ∃ before u after, us = before ++ u :: after ∧ r ∈ u.sources ∧
    ∀ n, before.getLast? = some (.call n) → r ≠ l.regs - n

/-- What holds of the registers of the code of a function. The code uses them as counted without a
bound; what it writes and reads lies in the window, except that the value of a function without
parameters is found after its end; and the arguments of a call are put, one by one, behind all
variables and all that is needed after the call. In a window without variables and temporaries the
first register may be returned. -/
structure Allocated (layouts : List Layout) (l : Layout) (code : List Instr) : Prop where
  performs : Perform layouts code l.uses
  written : ∀ u ∈ l.uses, ∀ r ∈ u.target?, r < l.regs
  read : ∀ before u after, l.uses = before ++ u :: after → ∀ r ∈ u.sources,
    r < l.regs ∨ r = l.regs ∧ (∃ dst, u = .mov dst r) ∧ before.getLast? = some (.call 0)
  staged : ∀ before n after, l.uses = before ++ .call n :: after → n ≤ l.regs ∧
    (before.foldl (Scan.next l) ⟨none, []⟩).staged = List.range' (l.regs - n) n
  vars : ∀ name v, l.var? name = some v → v.reg.toNat = l.slot name ∧
    ∀ n, .call n ∈ l.uses → l.slot name < l.regs - n
  needed : ∀ before n after, l.uses = before ++ .call n :: after → ∀ r,
    l.Needs (.call n :: after) r → r < l.regs - n ∨ l.locals + l.temps = 0

theorem allocated_of_confined {layouts : List Layout} {l : Layout} {code : List Instr}
    (hl : l.Sound) (hperform : Perform layouts code l.uses)
    (hconfined : Confined l ⟨none, []⟩ l.uses) : Allocated layouts l code := by
  have hsizes := hl.sizes
  have hcall : ∀ n, .call n ∈ l.uses → n ≤ l.staging := by
    intro n hn
    obtain ⟨before, after, hu⟩ := List.append_of_mem hn
    exact ((hconfined.allows hu).staged n rfl).1
  refine ⟨hperform, ?_, ?_, ?_, ?_, ?_⟩
  · intro u hu
    obtain ⟨before, after, hu⟩ := List.append_of_mem hu
    exact (hconfined.allows hu).written
  · intro before u after hu r hr
    rcases (hconfined.allows hu).read r hr with hlt | ⟨n, dst, hcalled, rfl, hvalue⟩ | rfl
    · exact .inl (by omega)
    · by_cases hn : n = 0
      · subst hn
        exact .inr ⟨hvalue, ⟨dst, rfl⟩, getLast?_of_called hcalled⟩
      · exact .inl (by omega)
    · rw [Use.sources, List.mem_singleton] at hr
      exact .inl (by omega)
  · intro before n after hu
    obtain ⟨hn, hstaged⟩ := (hconfined.allows hu).staged n rfl
    exact ⟨by omega, hstaged⟩
  · intro name v hv
    have hlt := hl.slot_lt hv
    refine ⟨hl.toNat_reg hv, fun n hn => ?_⟩
    have hle := hcall n hn
    omega
  · rintro before n after hu r ⟨mid, u, rest, hmid, hr, hnot⟩
    have hle := hcall n (by simp [hu])
    rw [hmid, ← List.append_assoc] at hu
    rcases (hconfined.allows hu).read r hr with hlt | ⟨k, dst, hcalled, -, hvalue⟩ | rfl
    · exact .inl (by omega)
    · -- the use before is a call: the one at the start, or one after it
      have hlast := getLast?_of_called hcalled
      cases mid with
      | nil =>
        obtain ⟨rfl, -⟩ := List.cons.inj hmid
        cases hr
      | cons w mid =>
        rw [List.getLast?_append, List.getLast?_cons] at hlast
        rw [List.getLast?_cons] at hnot
        exact absurd hvalue (hnot k hlast)
    · rw [Use.sources, List.mem_singleton] at hr
      by_cases hzero : l.locals + l.temps = 0
      · exact .inr hzero
      · exact .inl (by omega)

theorem flatMap_bytes (items : List Item) :
    items.flatMap Item.bytes = (instrsOf items).flatMap Instr.bytes := by
  induction items with
  | nil => rfl
  | cons item items ih =>
    cases item with
    | instr x => rw [List.flatMap_cons, instrsOf_instr, List.flatMap_cons, ih, Item.bytes]
    | label l => rw [List.flatMap_cons, instrsOf_label, ih, Item.bytes, List.nil_append]

theorem InSequence.allocated {layouts : List Layout} {F L : Nat → Nat} {pc : Nat} {ls : List Layout}
    {all : List (List Item)} (h : InSequence layouts F L pc ls all)
    (hls : ∀ l ∈ ls, l.Sound ∧ Whole (.all l.function.body)) :
    List.Forall₂ (Allocated layouts) ls (all.map instrsOf) := by
  induction h with
  | nil => exact .nil
  | cons _ hitems _ _ ih =>
    rw [List.forall_mem_cons] at hls
    obtain ⟨⟨hl, hw⟩, hls⟩ := hls
    exact .cons (allocated_of_confined hl (hitems.performs hl hw) (hitems.confined hl hw)) (ih hls)

/-- The registers of compiled functions. The code of an image is that of its functions, of which
`main` is the first and the others follow in their order, and each keeps to its window. -/
theorem generate_allocated {file : File} (hfile : file.IsRead) {ds : Array Diagnostic}
    {buffer : Int} {b : Builder} (h : (generate file ds buffer).result = .ok b) :
    ∃ layouts codes, layouts = (generate file ds buffer).layouts ∧
      layouts.map Layout.function = mainFirst file.functions ∧
      b.image.toList.drop (12 + 8 * layouts.length + 8 * Layout.labelCount layouts) =
        codes.flatten.flatMap Instr.bytes ∧
      List.Forall₂ (Allocated layouts) layouts codes := by
  obtain ⟨layouts, F, L, all, heq, hlayouts, hrep, hwritten⟩ := generate_written h
  have hls : ∀ l ∈ layouts, l.Sound ∧ Whole (.all l.function.body) := by
    intro l hl
    obtain ⟨i, hi⟩ := List.getElem?_of_mem hl
    have hmem := hlayouts.perm.subset (List.mem_map_of_mem hl)
    exact ⟨(hlayouts.numbered i l hi).2.2, (hfile.whole _ hmem).body⟩
  refine ⟨layouts, all.map instrsOf, heq, hlayouts.order, ?_, hwritten.allocated hls⟩
  have hcode : (all.map instrsOf).flatten = instrsOf all.flatten := List.filterMap_flatten.symm
  rw [hrep.drop_eq, hcode, flatMap_bytes]

def waiting : Text.Bytes :=
  ("main::()->u8{return f(1,g());}" ++ "f::(a:u8,b:u8)->u8{}g::()->u8{}").toList.map
    fun c => c.toNat.toUInt8

/-- The value of the inner call is found right after the window, and the arguments go to its end. -/
theorem allocated_waiting : ∃ b layouts codes,
    (generate (Parser.parse "p" waiting).file #[] 1).result = .ok b ∧
    layouts = (generate (Parser.parse "p" waiting).file #[] 1).layouts ∧
    (layouts.map Layout.uses).head? = some [.enter 4 0, .set 0, .call 0, .mov 1 4, .mov 2 0, .mov 3 1,
      .call 2, .mov 0 2, .ret 0] ∧
    b.image.toList.drop (12 + 8 * layouts.length + 8 * Layout.labelCount layouts) =
      codes.flatten.flatMap Instr.bytes ∧
    List.Forall₂ (Allocated layouts) layouts codes := by
  have h : ((generate (Parser.parse "p" waiting).file #[] 1).result.toOption.isSome &&
      ((generate (Parser.parse "p" waiting).file #[] 1).layouts.map Layout.uses).head? =
        some [.enter 4 0, .set 0, .call 0, .mov 1 4, .mov 2 0, .mov 3 1, .call 2, .mov 0 2,
          .ret 0]) = true := by    decide +kernel
  rw [Bool.and_eq_true, decide_eq_true_eq] at h
  obtain ⟨hok, huses⟩ := h
  cases hb : (generate (Parser.parse "p" waiting).file #[] 1).result with
  | error e =>
    rw [hb] at hok
    cases hok
  | ok b =>
    obtain ⟨layouts, codes, rfl, -, hcode, hall⟩ := generate_allocated (.parsed "p" waiting) hb
    exact ⟨b, _, codes, rfl, rfl, huses, hcode, hall⟩

end RegisterLang.Lowering
