import Mathlib.Data.List.Forall2
import RegisterLang.Proofs.Linked
import RegisterLang.Proofs.Windows

/-!
# The registers of code

`Layout.uses` says which registers the code of a function writes and reads, instruction by
instruction. It counts registers in natural numbers, from the tree and the sizes of the parts of the
window alone. The code of a function performs these uses, so nothing is lost where a number of
registers is taken in sixteen bits.
-/
namespace RegisterLang.Lowering

/-- What an instruction does with the registers of a window. -/
inductive Use where
  | enter (regs args : Nat)
  | set (dst : Nat)
  | mov (dst src : Nat)
  | math (dst a b : Nat)
  | cmp (a b : Nat)
  | jump
  | call (args : Nat)
  | ret (src : Nat)
  deriving DecidableEq

/-- An instruction uses the registers that it names. A call is one of a function that takes so many
arguments. -/
inductive Performs (layouts : List Layout) : Instr → Use → Prop
  | enter (regs args : UInt16) : Performs layouts (.func regs args) (.enter regs.toNat args.toNat)
  | set (t : RegType) (dst : Reg) (bits : UInt64) :
      Performs layouts (.set t dst bits) (.set dst.toNat)
  | mov (dst src : Reg) : Performs layouts (.mov dst src) (.mov dst.toNat src.toNat)
  | math (op : Opcode) (t : RegType) (dst a b : Reg) :
      Performs layouts (.math op t dst a b) (.math dst.toNat a.toNat b.toNat)
  | cmp (t : RegType) (a b : Reg) : Performs layouts (.cmp t a b) (.cmp a.toNat b.toNat)
  | jump (op : Opcode) (l : UInt32) : Performs layouts (.jump op l) .jump
  | call {callee : Layout} : callee ∈ layouts →
      Performs layouts (.call callee.index.toUInt32) (.call callee.args)
  | ret (src : Reg) : Performs layouts (.ret src) (.ret src.toNat)

def transfer (dst src : Nat) : List Use := if src ≠ dst then [.mov dst src] else []

def transferAll (target source n : Nat) : List Use :=
  (List.range n).map fun i => .mov (target + i) (source + i)

namespace Layout

/-- The place of a variable in the order of declaration, which is its register. -/
def slot (l : Layout) (name : String) : Nat := l.vars.findIdx fun p => p.1 = name

/-- Where an operand is: variables are read where they are, and the rest is put into `free`. -/
def place (l : Layout) (free : Nat) : Expr → Nat
  | .ident _ _ name => l.slot name
  | _ => free

mutual

def valueUses (l : Layout) (dst free : Nat) : Expr → List Use
  | .missing => []
  | .ident _ _ name => transfer dst (l.slot name)
  | .int .. | .float .. | .double .. | .char .. | .string .. => [.set dst]
  | .op _ _ _ true left right =>
    (if isIdent left then [] else l.valueUses free (free + 1) left) ++
      (if isIdent right then [] else l.valueUses (free + 1) (free + 1 + 1) right) ++
      [.math dst (l.place free left) (l.place (free + 1) right)]
  | .op _ _ _ false _ right =>
    .set free :: (if isIdent right then [] else l.valueUses (free + 1) (free + 1 + 1) right) ++
      [.math dst free (l.place (free + 1) right)]
  | .call _ _ _ _ args =>
    (if args.any makesCall then l.argUses true free free args ++
        transferAll (l.regs - args.length) free args.length
      else l.argUses false (l.regs - args.length) free args) ++
      .call args.length :: transfer dst (l.regs - args.length)
termination_by structural x => x

def argUses (l : Layout) (waiting : Bool) (dst free : Nat) : List Expr → List Use
  | [] => []
  | a :: rest => l.valueUses dst (if waiting then dst + 1 else free) a ++
      l.argUses waiting (dst + 1) free rest
termination_by structural x => x

end

def operandUses (l : Layout) (free : Nat) (x : Expr) : List Use :=
  if isIdent x then [] else l.valueUses free (free + 1) x

def stagingUses (l : Layout) (free : Nat) (args : List Expr) : List Use :=
  if args.any makesCall then l.argUses true free free args ++
    transferAll (l.regs - args.length) free args.length
  else l.argUses false (l.regs - args.length) free args

def testUses (l : Layout) : Expr → List Use
  | .op _ _ op _ left right =>
    l.operandUses l.locals left ++ l.operandUses (l.locals + 1) right ++
      .cmp (l.place l.locals left) (l.place (l.locals + 1) right) ::
        List.replicate ((jumps? op).getD []).length .jump ++ [.jump]
  | _ => []

mutual

def stmtUses (l : Layout) : Stmt → List Use
  | .var v =>
    if v.init.isMissing then [.set (l.slot v.name)]
    else l.valueUses (l.slot v.name) l.locals v.init
  | .assign _ name _ x => l.valueUses (l.slot name) l.locals x
  | .ret _ x => (if x.isMissing then [.set 0] else l.valueUses 0 l.locals x) ++ [.ret 0]
  | .expr _ (.call _ _ _ _ args) => l.stagingUses l.locals args ++ [.call args.length]
  | .expr .. | .other .. => []
  | .cond _ test body none => l.testUses test ++ l.blockUses body ++ [.jump]
  | .cond _ test body (some more) =>
    l.testUses test ++ l.blockUses body ++ [.jump] ++ l.blockUses more
termination_by structural x => x

def blockUses (l : Layout) : List Stmt → List Use
  | [] => []
  | x :: rest => l.stmtUses x ++ l.blockUses rest
termination_by structural x => x

end

def uses (l : Layout) : List Use :=
  .enter l.regs l.args :: (l.blockUses l.function.body ++
    if l.function.body.getLast?.any isReturn then [] else [.ret 0])

variable (l : Layout)

theorem valueUses_operation (dst free : Nat) (pos : Pos) (ty : Option Ty) (op : Op)
    (left right : Expr) : l.valueUses dst free (.op pos ty op true left right) =
      l.operandUses free left ++ l.operandUses (free + 1) right ++
        [Use.math dst (l.place free left) (l.place (free + 1) right)] := rfl

theorem valueUses_negation (dst free : Nat) (pos : Pos) (ty : Option Ty) (op : Op)
    (left right : Expr) : l.valueUses dst free (.op pos ty op false left right) =
      .set free :: l.operandUses (free + 1) right ++
        [Use.math dst free (l.place (free + 1) right)] := rfl

theorem valueUses_call (dst free : Nat) (pos : Pos) (ty : Option Ty) (name : String)
    (nt : Option Ty) (args : List Expr) : l.valueUses dst free (.call pos ty name nt args) =
      l.stagingUses free args ++ .call args.length :: transfer dst (l.regs - args.length) := rfl

theorem valueUses_literal (dst free : Nat) {t : RegType} {x : Expr} {bits : UInt64}
    (h : literalBits? t x = some bits) : l.valueUses dst free x = [.set dst] := by
  cases x <;> first | rfl | cases h

theorem stmtUses_cond (pos : Pos) (test : Expr) (body : Block) (more : Option Block) :
    l.stmtUses (.cond pos test body more) =
      l.testUses test ++ l.blockUses body ++ [Use.jump] ++ l.blockUses (elseStmts more) := by
  cases more with
  | none => exact (List.append_nil _).symm
  | some more => rfl

end Layout

/-- The register of a variable is its place. -/
theorem Layout.Sound.toNat_reg {l : Layout} (h : l.Sound) {name : String} {v : Variable}
    (hv : l.var? name = some v) : v.reg.toNat = l.slot name := by
  obtain ⟨before, after, hvars, hnot⟩ := List.lookup_eq_some_iff.mp hv
  have hi : l.vars[before.length]? = some (name, v) := by simp [hvars]
  have hslot : l.slot name = before.length := by
    have hbefore : (before.findIdx fun p => decide (p.1 = name)) = before.length := by
      refine List.findIdx_eq_length_of_false fun p hp => ?_
      have hne : name ≠ p.1 := by simpa using hnot p hp
      exact decide_eq_false hne.symm
    rw [Layout.slot, hvars, List.findIdx_append, hbefore, if_neg (Nat.lt_irrefl _),
      List.findIdx_cons]
    simp
  have hlt : before.length < l.locals := by
    rw [h.locals]
    exact (List.getElem?_eq_some_iff.mp hi).1
  have hsizes := h.sizes
  rw [(h.slot _ _ _ hi).1, hslot, toNat_toUInt16 (by omega)]

theorem Layout.Sound.slot_lt {l : Layout} (h : l.Sound) {name : String} {v : Variable}
    (hv : l.var? name = some v) : l.slot name < l.locals :=
  h.toNat_reg hv ▸ h.reg_lt hv

/-- What a task needs of the window: room for temporaries from `free` on, and for the arguments of
calls. -/
def Task.HasRoom (l : Layout) : Task → Prop
  | .value _ _ free x => l.locals ≤ free.toNat ∧
      free.toNat + temporaries x ≤ l.locals + l.temps ∧ widestCall x ≤ l.staging
  | .operand _ free x _ => l.locals ≤ free.toNat ∧
      free.toNat + operandTemporaries x ≤ l.locals + l.temps ∧ widestCall x ≤ l.staging
  | .args waiting dst free _ xs => l.Seats waiting dst free xs

def Task.uses (l : Layout) : Task → List Use
  | .value _ dst free x => l.valueUses dst.toNat free.toNat x
  | .operand _ free x _ => l.operandUses free.toNat x
  | .args waiting dst free _ xs => l.argUses waiting dst.toNat free.toNat xs

section
variable {l : Layout} {want w : Option Ty} {dst free r q : Reg} {pos : Pos} {ty : Option Ty}
  {op : Op} {left right x : Expr} {name : String} {nt : Option Ty} {args : List Expr}

theorem Task.HasRoom.negation (hl : l.Sound)
    (h : (Task.value want dst free (.op pos ty op false left right)).HasRoom l) :
    (Task.operand w (free + 1) right r).HasRoom l ∧ (free + 1).toNat = free.toNat + 1 ∧
      free.toNat < l.locals + l.temps := by
  obtain ⟨hfree, htemps, hwidest⟩ := h
  have htemps : free.toNat + (1 + operandTemporaries right) ≤ l.locals + l.temps := htemps
  have hwidest : max (widestCall left) (widestCall right) ≤ l.staging := hwidest
  have hsizes := hl.sizes
  have hone : (free + 1).toNat = free.toNat + 1 := toNat_add_one (by omega)
  exact ⟨⟨by omega, by omega, by omega⟩, hone, by omega⟩

theorem Task.HasRoom.operation (hl : l.Sound)
    (h : (Task.value want dst free (.op pos ty op true left right)).HasRoom l) :
    (Task.operand w free left r).HasRoom l ∧ (Task.operand w (free + 1) right q).HasRoom l ∧
      (free + 1).toNat = free.toNat + 1 := by
  obtain ⟨hfree, htemps, hwidest⟩ := h
  have htemps : free.toNat + max (operandTemporaries left) (1 + operandTemporaries right) ≤
    l.locals + l.temps := htemps
  have hwidest : max (widestCall left) (widestCall right) ≤ l.staging := hwidest
  have hsizes := hl.sizes
  have hone : (free + 1).toNat = free.toNat + 1 := toNat_add_one (by omega)
  exact ⟨⟨hfree, by omega, by omega⟩, ⟨by omega, by omega, by omega⟩, hone⟩

theorem Task.HasRoom.operandValue (hl : l.Sound) (hx : isIdent x = false)
    (h : (Task.operand want free x r).HasRoom l) :
    (Task.value w free (free + 1) x).HasRoom l ∧ (free + 1).toNat = free.toNat + 1 ∧
      free.toNat < l.locals + l.temps := by
  obtain ⟨hfree, htemps, hwidest⟩ := h
  rw [operandTemporaries, hx] at htemps
  simp only [Bool.false_eq_true, if_false] at htemps
  have hsizes := hl.sizes
  have hone : (free + 1).toNat = free.toNat + 1 := toNat_add_one (by omega)
  exact ⟨⟨by omega, by omega, hwidest⟩, hone, by omega⟩

theorem Task.HasRoom.head (hl : l.Sound) {waiting : Bool} {types : List (Option Ty)} {a : Expr}
    {rest : List Expr} (h : (Task.args waiting dst free types (a :: rest)).HasRoom l) :
    (Task.value want dst (if waiting then dst + 1 else free) a).HasRoom l := by
  have hseats : l.Seats waiting dst free (a :: rest) := h
  obtain ⟨hfree, htemps⟩ := hseats.head hl
  exact ⟨hfree, htemps, hseats.staging a List.mem_cons_self⟩

/-- The arguments of a call fit below the end of the window. -/
theorem Task.HasRoom.length_le (h : (Task.value want dst free (.call pos ty name nt args)).HasRoom l) :
    args.length ≤ l.staging :=
  Nat.le_trans (le_widestArg args.length args).1 h.2.2

theorem Task.HasRoom.direct (hl : l.Sound) {types : List (Option Ty)}
    (hcall : args.any makesCall = false)
    (h : (Task.value want dst free (.call pos ty name nt args)).HasRoom l) :
    (Task.args false (l.base args.length) free types args).HasRoom l :=
  hl.seats_direct hcall h.1 h.2.1 h.2.2

theorem Task.HasRoom.waiting (types : List (Option Ty)) (hcall : args.any makesCall = true)
    (h : (Task.value want dst free (.call pos ty name nt args)).HasRoom l) :
    (Task.args true free free types args).HasRoom l ∧
      free.toNat + args.length ≤ l.locals + l.temps := by
  have hseats := Layout.seats_waiting hcall h.1 h.2.1 h.2.2
  exact ⟨hseats, hseats.length_le (Nat.le_trans (Nat.le_add_right _ _) h.2.1)⟩

end

section
variable {s : Scope} (hs : s.current.Sound)

abbrev Perform (layouts : List Layout) : List Instr → List Use → Prop :=
  List.Forall₂ (Performs layouts)

theorem perform_moveTo (layouts : List Layout) (dst src : Reg) :
    Perform layouts (moveTo dst src) (transfer dst.toNat src.toNat) := by
  unfold moveTo transfer
  by_cases h : src = dst
  · rw [if_neg (not_not.mpr h), if_neg (not_not.mpr (congrArg UInt16.toNat h))]
    exact .nil
  · rw [if_pos h, if_pos fun heq => h (UInt16.toNat_inj.mp heq)]
    exact .cons (.mov dst src) .nil

theorem perform_moves (layouts : List Layout) (target source : Reg) (n : Nat)
    (htarget : target.toNat + n ≤ maxRegs) (hsource : source.toNat + n ≤ maxRegs) :
    Perform layouts (moves target source n) (transferAll target.toNat source.toNat n) := by
  unfold moves transferAll Perform
  rw [List.forall₂_map_left_iff, List.forall₂_map_right_iff, List.forall₂_same]
  intro i hi
  rw [List.mem_range] at hi
  have h : Performs layouts _ _ := .mov (target + i.toUInt16) (source + i.toUInt16)
  rwa [toNat_add_toUInt16 (by omega), toNat_add_toUInt16 (by omega)] at h

theorem callee?_mem {name : String} {callee : Layout} (h : s.callee? name = some callee) :
    callee ∈ s.layouts := List.mem_of_find?_eq_some h

include hs

/-- The register of an operand. -/
theorem Lowers.toNat_operand {want : Option Ty} {free r : Reg} {x : Expr} {code : List Instr}
    (h : Lowers s (.operand want free x r) code) : r.toNat = s.current.place free.toNat x := by
  cases h with
  | operandIdent hv => exact hs.toNat_reg hv
  | operandValue hx =>
    cases x with
    | ident => cases hx
    | _ => rfl

/-- The code of every task performs the uses of it. -/
theorem Lowers.performs {task : Task} {code : List Instr} (h : Lowers s task code)
    (hspace : task.HasRoom s.current) : Perform s.layouts code (task.uses s.current) := by
  induction h with
  | @ident want dst free pos ty name v hv =>
    have h := perform_moveTo s.layouts dst v.reg
    rwa [hs.toNat_reg hv] at h
  | literal _ hbits =>
    rw [Task.uses, Layout.valueUses_literal _ _ _ hbits]
    exact .cons (.set _ _ _) .nil
  | @negation want dst free pos ty op left right t r code _ hr ih =>
    obtain ⟨hright, hone, -⟩ := hspace.negation hs (r := r)
    have hplace := hr.toNat_operand hs
    have hcode := ih hright
    rw [Task.uses, hone] at hcode
    rw [hone] at hplace
    rw [Task.uses, Layout.valueUses_negation, ← hplace]
    exact List.rel_append (.cons (.set _ _ _) hcode) (.cons (.math _ _ _ _ _) .nil)
  | @operation want dst free pos ty op left right t m a b codeA codeB _ _ ha hb iha ihb =>
    obtain ⟨hleft, hright, hone⟩ := hspace.operation hs (r := a) (q := b)
    have hplaceA := ha.toNat_operand hs
    have hplaceB := hb.toNat_operand hs
    have hcodeA := iha hleft
    have hcodeB := ihb hright
    rw [Task.uses, hone] at hcodeB
    rw [hone] at hplaceB
    rw [Task.uses, Layout.valueUses_operation, ← hplaceA, ← hplaceB]
    exact List.rel_append (List.rel_append hcodeA hcodeB) (.cons (.math _ _ _ _ _) .nil)
  | @call want dst free pos ty name nt args callee code hcallee hlen hcall _ ih =>
    have hbase := hs.toNat_base args.length
    have hcode := ih (hspace.direct hs hcall)
    have hmove := perform_moveTo s.layouts dst (s.current.base args.length)
    have huse : Performs s.layouts (.call callee.index.toUInt32) (.call args.length) :=
      hlen ▸ .call (callee?_mem hcallee)
    rw [Task.uses, hbase] at hcode
    rw [hbase] at hmove
    rw [Task.uses, Layout.valueUses, hcall]
    exact List.rel_append hcode (.cons huse hmove)
  | @callWaiting want dst free pos ty name nt args callee code hcallee hlen hcall _ ih =>
    have hbase := hs.toNat_base args.length
    have hsizes := hs.sizes
    have hstaging := hspace.length_le
    obtain ⟨hargs, hcount⟩ := hspace.waiting (callee.function.params.map Var.type) hcall
    have hcode := ih hargs
    have hmoves := perform_moves s.layouts (s.current.base args.length) free args.length (by omega)
      (by omega)
    have hmove := perform_moveTo s.layouts dst (s.current.base args.length)
    have huse : Performs s.layouts (.call callee.index.toUInt32) (.call args.length) :=
      hlen ▸ .call (callee?_mem hcallee)
    rw [hbase] at hmoves hmove
    rw [Task.uses, Layout.valueUses, hcall]
    exact List.rel_append (List.rel_append hcode hmoves) (.cons huse hmove)
  | operandIdent => exact .nil
  | operandValue hx _ ih =>
    obtain ⟨hvalue, hone, -⟩ := hspace.operandValue hs hx
    have hcode := ih hvalue
    rw [Task.uses, hone] at hcode
    rw [Task.uses, Layout.operandUses, hx]
    exact hcode
  | nil => exact .nil
  | @cons waiting dst free types a rest code code' _ _ ih ih' =>
    have hseats : s.current.Seats waiting dst free (a :: rest) := hspace
    obtain ⟨-, -, hone⟩ := hseats.toNat_next hs
    have hcode := ih (hspace.head hs)
    have hcode' := ih' (hseats.tail hs)
    rw [Task.uses, hone] at hcode'
    rw [Task.uses] at hcode
    rw [Task.uses, Layout.argUses]
    refine List.rel_append ?_ hcode'
    cases waiting with
    | true => simpa [hone] using hcode
    | false => exact hcode

end

def Item.instr? : Item → Option Instr
  | .instr x => some x
  | .label _ => none

def instrsOf (items : List Item) : List Instr := items.filterMap Item.instr?

@[simp] theorem instrsOf_append (a b : List Item) : instrsOf (a ++ b) = instrsOf a ++ instrsOf b :=
  List.filterMap_append

@[simp] theorem instrsOf_instr (x : Instr) (rest : List Item) :
    instrsOf (.instr x :: rest) = x :: instrsOf rest := rfl

@[simp] theorem instrsOf_label (l : Nat) (rest : List Item) :
    instrsOf (.label l :: rest) = instrsOf rest := rfl

@[simp] theorem instrsOf_nil : instrsOf [] = [] := rfl

@[simp] theorem instrsOf_code (code : List Instr) : instrsOf (code.map .instr) = code := by
  induction code with
  | nil => rfl
  | cons x code ih => rw [List.map_cons, instrsOf_instr, ih]

def Layout.pieceUses (l : Layout) : Piece → List Use
  | .one x => l.stmtUses x
  | .all xs => l.blockUses xs

theorem perform_jumps (layouts : List Layout) (js : List Opcode) (label : UInt32) :
    Perform layouts (js.map (.jump · label)) (List.replicate js.length .jump) := by
  induction js with
  | nil => exact .nil
  | cons j js ih => exact .cons (.jump j label) ih

section
variable {s : Scope} (hs : s.current.Sound)
include hs

theorem Layout.Room.hasRoom {x : Expr} (h : s.current.Room x) (want : Option Ty) (dst : Reg) :
    (Task.value want dst s.current.free x).HasRoom s.current := by
  rw [Task.HasRoom, hs.toNat_free]
  exact ⟨Nat.le_refl _, Nat.add_le_add_left h.1 _, h.2⟩

/-- A value of a statement, with all temporaries at its disposal. -/
theorem Lowers.performs_value {want : Option Ty} {dst : Reg} {x : Expr} {code : List Instr}
    (h : Lowers s (.value want dst s.current.free x) code) (hroom : s.current.Room x) :
    Perform s.layouts code (s.current.valueUses dst.toNat s.current.locals x) := by
  have hcode := h.performs hs (hroom.hasRoom hs want dst)
  rwa [Task.uses, hs.toNat_free] at hcode

theorem LowersTest.performs {first : Nat} {test : Expr} {code : List Instr}
    (h : LowersTest s first test code) (hroom : s.current.Room test) (hpair : test.IsPair) :
    Perform s.layouts code (s.current.testUses test) := by
  obtain ⟨hcomparison, ht, hjumps, ha, hb⟩ := h
  cases test with
  | op pos ty op binary left right =>
    obtain rfl : binary = true := hpair
    cases hcomparison
    have hspace := hroom.hasRoom hs none 0
    obtain ⟨hleft, hright, hone⟩ := hspace.operation hs
    have hcodeA := ha.performs hs hleft
    have hcodeB := hb.performs hs hright
    have hplaceA := ha.toNat_operand hs
    have hplaceB := hb.toNat_operand hs
    rw [hs.toNat_free] at hone
    rw [Task.uses, hs.toNat_free] at hcodeA
    rw [Task.uses, hone] at hcodeB
    rw [hs.toNat_free] at hplaceA
    rw [hone] at hplaceB
    rw [Layout.testUses, hjumps, ← hplaceA, ← hplaceB]
    exact List.rel_append (List.rel_append (List.rel_append hcodeA hcodeB)
      (.cons (.cmp _ _ _) (perform_jumps _ _ _))) (.cons (.jump _ _) .nil)
  | _ => exact hpair.elim

theorem LowersStmt.performs {p : Piece} {n n' : Nat} {items : List Item}
    (h : LowersStmt s p n items n') (hp : Planned s.current p) (hw : Whole p) :
    Perform s.layouts (instrsOf items) (s.current.pieceUses p) := by
  induction h with
  | @declare n v hmissing =>
    cases hp with
    | var hv =>
      have huse : Performs s.layouts _ _ := .set ((s.current.var? v.name).getD {}).type
        ((s.current.var? v.name).getD {}).reg 0
      rw [hv, Option.getD_some, hs.toNat_reg hv] at huse
      rw [Layout.pieceUses, Layout.stmtUses, if_pos hmissing, hv]
      exact .cons huse .nil
  | @init n v code hmissing hcode =>
    cases hp with
    | var hv _ hroom =>
      rw [hv] at hcode
      have hcode := hcode.performs_value hs hroom
      rw [Option.getD_some, hs.toNat_reg hv] at hcode
      rw [Layout.pieceUses, Layout.stmtUses, hmissing, instrsOf_code]
      exact hcode
  | assign hv hcode =>
    cases hp with
    | assign hroom =>
      have hcode := hcode.performs_value hs hroom
      rw [hs.toNat_reg hv] at hcode
      rw [instrsOf_code]
      exact hcode
  | retNothing hmissing =>
    rw [Layout.pieceUses, Layout.stmtUses, if_pos hmissing]
    exact .cons (.set _ _ _) (.cons (.ret 0) .nil)
  | ret hmissing hcode =>
    cases hp with
    | ret hroom =>
      rw [Layout.pieceUses, Layout.stmtUses, hmissing, instrsOf_append, instrsOf_code]
      exact List.rel_append (hcode.performs_value hs hroom) (.cons (.ret 0) .nil)
  | @call n at' pos ty name nt args code hcode =>
    cases hp with
    | expr hroom =>
      have hcode := hcode.performs_value hs hroom
      rw [Layout.valueUses_call, hs.toNat_base, transfer, if_neg (not_not.mpr rfl)] at hcode
      rw [instrsOf_code]
      exact hcode
  | cond htest _ _ ihbody ihmore =>
    cases hp with
    | cond hroom hbody hmore =>
      cases hw with
      | cond hpair _ hwbody hwmore =>
        have htest := htest.performs hs hroom hpair
        have hbody := ihbody hbody hwbody
        have hmore := ihmore hmore hwmore
        rw [Layout.pieceUses, Layout.stmtUses_cond]
        simp only [instrsOf_append, instrsOf_code, instrsOf_label, instrsOf_instr, instrsOf_nil,
          List.append_assoc, List.cons_append, List.nil_append, List.append_nil]
        exact List.rel_append htest (List.rel_append hbody (.cons (.jump _ _) hmore))
  | nil => exact .nil
  | cons _ _ ih ih' =>
    cases hp with
    | cons hx hrest =>
      cases hw with
      | cons hwx hwrest =>
        rw [instrsOf_append]
        exact List.rel_append (ih hx hwx) (ih' hrest hwrest)

/-- The code of a function performs the uses of it. -/
theorem LowersFunction.performs {items : List Item} (h : LowersFunction s items)
    (hw : Whole (.all s.current.function.body)) :
    Perform s.layouts (instrsOf items) s.current.uses := by
  obtain ⟨body, hbody, rfl⟩ := h
  have hsizes := hs.sizes
  have hargs := hs.args
  have hprologue : Performs s.layouts s.current.prologue (.enter s.current.regs s.current.args) := by
    have huse : Performs s.layouts _ _ :=
      .enter s.current.regs.toUInt16 s.current.args.toUInt16
    rwa [toNat_toUInt16 (by omega), toNat_toUInt16 (by omega)] at huse
  rw [instrsOf_instr, instrsOf_append, Layout.uses]
  refine .cons hprologue (List.rel_append (hbody.performs hs hs.body hw) ?_)
  by_cases hreturn : s.current.function.body.getLast?.any isReturn = true
  · rw [if_pos hreturn, if_pos hreturn]
    exact .nil
  · rw [if_neg hreturn, if_neg hreturn]
    exact .cons (.ret 0) .nil

end

end RegisterLang.Lowering
