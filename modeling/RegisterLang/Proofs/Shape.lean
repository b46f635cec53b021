import RegisterLang.Proofs.Codec
import RegisterLang.Proofs.Confinement

/-!
# The shape of an image

The code of an image is that of its functions, one after the other. Each begins with its prologue at
the offset of its table entry, and ends with a `ret`. Its labels are offsets of its own instructions,
its jumps go forward to its own labels, and its calls name functions of the image and have put as many
arguments at the end of the window as these take.
-/
namespace RegisterLang

namespace Instr

def listing (pc : Nat) : List Instr → List (Nat × Instr × Nat)
  | [] => []
  | x :: rest => (pc, x.cut, pc + x.bytes.length) :: listing (pc + x.bytes.length) rest

theorem listing_append (pc : Nat) (a b : List Instr) :
    listing pc (a ++ b) = listing pc a ++ listing (pc + (a.flatMap bytes).length) b := by
  induction a generalizing pc with
  | nil => rfl
  | cons x a ih =>
    rw [List.cons_append, listing, ih, listing, List.flatMap_cons, List.length_append, Nat.add_assoc,
      List.cons_append]

theorem map_listing (pc : Nat) (xs : List Instr) :
    (listing pc xs).map (·.2.1) = xs.map cut := by
  induction xs generalizing pc with
  | nil => rfl
  | cons x xs ih => rw [listing, List.map_cons, ih, List.map_cons]

theorem listing_bounds {pc : Nat} {xs : List Instr} {e : Nat × Instr × Nat}
    (h : e ∈ listing pc xs) :
    pc ≤ e.1 ∧ e.1 < e.2.2 ∧ e.2.2 ≤ pc + (xs.flatMap bytes).length := by
  induction xs generalizing pc with
  | nil => cases h
  | cons x xs ih =>
    have hpos := List.length_pos_of_ne_nil x.bytes_ne_nil
    rw [List.flatMap_cons, List.length_append]
    rcases List.mem_cons.mp h with rfl | h
    · dsimp only
      omega
    · have hrest := ih h
      omega

/-- Reading to the end of an image gives the instructions that were written. -/
theorem decodeFrom_listing {image : Image} {pc : Nat} {x : Instr} {xs : List Instr}
    (hxs : ∀ y ∈ x :: xs, y.WellFormed) (h : image.Holds pc ((x :: xs).flatMap bytes))
    (hsize : image.size = pc + ((x :: xs).flatMap bytes).length) (acc : Array (Nat × Instr × Nat)) :
    decodeFrom image acc pc = (acc ++ (listing pc (x :: xs)).toArray, none) := by
  induction xs generalizing pc x acc with
  | nil =>
    have hx := decodeAt_of_holds (hxs x List.mem_cons_self) (by simpa using h)
    rw [decodeFrom]
    split
    next e he => rw [hx] at he; cases he
    next y next he =>
      rw [hx] at he
      cases he
      rw [if_neg (by rw [hsize]; simp)]
      simp [listing]
  | cons y ys ih =>
    rw [List.flatMap_cons, Image.holds_append] at h
    have hpos := List.length_pos_of_ne_nil y.bytes_ne_nil
    have hx := decodeAt_of_holds (hxs x List.mem_cons_self) h.1
    have hsize' : image.size =
        pc + x.bytes.length + ((y :: ys).flatMap bytes).length := by
      rw [hsize, List.flatMap_cons, List.length_append, Nat.add_assoc]
    have hlt : pc + x.bytes.length < image.size := by
      rw [hsize', List.flatMap_cons, List.length_append]
      omega
    rw [decodeFrom]
    split
    next e he => rw [hx] at he; cases he
    next z next he =>
      rw [hx] at he
      cases he
      rw [if_pos hlt, ih (fun z hz => hxs z (List.mem_cons_of_mem _ hz)) h.2 hsize']
      simp [listing]

theorem eq_of_cut_eq {x y : Instr} (h : x.cut = y) (hy : ∀ t dst imm, y ≠ .set t dst imm) : x = y := by
  cases x with
  | set t dst imm => exact absurd h.symm (hy _ _ _)
  | _ => exact h

end Instr

namespace Lowering

def Straight : Instr → Prop
  | .set .. | .mov .. | .math .. | .call _ => True
  | _ => False

theorem straight_moveTo (dst src : Reg) : ∀ x ∈ moveTo dst src, Straight x := by
  intro x hx
  unfold moveTo at hx
  split at hx
  · rw [List.mem_singleton.mp hx]
    trivial
  · cases hx

theorem straight_moves (target source : Reg) (n : Nat) :
    ∀ x ∈ moves target source n, Straight x := by
  intro x hx
  obtain ⟨i, -, rfl⟩ := List.mem_map.mp hx
  trivial

/-- The code of an expression is straight. -/
theorem Lowers.straight {s : Scope} {task : Task} {code : List Instr} (h : Lowers s task code) :
    ∀ x ∈ code, Straight x := by
  induction h with
  | ident => exact straight_moveTo _ _
  | literal => simp [Straight]
  | negation _ _ ih =>
    simp only [List.cons_append, List.forall_mem_cons, List.forall_mem_append, List.not_mem_nil]
    exact ⟨trivial, ih, trivial, fun _ hx => hx.elim⟩
  | operation _ _ _ _ iha ihb =>
    simp only [List.forall_mem_cons, List.forall_mem_append, List.not_mem_nil]
    exact ⟨⟨iha, ihb⟩, trivial, fun _ hx => hx.elim⟩
  | call _ _ _ _ ih =>
    simp only [List.forall_mem_cons, List.forall_mem_append]
    exact ⟨ih, trivial, straight_moveTo _ _⟩
  | callWaiting _ _ _ _ ih =>
    simp only [List.forall_mem_cons, List.forall_mem_append]
    exact ⟨⟨ih, straight_moves _ _ _⟩, trivial, straight_moveTo _ _⟩
  | operandIdent | nil =>
    intro x hx
    cases hx
  | operandValue _ _ ih => exact ih
  | cons _ _ ih ih' =>
    simp only [List.forall_mem_append]
    exact ⟨ih, ih'⟩

/-- Items that open no function, and whose jumps go to labels among what follows. -/
def Forward : List Item → Prop
  | [] => True
  | item :: rest => (∀ regs args, item ≠ .instr (.func regs args)) ∧
      (∀ op l, item = .instr (.jump op l) → ∃ m ∈ labelsOf rest, l = m.toUInt32) ∧ Forward rest

theorem Forward.append {a b : List Item} (ha : Forward a) (hb : Forward b) : Forward (a ++ b) := by
  induction a with
  | nil => exact hb
  | cons item a ih =>
    obtain ⟨hfunc, hjump, hrest⟩ := ha
    refine ⟨hfunc, fun op l hl => ?_, ih hrest⟩
    obtain ⟨m, hm, rfl⟩ := hjump op l hl
    exact ⟨m, by simp [hm], rfl⟩

theorem Forward.label {l : Nat} {rest : List Item} (h : Forward rest) : Forward (.label l :: rest) :=
  ⟨nofun, nofun, h⟩

theorem Forward.jump (op : Opcode) {m : Nat} {rest : List Item} (h : Forward rest)
    (hm : m ∈ labelsOf rest) : Forward (.instr (.jump op m.toUInt32) :: rest) := by
  refine ⟨nofun, fun op' l hl => ?_, h⟩
  cases hl
  exact ⟨m, hm, rfl⟩

theorem Forward.straight {code : List Instr} {rest : List Item} (hcode : ∀ x ∈ code, Straight x)
    (h : Forward rest) : Forward (code.map .instr ++ rest) := by
  induction code with
  | nil => exact h
  | cons x code ih =>
    rw [List.forall_mem_cons] at hcode
    refine ⟨fun regs args hx => ?_, fun op l hx => ?_, ih hcode.2⟩
    · cases hx
      exact hcode.1.elim
    · cases hx
      exact hcode.1.elim

theorem forward_code {code : List Instr} (hcode : ∀ x ∈ code, Straight x) :
    Forward (code.map .instr) := by
  have h : Forward (code.map .instr ++ []) := .straight hcode trivial
  rwa [List.append_nil] at h

theorem LowersTest.forward {s : Scope} {first : Nat} {test : Expr} {code : List Instr}
    (h : LowersTest s first test code) {rest : List Item} (hrest : Forward rest)
    (hfirst : first ∈ labelsOf rest) (hnext : first + 1 ∈ labelsOf rest) :
    Forward (code.map .instr ++ rest) := by
  obtain @⟨_, _, _, t, js, a, b, codeA, codeB, -, -, -, ha, hb⟩ := h
  have hjumps : Forward ((js.map (Instr.jump · first.toUInt32)).map .instr ++
      .instr (.jump .jmp (first + 1).toUInt32) :: rest) := by
    induction js with
    | nil => exact hrest.jump _ hnext
    | cons j js ih => exact ih.jump _ (by simp [hfirst])
  have hcmp : Forward (.instr (.cmp t a b) :: ((js.map (Instr.jump · first.toUInt32)).map .instr ++
      .instr (.jump .jmp (first + 1).toUInt32) :: rest)) := ⟨nofun, nofun, hjumps⟩
  have h := Forward.straight ha.straight (Forward.straight hb.straight hcmp)
  simpa using h

/-- The jumps of statements go forward. -/
theorem LowersStmt.forward {s : Scope} {p : Piece} {n n' : Nat} {items : List Item}
    (h : LowersStmt s p n items n') : Forward items := by
  induction h with
  | declare => exact ⟨nofun, nofun, trivial⟩
  | retNothing => exact ⟨nofun, nofun, nofun, nofun, trivial⟩
  | init _ hcode | assign _ hcode | call hcode => exact forward_code hcode.straight
  | ret _ hcode => exact Forward.straight hcode.straight ⟨nofun, nofun, trivial⟩
  | @cond n n₁ n₂ pos test body more code items items' htest _ _ ihbody ihmore =>
    have hlast : Forward (items' ++ [Item.label (n + 2)]) := ihmore.append (Forward.label trivial)
    have hmiddle := (hlast.label (l := n + 1)).jump .jmp (m := n + 2) (by simp)
    have h := htest.forward ((ihbody.append hmiddle).label (l := n)) (by simp) (by simp)
    simpa using h
  | nil => trivial
  | cons _ _ ih ih' => exact ih.append ih'

def endsWithReturn : Piece → Bool
  | .one x => isReturn x
  | .all xs => xs.getLast?.any isReturn

/-- Statements that end with a `return` end with a `ret`. -/
theorem LowersStmt.ends {s : Scope} {p : Piece} {n n' : Nat} {items : List Item}
    (h : LowersStmt s p n items n') (hp : endsWithReturn p = true) :
    ∃ init, items = init ++ [Item.instr (.ret 0)] := by
  induction h with
  | declare | init | assign | call | cond | nil => cases hp
  | retNothing => exact ⟨[Item.instr (.set .s32 0 0)], rfl⟩
  | ret => exact ⟨_, rfl⟩
  | @cons n n₁ n₂ x rest items items' hx hrest ihx ihrest =>
    cases rest with
    | nil =>
      cases hrest
      obtain ⟨init, rfl⟩ := ihx (by simpa [endsWithReturn] using hp)
      exact ⟨init, List.append_nil _⟩
    | cons y ys =>
      obtain ⟨init, rfl⟩ := ihrest (by simpa [endsWithReturn] using hp)
      exact ⟨items ++ init, (List.append_assoc _ _ _).symm⟩

/-- The items of a function: a prologue, and what goes forward from it to a `ret`. -/
theorem LowersFunction.forward {s : Scope} {items : List Item} (h : LowersFunction s items) :
    ∃ init, items = .instr s.current.prologue :: (init ++ [Item.instr (.ret 0)]) ∧
      Forward (init ++ [Item.instr (.ret 0)]) := by
  obtain ⟨body, hbody, rfl⟩ := h
  by_cases hreturn : s.current.function.body.getLast?.any isReturn = true
  · obtain ⟨init, rfl⟩ := hbody.ends hreturn
    rw [if_pos hreturn, List.append_nil]
    exact ⟨init, rfl, hbody.forward⟩
  · rw [if_neg hreturn]
    exact ⟨body, rfl, hbody.forward.append ⟨nofun, nofun, trivial⟩⟩

section
variable {L : Nat → Nat} {pc : Nat} {items : List Item}

theorem Marked.le (h : Marked L pc items) {m : Nat} (hm : m ∈ labelsOf items) : pc ≤ L m := by
  induction items generalizing pc with
  | nil => cases hm
  | cons item rest ih =>
    cases item with
    | instr x =>
      have hrest := ih (show Marked L (pc + x.bytes.length) rest from h) hm
      omega
    | label l =>
      obtain ⟨hl, hrest⟩ := h
      rcases List.mem_cons.mp hm with rfl | hm
      · exact Nat.le_of_eq hl.symm
      · exact ih hrest hm

/-- Where an instruction comes last, every label has the offset of an instruction. -/
theorem Marked.listed {init : List Item} {x : Instr} (h : Marked L pc (init ++ [Item.instr x])) {m : Nat}
    (hm : m ∈ labelsOf (init ++ [Item.instr x])) :
    ∃ y next, (L m, y, next) ∈ Instr.listing pc (instrsOf (init ++ [Item.instr x])) := by
  induction init generalizing pc with
  | nil => cases hm
  | cons item init ih =>
    cases item with
    | instr z =>
      have h : Marked L (pc + z.bytes.length) (init ++ [Item.instr x]) := h
      obtain ⟨y, next, hy⟩ := ih h hm
      exact ⟨y, next, List.mem_cons_of_mem _ hy⟩
    | label l =>
      obtain ⟨hl, hrest⟩ := h
      rcases List.mem_cons.mp hm with rfl | hm
      · rw [hl, List.cons_append, instrsOf_label]
        have hne : instrsOf (init ++ [Item.instr x]) ≠ [] := by simp
        obtain ⟨y, ys, hy⟩ := List.exists_cons_of_ne_nil hne
        rw [hy]
        exact ⟨_, _, List.mem_cons_self⟩
      · exact ih hrest hm

/-- A jump goes to a label behind it. -/
theorem Forward.target (hf : Forward items) (h : Marked L pc items) {at' next : Nat} {op : Opcode}
    {l : UInt32} (hl : (at', .jump op l, next) ∈ Instr.listing pc (instrsOf items)) :
    ∃ m ∈ labelsOf items, l = m.toUInt32 ∧ next ≤ L m := by
  induction items generalizing pc with
  | nil => cases hl
  | cons item rest ih =>
    obtain ⟨-, hjump, hrest⟩ := hf
    cases item with
    | instr x =>
      have h : Marked L (pc + x.bytes.length) rest := h
      rcases List.mem_cons.mp hl with heq | hl
      · obtain ⟨rfl, hx, rfl⟩ : at' = pc ∧ x.cut = .jump op l ∧ next = pc + x.bytes.length := by
          simpa [eq_comm] using heq
        obtain rfl := Instr.eq_of_cut_eq hx nofun
        obtain ⟨m, hm, rfl⟩ := hjump op l rfl
        exact ⟨m, hm, rfl, h.le hm⟩
      · exact ih hrest h hl
    | label k =>
      obtain ⟨m, hm, hlabel, hle⟩ := ih hrest h.2 hl
      exact ⟨m, List.mem_cons_of_mem _ hm, hlabel, hle⟩

theorem Forward.ne_func (hf : Forward items) {e : Nat × Instr × Nat}
    (he : e ∈ Instr.listing pc (instrsOf items)) (regs args : UInt16) : e.2.1 ≠ .func regs args := by
  induction items generalizing pc with
  | nil => cases he
  | cons item rest ih =>
    obtain ⟨hfunc, -, hrest⟩ := hf
    cases item with
    | instr x =>
      rcases List.mem_cons.mp he with rfl | he
      · intro hx
        obtain rfl := Instr.eq_of_cut_eq hx nofun
        exact hfunc regs args rfl
      · exact ih hrest he
    | label k => exact ih hrest he

end

/-- The registers from `low` on that were written since the last call or return, and a next
instruction. -/
def stage (low : Nat) (staged : List Nat) : Instr → List Nat
  | .call _ | .ret _ => []
  | .set _ dst _ | .mov dst _ | .math _ _ dst _ _ | .pop _ dst => staged ++ [dst.toNat].filter (low ≤ ·)
  | .func .. | .cmp .. | .jump .. | .push .. => staged

theorem stage_cut (low : Nat) (staged : List Nat) (x : Instr) :
    stage low staged x.cut = stage low staged x := by
  cases x <;> rfl

theorem foldl_stage_cut (low : Nat) (staged : List Nat) (xs : List Instr) :
    (xs.map Instr.cut).foldl (stage low) staged = xs.foldl (stage low) staged := by
  rw [List.foldl_map]
  simp only [stage_cut]

/-- Following the code and following the uses of registers find the same. -/
theorem foldl_stage {layouts : List Layout} {l : Layout} {code : List Instr} {us : List Use}
    (h : Perform layouts code us) (called : Option Nat) (staged : List Nat) :
    code.foldl (stage (l.locals + l.temps)) staged =
      (us.foldl (Scan.next l) ⟨called, staged⟩).staged := by
  induction h generalizing called staged with
  | nil => rfl
  | @cons x u _ _ hx _ ih =>
    have hstep : stage (l.locals + l.temps) staged x = (Scan.next l ⟨called, staged⟩ u).staged := by
      cases hx <;> simp [stage, Scan.next, Use.target?]
    rw [List.foldl_cons, List.foldl_cons, hstep]
    exact ih _ _

theorem Perform.split {layouts : List Layout} {a b : List Instr} {x : Instr} {us : List Use}
    (h : Perform layouts (a ++ x :: b) us) :
    ∃ ua u ub, us = ua ++ u :: ub ∧ Perform layouts a ua ∧ Performs layouts x u := by
  induction a generalizing us with
  | nil =>
    obtain _ | ⟨hx, -⟩ := h
    exact ⟨[], _, _, rfl, .nil, hx⟩
  | cons y a ih =>
    obtain _ | ⟨hy, hrest⟩ := h
    obtain ⟨ua, u, ub, rfl, ha, hx⟩ := ih hrest
    exact ⟨_ :: ua, u, ub, rfl, .cons hy ha, hx⟩

/-- The code of a function in an image with the given tables. It begins with the prologue, at the offset
of its table entry, ends with a `ret`, and has no other prologue. Its labels are offsets of its
instructions after the prologue. It jumps forward, to its own labels. Where it calls a function, the
registers at the end of its window were written, one for each parameter. -/
structure Shaped (t : Header) (layouts : List Layout) (l : Layout)
    (code : List (Nat × Instr × Nat)) : Prop where
  start : ∃ offset regs args next rest, t.functions[l.index]? = some offset ∧
    code = (offset.toNat, .func regs args, next) :: rest ∧ regs.toNat = l.regs ∧ args.toNat = l.args
  stop : ∃ before pc src next, code = before ++ [(pc, .ret src, next)]
  single : ∀ e ∈ code.tail, ∀ regs args, e.2.1 ≠ .func regs args
  label : ∀ m, l.labelBase ≤ m → m < l.labelBase + l.labels →
    ∃ offset x next, t.labels[m]? = some offset ∧ (offset.toNat, x, next) ∈ code.tail
  jump : ∀ pc op m next, (pc, .jump op m, next) ∈ code →
    l.labelBase ≤ m.toNat ∧ m.toNat < l.labelBase + l.labels ∧
      ∃ offset, t.labels[m.toNat]? = some offset ∧ next ≤ offset.toNat
  call : ∀ before pc f next after, code = before ++ (pc, .call f, next) :: after →
    ∃ callee, layouts[f.toNat]? = some callee ∧
      (before.map (·.2.1)).foldl (stage (l.locals + l.temps)) [] =
        List.range' (l.regs - callee.args) callee.args

def listings (pc : Nat) : List (List Item) → List (List (Nat × Instr × Nat))
  | [] => []
  | items :: more => Instr.listing pc (instrsOf items) ::
      listings (pc + (items.flatMap Item.bytes).length) more

theorem flatten_listings (pc : Nat) (all : List (List Item)) :
    (listings pc all).flatten = Instr.listing pc (instrsOf all.flatten) := by
  induction all generalizing pc with
  | nil => rfl
  | cons items more ih =>
    rw [listings, List.flatten_cons, ih, List.flatten_cons, instrsOf_append, Instr.listing_append,
      flatMap_bytes]

/-- A call of a function finds its arguments at the end of the window. -/
theorem LowersFunction.call_staged {file : File} {layouts : List Layout} {l : Layout}
    {items : List Item} (hlayouts : Layouts file layouts) (hcount : layouts.length < 2 ^ 32)
    (hl : l.Sound) (hw : Whole (.all l.function.body)) (h : LowersFunction ⟨layouts, l⟩ items)
    (pc : Nat) (before : List (Nat × Instr × Nat)) (at' : Nat) (f : UInt32) (next : Nat)
    (after : List (Nat × Instr × Nat))
    (hcode : Instr.listing pc (instrsOf items) = before ++ (at', .call f, next) :: after) :
    ∃ callee, layouts[f.toNat]? = some callee ∧
      (before.map (·.2.1)).foldl (stage (l.locals + l.temps)) [] =
        List.range' (l.regs - callee.args) callee.args := by
  have hmap := congrArg (List.map (·.2.1)) hcode
  rw [Instr.map_listing, List.map_append, List.map_cons] at hmap
  obtain ⟨xs, ys, hxs, hbefore, hys⟩ := List.map_eq_append_iff.mp hmap
  obtain ⟨x, zs, rfl, hx, -⟩ := List.map_eq_cons_iff.mp hys
  obtain rfl := Instr.eq_of_cut_eq hx nofun
  have hperform := h.performs hl hw
  rw [hxs] at hperform
  obtain ⟨ua, u, ub, huses, ha, hu⟩ := Perform.split hperform
  cases hu with
  | @call callee hmem =>
    obtain ⟨-, hstaged⟩ := ((h.confined hl hw).allows huses).staged callee.args rfl
    refine ⟨callee, ?_, ?_⟩
    · obtain ⟨i, hi⟩ := List.getElem?_of_mem hmem
      rw [hlayouts.toNat_index hcount hmem, (hlayouts.numbered i callee hi).1, Nat.zero_add, hi]
    · rw [← hbefore, foldl_stage_cut, foldl_stage ha none, hstaged]

theorem LowersFunction.shaped {file : File} {layouts : List Layout} {l : Layout} {t : Header}
    {L : Nat → Nat} {pc : Nat} {items : List Item} (hlayouts : Layouts file layouts)
    (hl : l ∈ layouts) (hw : Whole (.all l.function.body)) (h : LowersFunction ⟨layouts, l⟩ items)
    (hmark : Marked L pc items) (hcount : layouts.length < 2 ^ 32)
    (hlabelCount : Layout.labelCount layouts < 2 ^ 32)
    (hfunction : t.functions[l.index]? = some pc.toUInt32)
    (hlabel : ∀ m, m < Layout.labelCount layouts → t.labels[m]? = some (L m).toUInt32)
    (hend : pc + (items.flatMap Item.bytes).length < 2 ^ 32) :
    Shaped t layouts l (Instr.listing pc (instrsOf items)) := by
  obtain ⟨i, hi⟩ := List.getElem?_of_mem hl
  have hsound : l.Sound := (hlayouts.numbered i l hi).2.2
  have hle := hlayouts.numbered.labels_le hi
  have hmem : ∀ m, m ∈ labelsOf items ↔ l.labelBase ≤ m ∧ m < l.labelBase + l.labels := h.labels.2
  have hcall := h.call_staged hlayouts hcount hsound hw pc
  obtain ⟨init, rfl, hforward⟩ := h.forward
  have hmark : Marked L (pc + l.prologue.bytes.length) (init ++ [Item.instr (.ret 0)]) := hmark
  have hmem : ∀ m, m ∈ labelsOf (init ++ [Item.instr (.ret 0)]) ↔
    l.labelBase ≤ m ∧ m < l.labelBase + l.labels := hmem
  have hend : pc + (l.prologue.bytes ++ (init ++ [Item.instr (.ret 0)]).flatMap Item.bytes).length <
    2 ^ 32 := hend
  rw [List.length_append, flatMap_bytes] at hend
  have hpc : pc.toUInt32.toNat = pc := by
    simpa using (by omega : pc < 2 ^ 32)
  have hlist : Instr.listing pc (instrsOf (.instr l.prologue :: (init ++ [Item.instr (.ret 0)]))) =
      (pc, l.prologue, pc + l.prologue.bytes.length) ::
        Instr.listing (pc + l.prologue.bytes.length) (instrsOf (init ++ [Item.instr (.ret 0)])) := rfl
  -- the offset of a label of the function is that of an instruction, and so fits in its entry
  have hlisted : ∀ m ∈ labelsOf (init ++ [Item.instr (.ret 0)]), (L m).toUInt32.toNat = L m ∧
      ∃ x next, (L m, x, next) ∈ Instr.listing (pc + l.prologue.bytes.length)
        (instrsOf (init ++ [Item.instr (.ret 0)])) := by
    intro m hm
    obtain ⟨x, next, hx⟩ := hmark.listed hm
    have hbounds := Instr.listing_bounds hx
    have hlt : L m < 2 ^ 32 := by
      dsimp only at hbounds
      omega
    exact ⟨by simpa using hlt, x, next, hx⟩
  refine ⟨?_, ?_, ?_, ?_, ?_, hcall⟩
  · have hsizes := hsound.sizes
    have hargs := hsound.args
    exact ⟨pc.toUInt32, l.regs.toUInt16, l.args.toUInt16, _, _, hfunction, by rw [hpc]; exact hlist,
      toNat_toUInt16 (by omega), toNat_toUInt16 (by omega)⟩
  · rw [instrsOf_instr, instrsOf_append, ← List.cons_append, Instr.listing_append]
    exact ⟨_, _, 0, _, rfl⟩
  · rw [hlist]
    exact fun e he => hforward.ne_func he
  · intro m hm hm'
    obtain ⟨htoNat, x, next, hx⟩ := hlisted m ((hmem m).mpr ⟨hm, hm'⟩)
    refine ⟨(L m).toUInt32, x, next, hlabel m (by omega), ?_⟩
    rw [hlist, htoNat]
    exact hx
  · intro at' op m next hjump
    rw [hlist] at hjump
    rcases List.mem_cons.mp hjump with heq | hjump
    · cases heq
    · obtain ⟨k, hk, rfl, hnext⟩ := hforward.target hmark hjump
      obtain ⟨htoNat, -⟩ := hlisted k hk
      have hrange := (hmem k).mp hk
      have hk' : k.toUInt32.toNat = k := by
        simpa using (by omega : k < 2 ^ 32)
      rw [hk']
      exact ⟨hrange.1, hrange.2, (L k).toUInt32, hlabel k (by omega), by rw [htoNat]; exact hnext⟩

theorem InSequence.shaped {file : File} {layouts : List Layout} {F L : Nat → Nat} {t : Header} {pc : Nat}
    {ls : List Layout} {all : List (List Item)} (hlayouts : Layouts file layouts)
    (h : InSequence layouts F L pc ls all)
    (hls : ∀ l ∈ ls, l ∈ layouts ∧ Whole (.all l.function.body))
    (hcount : layouts.length < 2 ^ 32) (hlabelCount : Layout.labelCount layouts < 2 ^ 32)
    (hfunction : ∀ i, i < layouts.length → t.functions[i]? = some (F i).toUInt32)
    (hlabel : ∀ m, m < Layout.labelCount layouts → t.labels[m]? = some (L m).toUInt32)
    (hend : pc + (all.flatten.flatMap Item.bytes).length < 2 ^ 32) :
    List.Forall₂ (Shaped t layouts) ls (listings pc all) := by
  induction h with
  | nil => exact .nil
  | @cons pc l items rest more hF hitems hmark _ ih =>
    rw [List.forall_mem_cons] at hls
    obtain ⟨⟨hl, hw⟩, hls⟩ := hls
    rw [List.flatten_cons, List.flatMap_append, List.length_append] at hend
    have hindex : l.index < layouts.length := by
      obtain ⟨i, hi⟩ := List.getElem?_of_mem hl
      have hilt := (List.getElem?_eq_some_iff.mp hi).1
      have heq := (hlayouts.numbered i l hi).1
      omega
    refine .cons ?_ (ih hls (by omega))
    exact hitems.shaped hlayouts hl hw hmark hcount hlabelCount (hF ▸ hfunction l.index hindex) hlabel
      (by omega)

theorem InSequence.wellFormed {layouts : List Layout} {F L : Nat → Nat} {pc : Nat} {ls : List Layout}
    {all : List (List Item)} (h : InSequence layouts F L pc ls all) (hls : ∀ l ∈ ls, l.Sound) :
    ∀ x ∈ instrsOf all.flatten, x.WellFormed := by
  induction h with
  | nil =>
    intro x hx
    cases hx
  | cons _ hitems _ _ ih =>
    rw [List.forall_mem_cons] at hls
    rw [List.flatten_cons, instrsOf_append, List.forall_mem_append]
    refine ⟨fun x hx => hitems.writable hls.1 x ?_, ih hls.2⟩
    obtain ⟨item, hitem, hx⟩ := List.mem_filterMap.mp hx
    cases item with
    | instr y =>
      cases hx
      exact hitem
    | label m => cases hx

theorem InSequence.instrs_ne_nil {layouts : List Layout} {F L : Nat → Nat} {pc : Nat} {ls : List Layout}
    {all : List (List Item)} (h : InSequence layouts F L pc ls all) (hls : ls ≠ []) :
    instrsOf all.flatten ≠ [] := by
  cases h with
  | nil => exact absurd rfl hls
  | cons _ hitems _ _ =>
    obtain ⟨init, rfl, -⟩ := hitems.forward
    exact List.cons_ne_nil _ _

/-- The shape of an image of fewer than `2 ^ 32` bytes. Its header is read; reading its code goes on to
the very end and gives the instructions of its functions one after the other, where `main` is the
first and the others follow in their order; their labels follow each other and are all there are. -/
theorem generate_shaped {file : File} (hfile : file.IsRead) {ds : Array Diagnostic} {buffer : Int}
    {b : Builder} (h : (generate file ds buffer).result = .ok b) (hsize : b.size < 2 ^ 32) :
    ∃ t layouts codes, Header.read b.image = .ok t ∧ layouts = (generate file ds buffer).layouts ∧
      layouts.map Layout.function = mainFirst file.functions ∧
      (∃ main rest, layouts = main :: rest ∧ main.function.name = mainName) ∧
      (file.functions.map Function.name).Nodup ∧
      t.functions.size = layouts.length ∧ t.labels.size = Layout.labelCount layouts ∧
      (∀ i l, layouts[i]? = some l → l.index = i ∧
        l.labelBase = Layout.labelCount (layouts.take i)) ∧
      Instr.decodeFrom b.image #[] t.code = (codes.flatten.toArray, none) ∧
      List.Forall₂ (Shaped t layouts) layouts codes := by
  obtain ⟨layouts, F, L, all, heq, hlayouts, hrep, hwritten⟩ := generate_written h
  obtain ⟨t, hread, hfunctions, hlabels, hcode, hfunction, hlabel⟩ := hrep.read hsize
  have hcount := hrep.size_eq
  have hls : ∀ l ∈ layouts, l ∈ layouts ∧ Whole (.all l.function.body) := by
    intro l hl
    have hmem := hlayouts.perm.subset (List.mem_map_of_mem hl)
    exact ⟨hl, (hfile.whole _ hmem).body⟩
  have hshaped := hwritten.shaped hlayouts hls (by omega) (by omega) hfunction hlabel (by omega)
  refine ⟨t, layouts, _, hread, heq, hlayouts.order, hlayouts.main, hlayouts.names, hfunctions, hlabels,
    ?_, ?_, hshaped⟩
  · intro i l hi
    obtain ⟨hindex, hbase, -⟩ := hlayouts.numbered i l hi
    exact ⟨by omega, by omega⟩
  · have hwell := hwritten.wellFormed fun l hl => by
      obtain ⟨i, hi⟩ := List.getElem?_of_mem hl
      exact (hlayouts.numbered i l hi).2.2
    have hne : layouts ≠ [] := by
      obtain ⟨main, rest, rfl, -⟩ := hlayouts.main
      exact List.cons_ne_nil _ _
    have hholds := hrep.code_holds
    rw [flatMap_bytes] at hholds hcount
    obtain ⟨x, xs, hxs⟩ := List.exists_cons_of_ne_nil (hwritten.instrs_ne_nil hne)
    rw [hxs] at hwell hholds hcount
    rw [flatten_listings, hcode, hxs, Instr.decodeFrom_listing hwell hholds hcount, Array.empty_append]

def branching : Text.Bytes :=
  "g::(a:u8)->u8{}main::()->u8{if g(1)<2{}return 0;}".toList.map fun c => c.toNat.toUInt8

theorem generate_shaped_branching : ∃ b t layouts codes,
    (generate (Parser.parse "p" branching).file #[] 1).result = .ok b ∧ b.size = 127 ∧
    Header.read b.image = .ok t ∧ t.functions.size = 2 ∧ t.labels.size = 3 ∧
    Instr.decodeFrom b.image #[] t.code = (codes.flatten.toArray, none) ∧
    List.Forall₂ (Shaped t layouts) layouts codes := by
  have h : (generate (Parser.parse "p" branching).file #[] 1).result.toOption.any (·.size = 127) = true ∧
      (generate (Parser.parse "p" branching).file #[] 1).layouts.length = 2 ∧
      Layout.labelCount (generate (Parser.parse "p" branching).file #[] 1).layouts = 3 := by    decide +kernel
  obtain ⟨hok, hlength, hcount⟩ := h
  cases hb : (generate (Parser.parse "p" branching).file #[] 1).result with
  | error e =>
    rw [hb] at hok
    cases hok
  | ok b =>
    rw [hb] at hok
    replace hok : b.size = 127 := of_decide_eq_true hok
    obtain ⟨t, layouts, codes, hread, rfl, -, -, -, hfunctions, hlabels, -, hdecode, hshaped⟩ :=
      generate_shaped (.parsed "p" branching) hb (by omega)
    exact ⟨b, t, _, codes, rfl, hok, hread, hfunctions.trans hlength, hlabels.trans hcount, hdecode,
      hshaped⟩

end Lowering

end RegisterLang
