import RegisterLang.Compiler
import RegisterLang.Proofs.Planned
import RegisterLang.Proofs.Tables

/-!
# Linked programs

Where the code of an accepted program lies. The items of every function are written one after the
other, labels are placed where they stand among them, and the tables point at both.
-/
namespace RegisterLang.Lowering
open Text

theorem isKnown_of_regType? {ty : Option Ty} {t : RegType} (h : regType? ty = some t) :
    t.isKnown = true := by
  unfold regType? at h
  split at h <;> cases h <;> rfl

theorem Layout.Sound.isKnown {l : Layout} (h : l.Sound) {name : String} {v : Variable}
    (hv : l.var? name = some v) : v.type.isKnown = true :=
  isKnown_of_regType? (h.regType?_eq hv)

theorem isMath_of_mathOp? {op : Op} {m : Opcode} (h : mathOp? op = some m) : m.isMath = true := by
  cases op <;> cases h <;> rfl

theorem isJump_of_jumps? {op : Op} {js : List Opcode} (h : jumps? op = some js) :
    ∀ j ∈ js, j.isJump = true := by
  cases op <;> cases h <;> decide

theorem wellFormed_moveTo (dst src : Reg) : ∀ x ∈ moveTo dst src, x.WellFormed := by
  intro x hx
  unfold moveTo at hx
  split at hx
  · rw [List.mem_singleton.mp hx]
    trivial
  · cases hx

theorem Lowers.wellFormed {s : Scope} {task : Task} {code : List Instr} (h : Lowers s task code) :
    ∀ x ∈ code, x.WellFormed := by
  induction h with
  | ident => exact wellFormed_moveTo _ _
  | literal ht =>
    intro x hx
    rw [List.mem_singleton.mp hx]
    exact isKnown_of_regType? ht
  | negation ht _ ih =>
    simp only [List.cons_append, List.forall_mem_cons, List.forall_mem_append, List.not_mem_nil]
    exact ⟨isKnown_of_regType? ht, ih, ⟨rfl, isKnown_of_regType? ht⟩, fun _ hx => hx.elim⟩
  | operation ht hm _ _ iha ihb =>
    simp only [List.forall_mem_cons, List.forall_mem_append, List.not_mem_nil]
    exact ⟨⟨iha, ihb⟩, ⟨isMath_of_mathOp? hm, isKnown_of_regType? ht⟩,
      fun _ hx => hx.elim⟩
  | call _ _ _ _ ih =>
    simp only [List.forall_mem_cons, List.forall_mem_append]
    exact ⟨ih, trivial, wellFormed_moveTo _ _⟩
  | callWaiting _ _ _ _ ih =>
    simp only [List.forall_mem_cons, List.forall_mem_append]
    refine ⟨⟨ih, ?_⟩, trivial, wellFormed_moveTo _ _⟩
    intro x hx
    obtain ⟨i, -, rfl⟩ := List.mem_map.mp hx
    trivial
  | operandIdent =>
    intro x hx
    cases hx
  | operandValue _ _ ih => exact ih
  | nil =>
    intro x hx
    cases hx
  | cons _ _ ih ih' =>
    simp only [List.forall_mem_append]
    exact ⟨ih, ih'⟩

def Writable (items : List Item) : Prop := ∀ x, Item.instr x ∈ items → x.WellFormed

theorem writable_append {a b : List Item} : Writable (a ++ b) ↔ Writable a ∧ Writable b := by
  simp only [Writable, List.mem_append]
  exact ⟨fun h => ⟨fun x hx => h x (.inl hx), fun x hx => h x (.inr hx)⟩,
    fun h x hx => hx.elim (h.1 x) (h.2 x)⟩

theorem writable_code {code : List Instr} :
    Writable (code.map .instr) ↔ ∀ x ∈ code, x.WellFormed := by
  simp [Writable]

theorem writable_instr {x : Instr} : Writable [.instr x] ↔ x.WellFormed := by
  simp [Writable]

theorem LowersTest.wellFormed {s : Scope} {first : Nat} {test : Expr} {code : List Instr}
    (h : LowersTest s first test code) : ∀ x ∈ code, x.WellFormed := by
  obtain ⟨_, ht, hj, ha, hb⟩ := h
  simp only [List.forall_mem_cons, List.forall_mem_append, List.not_mem_nil]
  refine ⟨⟨⟨ha.wellFormed, hb.wellFormed⟩, isKnown_of_regType? ht, ?_⟩, rfl,
    fun _ hx => hx.elim⟩
  intro x hx
  obtain ⟨j, hj', rfl⟩ := List.mem_map.mp hx
  exact isJump_of_jumps? hj j hj'

theorem LowersStmt.writable {s : Scope} (hs : s.current.Sound) {p : Piece} {n n' : Nat}
    {items : List Item} (h : LowersStmt s p n items n') (hp : Planned s.current p) :
    Writable items := by
  induction h with
  | declare =>
    cases hp with
    | var hw =>
      rw [hw]
      exact writable_instr.mpr (hs.isKnown hw)
  | init _ hcode | assign _ hcode | call hcode => exact writable_code.mpr hcode.wellFormed
  | retNothing => simp [Writable, Instr.WellFormed, RegType.isKnown]
  | ret _ hcode =>
    exact writable_append.mpr ⟨writable_code.mpr hcode.wellFormed, writable_instr.mpr trivial⟩
  | cond htest _ _ ihbody ihmore =>
    cases hp with
    | cond _ hbody hmore =>
      have hbody := ihbody hbody
      have hmore := ihmore hmore
      have hcode := writable_code.mpr htest.wellFormed
      intro x hx
      simp only [List.append_assoc, List.cons_append, List.mem_append, List.mem_cons, reduceCtorEq,
        false_or, List.not_mem_nil, or_false, Item.instr.injEq] at hx
      rcases hx with hx | hx | rfl | hx
      · exact hcode x hx
      · exact hbody x hx
      · rfl
      · exact hmore x hx
  | nil =>
    intro x hx
    cases hx
  | cons _ _ ih ih' =>
    cases hp with
    | cons hx hrest => exact writable_append.mpr ⟨ih hx, ih' hrest⟩

def labelsOf (items : List Item) : List Nat := items.filterMap Generated.labelOf?

@[simp] theorem labelsOf_append (a b : List Item) : labelsOf (a ++ b) = labelsOf a ++ labelsOf b :=
  List.filterMap_append

@[simp] theorem labelsOf_instr (x : Instr) (rest : List Item) :
    labelsOf (.instr x :: rest) = labelsOf rest := rfl

@[simp] theorem labelsOf_label (l : Nat) (rest : List Item) :
    labelsOf (.label l :: rest) = l :: labelsOf rest := rfl

@[simp] theorem labelsOf_nil : labelsOf [] = [] := rfl

@[simp] theorem labelsOf_code (code : List Instr) : labelsOf (code.map .instr) = [] := by
  induction code with
  | nil => rfl
  | cons x code ih => exact ih

/-- Statements place the labels that they take, each once. -/
theorem LowersStmt.labels {s : Scope} {p : Piece} {n n' : Nat} {items : List Item}
    (h : LowersStmt s p n items n') :
    n ≤ n' ∧ (labelsOf items).Nodup ∧ ∀ l, l ∈ labelsOf items ↔ n ≤ l ∧ l < n' := by
  induction h with
  | declare | init | assign | retNothing | ret | call | nil =>
    simp only [labelsOf_append, labelsOf_code, labelsOf_instr, labelsOf_nil, List.append_nil,
      List.nodup_nil, List.not_mem_nil, Nat.le_refl, true_and, false_iff]
    omega
  | cond _ _ _ ihbody ihmore =>
    obtain ⟨hle, hnodup, hmem⟩ := ihbody
    obtain ⟨hle', hnodup', hmem'⟩ := ihmore
    simp only [branchLabels] at hle hmem
    simp only [labelsOf_append, labelsOf_code, labelsOf_label, labelsOf_instr, labelsOf_nil,
      List.nil_append, List.cons_append, List.append_assoc]
    refine ⟨by omega, by grind, fun l => ?_⟩
    simp only [List.mem_cons, List.mem_append, hmem, hmem', List.not_mem_nil, or_false]
    omega
  | cons _ _ ih ih' =>
    obtain ⟨hle, hnodup, hmem⟩ := ih
    obtain ⟨hle', hnodup', hmem'⟩ := ih'
    rw [labelsOf_append]
    refine ⟨by omega, ?_, fun l => ?_⟩
    · rw [List.nodup_append]
      refine ⟨hnodup, hnodup', fun a ha b hb => ?_⟩
      have h₁ := (hmem a).mp ha
      have h₂ := (hmem' b).mp hb
      omega
    · rw [List.mem_append, hmem, hmem']
      omega

def Item.bytes : Item → Bytes
  | .instr x => x.bytes
  | .label _ => []

def Marked (L : Nat → Nat) (pc : Nat) : List Item → Prop
  | [] => True
  | .instr x :: rest => Marked L (pc + x.bytes.length) rest
  | .label l :: rest => L l = pc ∧ Marked L pc rest

theorem Marked.congr {L L' : Nat → Nat} {items : List Item} {pc : Nat} (h : Marked L pc items)
    (heq : ∀ l ∈ labelsOf items, L' l = L l) : Marked L' pc items := by
  induction items generalizing pc with
  | nil => trivial
  | cons item rest ih =>
    cases item with
    | instr x => exact ih h heq
    | label l =>
      rw [labelsOf_label, List.forall_mem_cons] at heq
      exact ⟨heq.1.trans h.1, ih h.2 heq.2⟩

/-- Writing items appends their code and places their labels. -/
theorem run_items {b : Builder} {functions labels : Nat} {F L : Nat → Nat} {code : Bytes}
    (h : b.Represents functions labels F L code) {items : List Item} (hw : Writable items)
    (hlt : ∀ l ∈ labelsOf items, l < labels) (hnodup : (labelsOf items).Nodup) :
    ∃ L', (b.run (items.map Generated.itemStep)).Represents functions labels F L'
        (code ++ items.flatMap Item.bytes) ∧ Marked L' b.size items ∧
      ∀ l, l ∉ labelsOf items → L' l = L l := by
  induction items generalizing b L code with
  | nil => exact ⟨L, by simpa [Builder.run] using h, trivial, fun _ _ => rfl⟩
  | cons item rest ih =>
    have hrest : Writable rest := fun x hx => hw x (List.mem_cons_of_mem _ hx)
    cases item with
    | instr x =>
      have hx : x.WellFormed := hw x List.mem_cons_self
      have hstep : (b.step (Generated.itemStep (.instr x))).1 = b.append x.bytes := by
        simp [Generated.itemStep, Builder.step, Builder.emit, hx.fault?]
      have hb := h.append x.bytes
      obtain ⟨L', hrun, hmark, hsame⟩ := ih hb hrest hlt hnodup
      have hsize : (b.append x.bytes).size = b.size + x.bytes.length := by
        rw [hb.size_eq, h.size_eq, List.length_append]
        omega
      refine ⟨L', ?_, ?_, hsame⟩
      · rw [List.map_cons, Builder.run, List.foldl_cons, hstep]
        simpa [Item.bytes, Builder.run] using hrun
      · rw [hsize] at hmark
        exact hmark
    | label l =>
      rw [labelsOf_label, List.forall_mem_cons] at hlt
      rw [labelsOf_label, List.nodup_cons] at hnodup
      have hb := h.setLabel hlt.1 b.size
      obtain ⟨L', hrun, hmark, hsame⟩ := ih hb hrest hlt.2 hnodup.2
      have hsize : (b.setLabel l b.size).1.size = b.size := by
        rw [hb.size_eq, h.size_eq]
      refine ⟨L', ?_, ⟨?_, ?_⟩, fun m hm => ?_⟩
      · rw [List.map_cons, Builder.run, List.foldl_cons]
        exact hrun
      · rw [hsame l hnodup.1, Function.update_self]
      · rw [hsize] at hmark
        exact hmark
      · rw [labelsOf_label, List.mem_cons, not_or] at hm
        rw [hsame m hm.2, Function.update_of_ne hm.1]

/-- The items of the body of a function; one that does not end with a `return` gets one. -/
def LowersBody (s : Scope) (items : List Item) : Prop :=
  ∃ n n' body, LowersStmt s (.all s.current.function.body) n body n' ∧ items = body ++
    if s.current.function.body.getLast?.any isReturn then [] else [.instr (.ret 0)]

def Layout.prologue (l : Layout) : Instr := .func l.regs.toUInt16 l.args.toUInt16

def LowersFunction (s : Scope) (items : List Item) : Prop :=
  ∃ body, LowersStmt s (.all s.current.function.body) s.current.labelBase body
      (s.current.labelBase + s.current.labels) ∧
    items = .instr s.current.prologue :: (body ++
      if s.current.function.body.getLast?.any isReturn then [] else [.instr (.ret 0)])

namespace LowersFunction
variable {s : Scope} {items : List Item}

theorem exists_body (h : LowersFunction s items) :
    ∃ rest, items = .instr s.current.prologue :: rest ∧ LowersBody s rest := by
  obtain ⟨body, hbody, rfl⟩ := h
  exact ⟨_, rfl, _, _, body, hbody, rfl⟩

theorem writable (h : LowersFunction s items) (hs : s.current.Sound) : Writable items := by
  obtain ⟨body, hbody, rfl⟩ := h
  refine (writable_append (a := [.instr s.current.prologue])).mpr
    ⟨(writable_instr (x := s.current.prologue)).mpr trivial,
      writable_append.mpr ⟨hbody.writable hs hs.body, ?_⟩⟩
  split
  · exact fun x hx => nomatch hx
  · exact (writable_instr (x := .ret 0)).mpr trivial

theorem labels (h : LowersFunction s items) : (labelsOf items).Nodup ∧ ∀ l,
    l ∈ labelsOf items ↔ s.current.labelBase ≤ l ∧ l < s.current.labelBase + s.current.labels := by
  obtain ⟨body, hbody, rfl⟩ := h
  have htail : labelsOf (if s.current.function.body.getLast?.any isReturn = true then []
      else [Item.instr (.ret 0)]) = [] := by
    split <;> rfl
  rw [labelsOf_instr, labelsOf_append, htail, List.append_nil]
  exact hbody.labels.2

end LowersFunction

/-- The items of functions that stand one after the other from `pc` on. The tables have the offset of
each function and of each of its labels. -/
inductive InSequence (layouts : List Layout) (F L : Nat → Nat) :
    Nat → List Layout → List (List Item) → Prop
  | nil {pc : Nat} : InSequence layouts F L pc [] []
  | cons {pc : Nat} {l : Layout} {items : List Item} {rest : List Layout} {more : List (List Item)} :
      F l.index = pc → LowersFunction ⟨layouts, l⟩ items → Marked L pc items →
      InSequence layouts F L (pc + (items.flatMap Item.bytes).length) rest more →
      InSequence layouts F L pc (l :: rest) (items :: more)

/-- The code of a function lies among that of all, at its offset. -/
theorem InSequence.exists_items {layouts : List Layout} {F L : Nat → Nat} {pc : Nat} {ls : List Layout}
    {all : List (List Item)} (h : InSequence layouts F L pc ls all) {l : Layout} (hl : l ∈ ls) :
    ∃ items before after, LowersFunction ⟨layouts, l⟩ items ∧
      all.flatten.flatMap Item.bytes = before ++ items.flatMap Item.bytes ++ after ∧
      F l.index = pc + before.length ∧ Marked L (F l.index) items := by
  induction h with
  | nil => cases hl
  | @cons pc m items rest more hF hitems hmark _ ih =>
    rcases List.mem_cons.mp hl with rfl | hl
    · exact ⟨items, [], more.flatten.flatMap Item.bytes, hitems, by simp, by simpa using hF,
        hF ▸ hmark⟩
    · obtain ⟨items', before, after, hitems', hcode, hF', hmark'⟩ := ih hl
      refine ⟨items', items.flatMap Item.bytes ++ before, after, hitems', ?_, ?_, hmark'⟩
      · rw [List.flatten_cons, List.flatMap_append, hcode]
        simp only [List.append_assoc]
      · rw [hF', List.length_append, Nat.add_assoc]

theorem writeFunction_reports (layouts : List Layout) (l : Layout) (b : Builder)
    (ds : Array Diagnostic) : ds.size ≤ (Generated.writeFunction layouts l b ds).1.size :=
  (lowerFunction_emits ⟨layouts, l⟩ { label := l.labelBase, diagnostics := ds }).1

theorem writeAll_reports (layouts : List Layout) (b : Builder) (g : Generated) (rest : List Layout) :
    g.diagnostics.size ≤ (Generated.writeAll layouts b g rest).diagnostics.size := by
  induction rest generalizing b g with
  | nil => exact Nat.le_refl _
  | cons l rest ih =>
    have hle := writeFunction_reports layouts l b g.diagnostics
    rw [Generated.writeAll]
    generalize Generated.writeFunction layouts l b g.diagnostics = r at hle ⊢
    obtain ⟨ds, _ | ⟨b₁, e⟩⟩ := r
    · exact hle
    · exact Nat.le_trans hle (ih b₁ { g with diagnostics := ds, emitted := g.emitted.push e })

/-- Writing a function without a report puts its items at the end. -/
theorem writeFunction_writes (layouts : List Layout) {l : Layout} (hl : l.Sound) {b b' : Builder}
    {functions labels : Nat} {F L : Nat → Nat} {code : Bytes}
    (h : b.Represents functions labels F L code) (hindex : l.index < functions)
    (hlabels : l.labelBase + l.labels ≤ labels) {ds : Array Diagnostic} {e : Emitted}
    (hds : (Generated.writeFunction layouts l b ds).1.size = ds.size)
    (hok : (Generated.writeFunction layouts l b ds).2 = .ok (b', e)) : ∃ L' items,
      LowersFunction ⟨layouts, l⟩ items ∧
      b'.Represents functions labels (Function.update F l.index b.size) L'
        (code ++ items.flatMap Item.bytes) ∧
      Marked L' b.size items ∧ ∀ m, m < l.labelBase → L' m = L m := by
  have hquiet := (lowerFunction_emits ⟨layouts, l⟩ { label := l.labelBase, diagnostics := ds }).2
  unfold Generated.writeFunction at hds hok
  generalize (lowerFunction ⟨layouts, l⟩).run { label := l.labelBase, diagnostics := ds } = r
    at hquiet hds hok
  obtain ⟨_, out⟩ := r
  dsimp only at hquiet hds hok
  obtain ⟨items, hitems, body, hbody, rfl⟩ := hquiet hds
  split at hok
  · cases hok
  next hcount =>
  split at hok
  · cases hok
  next =>
  obtain ⟨rfl, -⟩ := Prod.mk.inj (Except.ok.inj hok)
  rw [not_ne_iff] at hcount
  rw [hcount] at hbody
  have hfunction : LowersFunction ⟨layouts, l⟩ out.items.toList := ⟨body, hbody, hitems⟩
  obtain ⟨hnodup, hrange⟩ := hfunction.labels
  obtain ⟨L', hrun, hmark, hsame⟩ := run_items h (hfunction.writable hl)
    (fun m hm => Nat.lt_of_lt_of_le ((hrange m).mp hm).2 hlabels) hnodup
  refine ⟨L', out.items.toList, hfunction, hrun.setFunction hindex b.size, hmark, fun m hm => ?_⟩
  refine hsame m fun hmem => ?_
  have hle : l.labelBase ≤ m := ((hrange m).mp hmem).1
  omega

theorem Numbered.cons {index label : Nat} {l : Layout} {rest : List Layout}
    (h : Numbered index label (l :: rest)) : l.index = index ∧ l.labelBase = label ∧ l.Sound ∧
      Numbered (index + 1) (label + l.labels) rest := by
  obtain ⟨hi, hb, hs⟩ := h 0 l rfl
  refine ⟨hi, hb, hs, fun i m hm => ?_⟩
  obtain ⟨hi', hb', hs'⟩ := h (i + 1) m hm
  refine ⟨by omega, ?_, hs'⟩
  rw [hb', List.take_succ_cons, Layout.labelCount]
  omega

theorem labelCount_append (a b : List Layout) :
    Layout.labelCount (a ++ b) = Layout.labelCount a + Layout.labelCount b := by
  induction a with
  | nil => exact (Nat.zero_add _).symm
  | cons l a ih =>
    rw [List.cons_append, Layout.labelCount, ih, Layout.labelCount, Nat.add_assoc]

theorem Numbered.labels_le {layouts : List Layout} (h : Numbered 0 0 layouts) {i : Nat} {l : Layout}
    (hi : layouts[i]? = some l) :
    l.labelBase + l.labels ≤ Layout.labelCount layouts := by
  obtain ⟨hlt, rfl⟩ := List.getElem?_eq_some_iff.mp hi
  have hcount : Layout.labelCount layouts =
      Layout.labelCount (layouts.take i) + Layout.labelCount (layouts.drop i) := by
    rw [← labelCount_append, List.take_append_drop]
  rw [(h i _ hi).2.1, hcount, List.drop_eq_getElem_cons hlt, Layout.labelCount]
  omega

/-- Writing functions without a report puts the items of all at the end, one after the other. -/
theorem writeAll_writes (layouts : List Layout) {functions labels : Nat} {g : Generated}
    (rest : List Layout) {b b' : Builder} {F L : Nat → Nat} {code : Bytes}
    (h : b.Represents functions labels F L code) {index label : Nat}
    (hrest : Numbered index label rest) (hindex : index + rest.length ≤ functions)
    (hlabel : label + Layout.labelCount rest ≤ labels)
    (hds : (Generated.writeAll layouts b g rest).diagnostics.size = g.diagnostics.size)
    (hok : (Generated.writeAll layouts b g rest).result = .ok b') : ∃ F' L' all,
      b'.Represents functions labels F' L' (code ++ all.flatten.flatMap Item.bytes) ∧
      InSequence layouts F' L' b.size rest all ∧ (∀ i, i < index → F' i = F i) ∧
      ∀ m, m < label → L' m = L m := by
  induction rest generalizing b g F L code index label with
  | nil =>
    cases hok
    exact ⟨F, L, [], by simpa using h, .nil, fun _ _ => rfl, fun _ _ => rfl⟩
  | cons l rest ih =>
    obtain ⟨hi, hb, hsound, hnext⟩ := hrest.cons
    rw [List.length_cons] at hindex
    rw [Layout.labelCount] at hlabel
    have hle := writeFunction_reports layouts l b g.diagnostics
    rw [Generated.writeAll] at hds hok
    generalize hr : Generated.writeFunction layouts l b g.diagnostics = r at hle hds hok
    obtain ⟨ds, _ | ⟨b₁, e⟩⟩ := r
    · cases hok
    · dsimp only at hle hds hok
      have hle' := writeAll_reports layouts b₁
        { g with diagnostics := ds, emitted := g.emitted.push e } rest
      dsimp only at hle'
      have hds₁ : ds.size = g.diagnostics.size := by omega
      rw [← hds₁] at hds
      obtain ⟨L₁, items, hitems, h₁, hmark, hsame⟩ := writeFunction_writes layouts hsound h (by omega)
        (by omega) (by rw [hr]; exact hds₁) (congrArg Prod.snd hr)
      obtain ⟨F', L', all, h', hwritten, hF, hL⟩ := ih h₁ hnext (by omega) (by omega) hds hok
      have hsize : b₁.size = b.size + (items.flatMap Item.bytes).length := by
        rw [h₁.size_eq, h.size_eq, List.length_append]
        omega
      rw [hsize] at hwritten
      have hpc : F' l.index = b.size := by
        rw [hF l.index (by omega), Function.update_self]
      have hmark' : Marked L' b.size items := by
        refine hmark.congr fun m hm => hL m ?_
        have hlt : m < l.labelBase + l.labels := ((hitems.labels.2 m).mp hm).2
        omega
      refine ⟨F', L', items :: all, ?_, .cons hpc hitems hmark' hwritten, fun i hi' => ?_,
        fun m hm => ?_⟩
      · rwa [List.flatten_cons, List.flatMap_append, ← List.append_assoc]
      · rw [hF i (by omega), Function.update_of_ne (by omega)]
      · rw [hL m (by omega), hsame m (by omega)]

/-- The items lie at an offset of a program: every instruction is read back there, and every label
has the offset of what follows it. -/
def Laid (p : Program) (pc : Nat) : List Item → Prop
  | [] => True
  | .instr x :: rest =>
    Instr.decodeAt p.image pc = .ok (x.cut, pc + x.bytes.length) ∧
      Laid p (pc + x.bytes.length) rest
  | .label l :: rest => (∃ t, p.labels[l.toUInt32.toNat]? = some t ∧ t.toNat = pc) ∧ Laid p pc rest

/-- What is known of the code of an accepted program: the table entry of every function leads to its
prologue, which the items of its body follow. An instruction can name every function. -/
structure Linked (layouts : List Layout) (p : Program) : Prop where
  body : ∀ l ∈ layouts, ∃ pc items, p.prologue l.index.toUInt32 = .ok ⟨l.regs, l.args, pc⟩ ∧
    LowersBody ⟨layouts, l⟩ items ∧ Laid p pc items
  index : ∀ l ∈ layouts, l.index.toUInt32.toNat = l.index

theorem laid_of_holds {p : Program} {labels : Nat} {L : Nat → Nat} (hsize : p.image.size < 2 ^ 32)
    (hlabels : labels < 2 ^ 32)
    (hget : ∀ l, l < labels → p.labels[l]? = some (L l).toUInt32) {items : List Item} {pc : Nat}
    (hpc : pc ≤ p.image.size) (hw : Writable items) (hlt : ∀ l ∈ labelsOf items, l < labels)
    (hholds : p.image.Holds pc (items.flatMap Item.bytes)) (hmark : Marked L pc items) :
    Laid p pc items := by
  induction items generalizing pc with
  | nil => trivial
  | cons item rest ih =>
    have hrest : Writable rest := fun x hx => hw x (List.mem_cons_of_mem _ hx)
    rw [List.flatMap_cons, Image.holds_append] at hholds
    cases item with
    | instr x =>
      have hx : x.WellFormed := hw x List.mem_cons_self
      have hne : x.bytes ≠ [] := by
        rw [Instr.bytes_eq]
        simp [Instr.word, littleEndian]
      exact ⟨Instr.decodeAt_of_holds hx hholds.1,
        ih (hholds.1.le_size hne) hrest hlt hholds.2 hmark⟩
    | label l =>
      rw [labelsOf_label, List.forall_mem_cons] at hlt
      obtain ⟨rfl, hmark⟩ := hmark
      have hl : l.toUInt32.toNat = l := by
        simpa using Nat.lt_trans hlt.1 hlabels
      refine ⟨⟨(L l).toUInt32, by rw [hl]; exact hget l hlt.1, ?_⟩, ih hpc hrest hlt.2 hholds.2 hmark⟩
      simpa using Nat.lt_of_le_of_lt hpc hsize

theorem prologue_of_holds {p : Program} {l : Layout} (hl : l.Sound) {offset : UInt32}
    (hindex : p.functions[l.index.toUInt32.toNat]? = some offset)
    (hholds : p.image.Holds offset.toNat l.prologue.bytes) :
    p.prologue l.index.toUInt32 = .ok ⟨l.regs, l.args, offset.toNat + l.prologue.bytes.length⟩ := by
  obtain ⟨hlt, rfl⟩ := Array.getElem?_eq_some_iff.mp hindex
  have hlen : l.prologue.bytes.length = Prologue.size := by
    simp [Layout.prologue, Instr.bytes, Instr.word, Instr.half, littleEndian_length, Prologue.size]
  have hle := hholds.le_size (by intro hnil; rw [hnil] at hlen; cases hlen)
  have hregs := hl.regs
  have hargs : l.args ≤ l.regs := by
    have := hl.args
    unfold Layout.regs
    omega
  simp only [Layout.prologue, Instr.bytes, Instr.word, Instr.half, Image.holds_append,
    List.length_append, littleEndian_length] at hholds
  unfold Program.prologue
  rw [dif_pos hlt]
  dsimp only
  rw [if_neg (by omega), Image.number_of_holds hholds.1.1, Image.number_of_holds hholds.1.2,
    Image.number_of_holds hholds.2, hlen]
  have hop : Opcode.ofCode (Opcode.func.code.toNat % 256 ^ 2).toUInt16 = .func := rfl
  have hsmall : ∀ n, n ≤ maxRegs → n.toUInt16.toNat % 256 ^ 2 = n := by
    intro n hn
    unfold maxRegs at hn
    rw [Nat.toUInt16, UInt16.toNat_ofNat']
    omega
  rw [hop, if_neg (by simp), hsmall _ hregs, hsmall _ (Nat.le_trans hargs hregs)]

/-- An image is made only if nothing is reported. -/
theorem settle_ok {before : Nat} {g : Generated} {b : Builder}
    (h : (g.settle before).result = .ok b) : g.diagnostics.size = before ∧ g.result = .ok b := by
  unfold Generated.settle at h
  split at h
  next e he => rw [he] at h; cases h
  next b' hb =>
    split at h
    · cases h
    next hd => exact ⟨not_ne_iff.mp hd, h⟩

theorem layouts_writeAll (layouts : List Layout) (b : Builder) (g : Generated)
    (rest : List Layout) : (Generated.writeAll layouts b g rest).layouts = g.layouts := by
  induction rest generalizing b g with
  | nil => rfl
  | cons l rest ih =>
    rw [Generated.writeAll]
    generalize Generated.writeFunction layouts l b g.diagnostics = r
    obtain ⟨ds, _ | ⟨b₁, e⟩⟩ := r
    · rfl
    · exact ih b₁ _

theorem layouts_settle (before : Nat) (g : Generated) : (g.settle before).layouts = g.layouts := by
  unfold Generated.settle
  split
  · rfl
  · split <;> rfl

/-- The layouts that are left are those that were planned. -/
theorem layouts_generate (file : File) (ds : Array Diagnostic) (buffer : Int) :
    (generate file ds buffer).layouts = (plan file ds).1 := by
  unfold generate
  generalize plan file ds = r
  obtain ⟨layouts, planned⟩ := r
  dsimp only
  split
  · rfl
  · rw [layouts_settle, layouts_writeAll]

/-- An image that is made holds the items of all functions, by index, after its tables. -/
theorem generate_written {file : File} {ds : Array Diagnostic} {buffer : Int} {b : Builder}
    (h : (generate file ds buffer).result = .ok b) :
    ∃ layouts F L all, layouts = (generate file ds buffer).layouts ∧ Layouts file layouts ∧
      b.Represents layouts.length (Layout.labelCount layouts) F L (all.flatten.flatMap Item.bytes) ∧
      InSequence layouts F L (12 + 8 * layouts.length + 8 * Layout.labelCount layouts) layouts all := by
  rw [layouts_generate]
  unfold generate at h
  have hplan := @plan_layouts file ds
  generalize plan file ds = r at h hplan ⊢
  obtain ⟨layouts, planned⟩ := r
  dsimp only at h hplan ⊢
  split at h
  · cases h
  next hquiet =>
  rw [not_ne_iff] at hquiet
  have hlayouts := hplan hquiet
  obtain ⟨hds, hok⟩ := settle_ok h
  rw [← hquiet] at hds
  have hmake := Builder.represents_make buffer layouts.length (Layout.labelCount layouts)
  obtain ⟨F, L, all, hrep, hwritten, -⟩ := writeAll_writes layouts layouts hmake hlayouts.numbered
    (by omega) (by omega) hds hok
  rw [hmake.size_eq] at hwritten
  exact ⟨layouts, F, L, all, rfl, hlayouts, hrep, hwritten⟩

/-- In a program of fewer than `2 ^ 32` bytes an instruction can name every function. -/
theorem Layouts.toNat_index {file : File} {layouts : List Layout} (h : Layouts file layouts)
    (hlt : layouts.length < 2 ^ 32) {l : Layout} (hl : l ∈ layouts) :
    l.index.toUInt32.toNat = l.index := by
  obtain ⟨i, hi⟩ := List.getElem?_of_mem hl
  have hindex := (h.numbered i l hi).1
  have hilt : i < layouts.length := (List.getElem?_eq_some_iff.mp hi).1
  simpa using (by omega : l.index < 2 ^ 32)

/-- The code of a file that is lowered without a report. -/
theorem generate_linked {file : File} {ds : Array Diagnostic} {buffer : Int} {b : Builder}
    (h : (generate file ds buffer).result = .ok b) (hsize : b.image.size < 2 ^ 32) :
    ∃ layouts t, layouts = (generate file ds buffer).layouts ∧ Layouts file layouts ∧
      Header.read b.image = .ok t ∧ Linked layouts ⟨b.image, t.functions, t.labels⟩ := by
  obtain ⟨layouts, F, L, all, heq, hlayouts, hrep, hwritten⟩ := generate_written h
  obtain ⟨t, hread, -, -, -, hfget, hlget⟩ := hrep.read hsize
  have hcount := hrep.size_eq
  rw [Builder.size] at hcount
  have hi32 : ∀ l ∈ layouts, l.index.toUInt32.toNat = l.index :=
    fun l hl => hlayouts.toNat_index (by omega) hl
  refine ⟨layouts, t, heq, hlayouts, hread, ⟨fun l hl => ?_, hi32⟩⟩
  obtain ⟨i, hi⟩ := List.getElem?_of_mem hl
  obtain ⟨hindex, hbase, hsound⟩ := hlayouts.numbered i l hi
  have hilt : i < layouts.length := (List.getElem?_eq_some_iff.mp hi).1
  obtain ⟨items, before, after, hitems, hcode, hstart, hmark⟩ := hwritten.exists_items hl
  have hw : Writable items := hitems.writable hsound
  have hlabels : ∀ m ∈ labelsOf items, m < Layout.labelCount layouts := fun m hm =>
    Nat.lt_of_lt_of_le ((hitems.labels.2 m).mp hm).2 (hlayouts.numbered.labels_le hi)
  obtain ⟨rest, rfl, hbody⟩ := hitems.exists_body
  have hholds := hrep.code_holds
  rw [hcode, List.append_assoc, Image.holds_append, Image.holds_append, ← hstart, List.flatMap_cons,
    Image.holds_append] at hholds
  obtain ⟨-, ⟨hprologue, hrest⟩, -⟩ := hholds
  have hprologue : b.image.Holds (F l.index) l.prologue.bytes := hprologue
  have hle := hprologue.le_size (by simp [Layout.prologue, Instr.bytes, Instr.word, littleEndian])
  have hF : (F l.index).toUInt32.toNat = F l.index := by
    simpa using (by omega : F l.index < 2 ^ 32)
  refine ⟨F l.index + l.prologue.bytes.length, rest, ?_, hbody, ?_⟩
  · have hentry : t.functions[l.index.toUInt32.toNat]? = some (F l.index).toUInt32 := by
      rw [hi32 l hl]
      exact hfget l.index (by omega)
    have h := prologue_of_holds (p := ⟨b.image, t.functions, t.labels⟩) hsound hentry
      (by rw [hF]; exact hprologue)
    rwa [hF] at h
  · exact laid_of_holds hsize (by omega) hlget hle
      (fun x hx => hw x (List.mem_cons_of_mem _ hx)) hlabels hrest hmark

end RegisterLang.Lowering

namespace RegisterLang
open Lowering

/-- The code of a text that is compiled. -/
theorem compile_linked {name : String} {text : Text.Bytes} {buffer : Int} {b : Builder}
    (h : (compile name text buffer).result = .ok b) (hsize : b.image.size < 2 ^ 32) :
    ∃ file layouts t, parseChecked name text = .ok file ∧
      layouts = (compile name text buffer).layouts ∧ Layouts file layouts ∧
      Header.read b.image = .ok t ∧ Linked layouts ⟨b.image, t.functions, t.labels⟩ := by
  unfold compile at h ⊢
  cases hfile : parseChecked name text with
  | error e =>
    rw [hfile] at h
    cases h
  | ok file =>
    rw [hfile] at h
    dsimp only at h ⊢
    generalize hg : generate file #[] (if 0 < buffer then buffer else standardBuffer) = g at h ⊢
    split at h
    · cases h
    next =>
      cases hr : g.result with
      | error e => rw [hr] at h; cases h
      | ok b' =>
        rw [hr] at h
        cases h
        obtain ⟨layouts, t, heq, hlayouts, hread, hlinked⟩ := generate_linked (hg ▸ hr) hsize
        exact ⟨file, layouts, t, rfl, hg ▸ heq, hlayouts, hread, hlinked⟩

end RegisterLang
