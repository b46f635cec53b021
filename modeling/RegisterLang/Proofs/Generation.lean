import RegisterLang.Proofs.Emission
import RegisterLang.Proofs.LabelSets
import RegisterLang.Proofs.Strict

/-!
# How generating ends

Generating never stops at what cannot be: it reports nothing and leaves an image, or it reports
something and leaves none. Labels are reserved by one pass over a tree and taken by another, which
leaves out the blocks of a branch whose condition it reports; where nothing is reported the numbers
agree and every label is placed.
-/
namespace RegisterLang.Strict
open Lowering Generated

theorem setEntry_tables (b : Builder) (start : Nat) (index pos : Int) :
    (b.setEntry start index pos).functions = b.functions ∧
      (b.setEntry start index pos).labels = b.labels := by
  unfold Builder.setEntry
  exact ⟨rfl, rfl⟩

/-- Writing an item leaves the sizes of the tables. -/
theorem step_tables (b : Builder) (item : Item) :
    (b.step (itemStep item)).1.functions = b.functions ∧
      (b.step (itemStep item)).1.labels = b.labels := by
  cases item with
  | instr x =>
    simp only [itemStep, Builder.step, Builder.emit]
    split <;> exact ⟨rfl, rfl⟩
  | label l =>
    simp only [itemStep, Builder.step, Builder.place, Builder.setLabel]
    split
    · exact ⟨rfl, rfl⟩
    · exact setEntry_tables b _ _ _

theorem run_tables (b : Builder) (items : List Item) :
    (b.run (items.map itemStep)).functions = b.functions ∧
      (b.run (items.map itemStep)).labels = b.labels := by
  induction items generalizing b with
  | nil => exact ⟨rfl, rfl⟩
  | cons item items ih =>
    obtain ⟨hf, hl⟩ := ih (b.step (itemStep item)).1
    obtain ⟨hf', hl'⟩ := step_tables b item
    exact ⟨hf.trans hf', hl.trans hl'⟩

theorem accept_emit {x : Instr} (h : x.WellFormed) (b : Builder) :
    accept (b.emit x) = .ok (b.step (itemStep (.instr x))).1 := by
  simp only [itemStep, Builder.step, Builder.emit, h.fault?, accept]

theorem accept_place {b : Builder} {l : Nat} (h : (l : Int) < b.labels) :
    accept (b.place l) = .ok (b.step (itemStep (.label l))).1 := by
  have hin : ¬ ((l : Int) < 0 ∨ b.labels ≤ l) := by omega
  simp only [itemStep, Builder.step, Builder.place, Builder.setLabel, if_neg hin, accept]

theorem accept_setFunction {b : Builder} {i : Nat} (h : (i : Int) < b.functions) (pos : Int) :
    accept (b.setFunction i pos) = .ok (b.setFunction i pos).1 := by
  have hin : ¬ ((i : Int) < 0 ∨ b.functions ≤ i) := by omega
  simp only [Builder.setFunction, if_neg hin, accept]

def insertAll (base : Nat) (placed : Bitmap) (ls : List Nat) : Bitmap :=
  ls.foldl (fun s l => s.insert (l - base)) placed

theorem contains_insertAll (base : Nat) (placed : Bitmap) (ls : List Nat) (m : Nat) :
    (insertAll base placed ls).contains m =
      (placed.contains m || ls.any fun l => decide (m = l - base)) := by
  induction ls generalizing placed with
  | nil => exact (Bool.or_false _).symm
  | cons l ls ih =>
    have h := ih (placed.insert (l - base))
    rw [Bitmap.contains_insert, Bool.or_comm (decide _), Bool.or_assoc] at h
    exact h

theorem placed_eq (base : Nat) (items : Array Item) :
    placed base items = insertAll base {} (labelsOf items.toList) := by
  unfold placed insertAll labelsOf
  rw [← Array.foldl_toList, Array.toList_filterMap]

/-- Where every label is placed none is unset. -/
theorem firstUnset_placed {base n : Nat} {items : Array Item}
    (h : Places base items.toList (base + n)) : (placed base items).firstUnset n = none := by
  refine Bitmap.firstUnset_eq_none fun m hm => ?_
  rw [placed_eq, contains_insertAll, Bool.or_eq_true, List.any_eq_true]
  exact .inr ⟨base + m, (h.mem _).mpr ⟨by omega, by omega⟩, decide_eq_true (by omega)⟩

/-- Items are written without a refusal if none of their labels is placed and all are in the table. -/
theorem writeItems?_eq {base : Nat} {items : List Item} (hw : Writable items)
    (hnodup : (labelsOf items).Nodup) {b : Builder}
    (hlt : ∀ l ∈ labelsOf items, base ≤ l ∧ (l : Int) < b.labels) {placed : Bitmap}
    (hfresh : ∀ l ∈ labelsOf items, placed.contains (l - base) = false) :
    items.foldlM (writeItem? base) (b, placed) =
      .ok (b.run (items.map itemStep), insertAll base placed (labelsOf items)) := by
  induction items generalizing b placed with
  | nil => rfl
  | cons item items ih =>
    have hrest : Writable items := fun x hx => hw x (List.mem_cons_of_mem _ hx)
    have htables := (step_tables b item).2
    rw [List.foldlM_cons]
    cases item with
    | instr x =>
      rw [writeItem?, accept_emit (hw x List.mem_cons_self)]
      rw [labelsOf_instr] at hnodup hlt hfresh ⊢
      rw [← htables] at hlt
      exact ih hrest hnodup hlt hfresh
    | label l =>
      rw [labelsOf_label, List.forall_mem_cons] at hlt hfresh
      rw [labelsOf_label, List.nodup_cons] at hnodup
      have hcast : ((l : Int) - base) = ((l - base : Nat) : Int) := by omega
      rw [writeItem?, hcast, Bitmap.testAndSet_natCast, hfresh.1]
      dsimp only
      rw [accept_place hlt.1.2]
      rw [← htables] at hlt
      refine ih hrest hnodup.2 hlt.2 fun m hm => ?_
      have hml : ¬ m - base = l - base := by
        intro heq
        have hm' := (hlt.2 m hm).1
        obtain rfl : m = l := by omega
        exact hnodup.1 hm
      rw [Bitmap.contains_insert, decide_eq_false hml, hfresh.2 m hm]
      rfl

section
variable {layouts : List Layout} {l : Layout} {b : Builder}

/-- What the layout of a function promises: its labels are those of its body, and its tables have
room for them. -/
structure Accommodates (b : Builder) (l : Layout) : Prop where
  sound : l.Sound
  labels_eq : l.labels = blockLabels l.function.body
  labels_le : ((l.labelBase + l.labels : Nat) : Int) ≤ b.labels
  index_lt : (l.index : Int) < b.functions

theorem writeFunction?_eq (hl : Accommodates b l) (hbody : Whole (.all l.function.body))
    (ds : Array Diagnostic) :
    writeFunction? layouts l b ds = .ok (writeFunction layouts l b ds) := by
  obtain ⟨items, hitems, hplaces, hle⟩ := lowerFunction_adds (s := ⟨layouts, l⟩) hl.sound
    { label := l.labelBase, diagnostics := ds }
  have hlower : (lowerFunction? ⟨layouts, l⟩).run { label := l.labelBase, diagnostics := ds } =
      .ok ((lowerFunction ⟨layouts, l⟩).run { label := l.labelBase, diagnostics := ds }) := by
    rw [lowerFunction?_eq (s := ⟨layouts, l⟩) hbody]
    rfl
  unfold writeFunction? writeFunction
  rw [hlower]
  generalize (lowerFunction ⟨layouts, l⟩).run { label := l.labelBase, diagnostics := ds } = r
    at hitems hplaces hle
  obtain ⟨_, out⟩ := r
  dsimp only at hitems hplaces hle
  rw [List.nil_append] at hitems
  have hlabels := hl.labels_eq
  have htable := hl.labels_le
  have hwrite : out.items.toList.foldlM (writeItem? l.labelBase) (b, {}) =
      .ok (b.run (out.items.toList.map itemStep), placed l.labelBase out.items) := by
    rw [placed_eq, hitems]
    refine writeItems?_eq hplaces.writable hplaces.nodup (fun m hm => ?_) fun m _ => ?_
    · have hrange := (hplaces.mem m).mp hm
      omega
    · exact Bitmap.contains_empty _
  have hindex : (l.index : Int) < (b.run (out.items.toList.map itemStep)).functions := by
    rw [(run_tables b _).1]
    exact hl.index_lt
  dsimp only [Bind.bind, Except.bind]
  rw [hwrite]
  dsimp only
  rw [accept_setFunction hindex]
  rfl

theorem Accommodates.of_tables {b' : Builder} (h : Accommodates b l) (hf : b'.functions = b.functions)
    (hl : b'.labels = b.labels) : Accommodates b' l :=
  ⟨h.sound, h.labels_eq, hl ▸ h.labels_le, hf ▸ h.index_lt⟩

theorem writeFunction_tables {b' : Builder} {ds : Array Diagnostic} {e : Emitted}
    (h : (writeFunction layouts l b ds).2 = .ok (b', e)) :
    b'.functions = b.functions ∧ b'.labels = b.labels := by
  unfold writeFunction at h
  generalize (lowerFunction ⟨layouts, l⟩).run { label := l.labelBase, diagnostics := ds } = r at h
  obtain ⟨_, out⟩ := r
  dsimp only at h
  split at h
  · cases h
  · split at h
    · cases h
    · obtain ⟨rfl, -⟩ := Prod.mk.inj (Except.ok.inj h)
      obtain ⟨hf, hl⟩ := run_tables b out.items.toList
      unfold Builder.setFunction
      split
      · exact ⟨hf, hl⟩
      · obtain ⟨hf', hl'⟩ := setEntry_tables (b.run (out.items.toList.map itemStep))
          Builder.functionsStart l.index b.size
        exact ⟨hf'.trans hf, hl'.trans hl⟩

/-- A function that is lowered without a report places all its labels, so it is written. -/
theorem writeFunction_quiet (hl : Accommodates b l) {ds : Array Diagnostic}
    (hds : (writeFunction layouts l b ds).1.size = ds.size) :
    ∃ r, (writeFunction layouts l b ds).2 = .ok r := by
  have hquiet := (lowerFunction_emits ⟨layouts, l⟩ { label := l.labelBase, diagnostics := ds }).2
  obtain ⟨items, hitems, hplaces, -⟩ := lowerFunction_adds (s := ⟨layouts, l⟩) hl.sound
    { label := l.labelBase, diagnostics := ds }
  unfold writeFunction at hds ⊢
  generalize (lowerFunction ⟨layouts, l⟩).run { label := l.labelBase, diagnostics := ds } = r
    at hquiet hitems hplaces hds
  obtain ⟨_, out⟩ := r
  dsimp only at hquiet hitems hplaces hds ⊢
  obtain ⟨-, -, body, hbody, -⟩ := hquiet hds
  have hcount : out.label = l.labelBase + l.labels := by
    rw [hbody.label_eq, hl.labels_eq]
    rfl
  rw [List.nil_append] at hitems
  rw [← hitems, hcount] at hplaces
  rw [if_neg (not_ne_iff.mpr hcount), firstUnset_placed hplaces]
  exact ⟨_, rfl⟩

theorem writeAll?_eq {rest : List Layout} (hrest : ∀ l ∈ rest, Accommodates b l)
    (hbody : ∀ l ∈ rest, Whole (.all l.function.body)) (g : Generated) :
    writeAll? layouts b g rest = .ok (writeAll layouts b g rest) := by
  induction rest generalizing b g with
  | nil => rfl
  | cons l rest ih =>
    rw [List.forall_mem_cons] at hrest hbody
    rw [writeAll?, writeAll, writeFunction?_eq hrest.1 hbody.1]
    have htables := @writeFunction_tables layouts l b
    generalize hr : writeFunction layouts l b g.diagnostics = r
    obtain ⟨ds, _ | ⟨b₁, e⟩⟩ := r
    · rfl
    · obtain ⟨hf, hl⟩ := htables (congrArg Prod.snd hr)
      exact ih (fun m hm => (hrest.2 m hm).of_tables hf hl) hbody.2 _

/-- Writing fails only after a report. -/
theorem writeAll_error {rest : List Layout} (hrest : ∀ l ∈ rest, Accommodates b l) {g : Generated}
    {e : GenerateError} (h : (writeAll layouts b g rest).result = .error e) :
    g.diagnostics.size < (writeAll layouts b g rest).diagnostics.size := by
  induction rest generalizing b g with
  | nil => cases h
  | cons l rest ih =>
    rw [List.forall_mem_cons] at hrest
    have hle := writeFunction_reports layouts l b g.diagnostics
    have hquiet : (writeFunction layouts l b g.diagnostics).1.size = g.diagnostics.size →
        ∃ r, (writeFunction layouts l b g.diagnostics).2 = .ok r := writeFunction_quiet hrest.1
    have htables := @writeFunction_tables layouts l b
    rw [writeAll] at h ⊢
    generalize hr : writeFunction layouts l b g.diagnostics = r at h hle hquiet ⊢
    obtain ⟨ds, _ | ⟨b₁, e₁⟩⟩ := r
    · dsimp only at hle hquiet ⊢
      have hne : ds.size ≠ g.diagnostics.size := by
        intro heq
        obtain ⟨r, hr'⟩ := hquiet heq
        cases hr'
      omega
    · obtain ⟨hf, hl⟩ := htables (congrArg Prod.snd hr)
      have hlt := ih (fun m hm => (hrest.2 m hm).of_tables hf hl) h
      exact Nat.lt_of_le_of_lt hle hlt

end

section
variable {file : File} {ds : Array Diagnostic}

theorem accommodates_of_plan (h : (plan file ds).2.size = ds.size) (buffer : Int) :
    ∀ l ∈ (plan file ds).1, Accommodates (Builder.make buffer (plan file ds).1.length
      (Layout.labelCount (plan file ds).1)) l := by
  have hnumbered := (plan_layouts h).numbered
  have hrep := Builder.represents_make buffer (plan file ds).1.length
    (Layout.labelCount (plan file ds).1)
  intro l hl
  obtain ⟨i, hi⟩ := List.getElem?_of_mem hl
  obtain ⟨hindex, -, hsound⟩ := hnumbered i l hi
  have hlabels := hnumbered.labels_le hi
  have hilt := (List.getElem?_eq_some_iff.mp hi).1
  refine ⟨hsound, plan_labels h l hl, ?_, ?_⟩
  · rw [hrep.labels_eq]
    omega
  · rw [hrep.functions_eq]
    omega

/-- A whole file is lowered to the end. -/
theorem generate?_eq (hfile : ∀ f ∈ file.functions, Typing.WholeFunction f) (buffer : Int) :
    generate? file ds buffer = .ok (generate file ds buffer) := by
  have hlayouts := @plan_layouts file ds
  have htables := fun h : (plan file ds).2.size = ds.size => accommodates_of_plan h buffer
  unfold generate? generate
  rw [plan?_eq hfile]
  generalize plan file ds = r at hlayouts htables
  obtain ⟨layouts, planned⟩ := r
  dsimp only at hlayouts htables
  dsimp only [Bind.bind, Except.bind]
  by_cases hquiet : planned.size = ds.size
  · rw [if_neg (not_ne_iff.mpr hquiet), if_neg (not_ne_iff.mpr hquiet)]
    have hbody : ∀ l ∈ layouts, Whole (.all l.function.body) := by
      intro l hl
      exact (hfile _ ((hlayouts hquiet).perm.subset (List.mem_map_of_mem hl))).body
    rw [writeAll?_eq (htables hquiet) hbody]
    rfl
  · rw [if_pos hquiet, if_pos hquiet]
    rfl

def Ended (before : Nat) (g : Generated) : Prop :=
  (g.diagnostics.size = before ∧ ∃ b, g.result = .ok b) ∨
    (before < g.diagnostics.size ∧ ∃ e, g.result = .error e)

theorem ended_settle {g : Generated} {before : Nat} (hle : before ≤ g.diagnostics.size)
    (herror : ∀ e, g.result = .error e → before < g.diagnostics.size) :
    Ended before (g.settle before) := by
  unfold Generated.settle
  cases hr : g.result with
  | error e => exact .inr ⟨herror e hr, e, hr⟩
  | ok b =>
    dsimp only
    by_cases hds : g.diagnostics.size = before
    · rw [if_neg (not_ne_iff.mpr hds)]
      exact .inl ⟨hds, b, hr⟩
    · rw [if_pos hds]
      exact .inr ⟨Nat.lt_of_le_of_ne hle (Ne.symm hds), _, rfl⟩

/-- Every file is lowered with an image and no report, or with a report and no image. -/
theorem generate_ended (file : File) (ds : Array Diagnostic) (buffer : Int) :
    Ended ds.size (generate file ds buffer) := by
  have hle : ds.size ≤ (plan file ds).2.size :=
    Nat.le_trans (order_quiet file ds).1 (planAll_sound (order file ds).1 (order file ds).1 0 0 #[]
      (order file ds).2).1
  have htables := fun h : (plan file ds).2.size = ds.size => accommodates_of_plan h buffer
  unfold generate
  generalize plan file ds = r at hle htables
  obtain ⟨layouts, planned⟩ := r
  dsimp only at hle htables ⊢
  by_cases hquiet : planned.size = ds.size
  · rw [if_neg (not_ne_iff.mpr hquiet)]
    generalize Builder.make buffer layouts.length (Layout.labelCount layouts) = b at htables ⊢
    have hreports := writeAll_reports layouts b
      { layouts, diagnostics := planned, result := .ok b } layouts
    refine ended_settle (Nat.le_trans hle hreports) fun e he => ?_
    rw [← hquiet]
    exact writeAll_error (htables hquiet) he
  · rw [if_pos hquiet]
    exact .inr ⟨Nat.lt_of_le_of_ne hle (Ne.symm hquiet), _, rfl⟩

end

theorem parse_wholeFunction (name : String) (text : Text.Bytes) :
    ∀ f ∈ (Parser.parse name text).file.functions, Typing.WholeFunction f :=
  fun f hf => ⟨(Parser.parse_parsed name text f hf).params, Parser.parse_whole name text f hf⟩

theorem parseChecked_error {name : String} {text : Text.Bytes} {e : CompileError}
    (h : parseChecked name text = .error e) : ∃ phase ds, ds ≠ [] ∧ e = .reported phase ds := by
  unfold parseChecked at h
  dsimp only at h
  split at h
  next hparse =>
    obtain rfl := Except.error.inj h
    exact ⟨_, _, by simpa using hparse, rfl⟩
  · split at h
    next hcheck =>
      obtain rfl := Except.error.inj h
      exact ⟨_, _, by simpa using hcheck, rfl⟩
    · cases h

/-- Compiling leaves an image or an error with what was reported. -/
theorem compile_ended (name : String) (text : Text.Bytes) (buffer : Int) :
    (∃ b, (compile name text buffer).result = .ok b) ∨
      ∃ phase ds, ds ≠ [] ∧ (compile name text buffer).result = .error (.reported phase ds) := by
  unfold compile
  cases hfile : parseChecked name text with
  | error e =>
    obtain ⟨phase, ds, hds, rfl⟩ := parseChecked_error hfile
    exact .inr ⟨phase, ds, hds, rfl⟩
  | ok file =>
    dsimp only
    have hended := generate_ended file #[] (if 0 < buffer then buffer else standardBuffer)
    generalize generate file #[] (if 0 < buffer then buffer else standardBuffer) = g at hended ⊢
    rcases hended with ⟨hds, b, hb⟩ | ⟨hds, -⟩
    · have hempty : g.diagnostics = #[] := Array.eq_empty_of_size_eq_zero hds
      rw [hempty, hb]
      exact .inl ⟨b, rfl⟩
    · have hne : g.diagnostics.toList ≠ [] := by
        intro hnil
        rw [Array.toList_eq_nil_iff] at hnil
        rw [hnil] at hds
        exact Nat.lt_irrefl 0 hds
      have hisEmpty : (!g.diagnostics.isEmpty) = true := by simpa using hne
      rw [if_pos hisEmpty]
      exact .inr ⟨_, _, hne, rfl⟩

/-- Generating `file` does not stop, and ends in one of two ways. -/
def Generates (file : File) : Prop :=
  ∀ ds buffer, generate? file ds buffer = .ok (generate file ds buffer) ∧
    Ended ds.size (generate file ds buffer)

theorem generates_of_whole {file : File} (h : ∀ f ∈ file.functions, Typing.WholeFunction f) :
    Generates file :=
  fun ds buffer => ⟨generate?_eq h buffer, generate_ended file ds buffer⟩

/-- The tree of any text is lowered to the end, checked or not, whatever was reported before: nothing
is reported and there is an image, or something is reported and there is none. Compiling any text
leaves an image or an error that holds what was reported. -/
theorem generates_or_reports (name : String) (text : Text.Bytes) :
    Generates (Parser.parse name text).file ∧
    (∀ ds, Generates (Typing.check (Parser.parse name text).file ds).1) ∧
    ((Parser.parse name text).error = none ∨ (Parser.parse name text).diagnostics ≠ #[]) ∧
    ∀ buffer, (∃ b, (compile name text buffer).result = .ok b) ∨
      ∃ phase ds, ds ≠ [] ∧ (compile name text buffer).result = .error (.reported phase ds) := by
  have hwhole := parse_wholeFunction name text
  exact ⟨generates_of_whole hwhole, fun ds => generates_of_whole (Typing.check_whole hwhole ds),
    Parser.parse_error_reported name text, compile_ended name text⟩

end RegisterLang.Strict
