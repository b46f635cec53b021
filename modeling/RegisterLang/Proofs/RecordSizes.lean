import RegisterLang.Proofs.ReadingFiles
import RegisterLang.Proofs.Writing

/-!
# The sizes of records

A record is made of types that were defined before it, so no record contains itself, and its fields come
down to primitives. The size of a record is the sum of the sizes of these primitives in 32 bits: nothing
stops a text from defining a record whose bytes are too many to be counted.
-/
namespace RegisterLang
open Text Source

theorem Ty.record_not_mem_primitives (name : String) : .record name ∉ Ty.primitives := by
  simp [primitives]

theorem Ty.mem_primitives_or (t : Ty) : t ∈ Ty.primitives ∨ ∃ name, t = .record name := by
  cases t with
  | record name => exact .inr ⟨name, rfl⟩
  | _ => exact .inl (by decide)

namespace Registry

def Has (g : Registry) : Ty → Prop
  | .record name => ∃ r, g.find? name = some r
  | _ => True

/-- Records in the order of their definition, each made of types that were there before it. -/
inductive Built : Registry → Prop
  | nil : Built {}
  | concat {g g' : Registry} {name : String} {fields : List (String × Ty)} : Built g →
      (∀ f ∈ fields, g.Has f.2) → g.register? (g.makeRecord name fields) = some g' → Built g'

def Contains (g : Registry) (r r' : Record) : Prop :=
  ∃ f ∈ r.fields, ∃ name, f.2 = .record name ∧ g.find? name = some r'

/-- The primitives that types come down to, one after the other. -/
inductive Leaves (g : Registry) : List Ty → List Ty → Prop
  | nil : Leaves g [] []
  | primitive {t : Ty} {ts ls : List Ty} : t ∈ Ty.primitives → Leaves g ts ls →
      Leaves g (t :: ts) (t :: ls)
  | record {name : String} {r : Record} {ts ls ls' : List Ty} : g.find? name = some r →
      Leaves g (r.fields.map Prod.snd) ls → Leaves g ts ls' →
      Leaves g (.record name :: ts) (ls ++ ls')

def leafBytes (ls : List Ty) : Nat := (ls.map fun t => t.primitiveSize.toNat).sum

def leafAlign (ls : List Ty) : Nat := max 1 ((ls.map fun t => t.primitiveSize.toNat).foldr max 0)

variable {g g' : Registry} {r r' : Record} {name : String} {t : Ty} {fields : List (String × Ty)}

theorem mem_of_find? (h : g.find? name = some r) : r ∈ g.records ∧ r.name = name :=
  ⟨List.mem_of_find?_eq_some h, by simpa using List.find?_some h⟩

theorem register?_eq_some : g.register? r = some g' ↔ g.get? r.name = none ∧ g' = ⟨g.records ++ [r]⟩ := by
  unfold register?
  cases g.get? r.name with
  | none => simp [eq_comm]
  | some t => simp

theorem find?_of_get? (h : g.get? name = none) : g.find? name = none := by
  unfold get? at h
  split at h
  · cases h
  · exact Option.map_eq_none_iff.mp h

theorem Contains.mem (h : g.Contains r r') : r' ∈ g.records := by
  obtain ⟨_, _, _, _, hfind⟩ := h
  exact (mem_of_find? hfind).1

/-- A type that is looked up by a name is there. -/
theorem has_of_get? (h : g.get? name = some t) : g.Has t := by
  unfold get? at h
  split at h
  next t' ht' =>
    cases h
    have hmem : t ∈ Ty.primitives := List.mem_of_find?_eq_some ht'
    cases t with
    | record n => exact absurd hmem (Ty.record_not_mem_primitives n)
    | _ => trivial
  · obtain ⟨r, hr, rfl⟩ := Option.map_eq_some_iff.mp h
    rw [(mem_of_find? hr).2]
    exact ⟨r, hr⟩

section
variable (h : g.register? r = some g')
include h

theorem find?_register? (hfind : g.find? name = some r') : g'.find? name = some r' := by
  obtain ⟨-, rfl⟩ := register?_eq_some.mp h
  simp only [find?] at hfind ⊢
  rw [List.find?_append, hfind]
  rfl

theorem Has.register? (ht : g.Has t) : g'.Has t := by
  cases t with
  | record name =>
    obtain ⟨r', hr'⟩ := ht
    exact ⟨r', find?_register? h hr'⟩
  | _ => trivial

theorem layout_register? (ht : g.Has t) : g'.layout t = g.layout t := by
  cases t with
  | record name =>
    obtain ⟨r', hr'⟩ := ht
    simp only [layout, hr', find?_register? h hr']
  | _ => rfl

/-- A record comes out the same when more records are there. -/
theorem makeRecord_register? (hfields : ∀ f ∈ fields, g.Has f.2) :
    g'.makeRecord name fields = g.makeRecord name fields := by
  have hlayout : ∀ f ∈ fields, g'.layout f.2 = g.layout f.2 :=
    fun f hf => layout_register? h (hfields f hf)
  unfold makeRecord
  congr 1
  · exact List.foldl_ext _ _ _ fun s f hf => by rw [hlayout f hf]
  · exact List.foldl_ext _ _ _ fun a f hf => by rw [hlayout f hf]

theorem Contains.of_register? (hfields : ∀ f ∈ r'.fields, g.Has f.2) {k : Record}
    (hc : g'.Contains r' k) : g.Contains r' k := by
  obtain ⟨f, hf, name, hname, hfind⟩ := hc
  have hhas := hfields f hf
  rw [hname] at hhas
  obtain ⟨k', hk'⟩ := hhas
  obtain rfl : k' = k := Option.some.inj ((find?_register? h hk').symm.trans hfind)
  exact ⟨f, hf, name, hname, hk'⟩

end

namespace Built

/-- Every record is what is made of its fields, and these have types. -/
theorem of_mem (h : Built g) (hr : r ∈ g.records) :
    (∀ f ∈ r.fields, g.Has f.2) ∧ r = g.makeRecord r.name r.fields := by
  induction h with
  | nil => cases hr
  | @concat g g' name fields _ hfields hregister ih =>
    have hrecords := (register?_eq_some.mp hregister).2
    rw [hrecords, List.mem_append, List.mem_singleton] at hr
    rcases hr with hr | rfl
    · obtain ⟨hold, hmade⟩ := ih hr
      refine ⟨fun f hf => (hold f hf).register? hregister, ?_⟩
      rw [makeRecord_register? hregister hold]
      exact hmade
    · exact ⟨fun f hf => (hfields f hf).register? hregister,
        (makeRecord_register? hregister hfields).symm⟩

/-- A record is found by its name. -/
theorem find?_of_mem (h : Built g) (hr : r ∈ g.records) : g.find? r.name = some r := by
  induction h with
  | nil => cases hr
  | @concat g g' name fields _ _ hregister ih =>
    obtain ⟨hfree, hrecords⟩ := register?_eq_some.mp hregister
    have hnone := find?_of_get? hfree
    rw [hrecords, List.mem_append, List.mem_singleton] at hr
    rcases hr with hr | rfl
    · exact find?_register? hregister (ih hr)
    · simp only [find?] at hnone
      rw [hrecords, find?, List.find?_append, hnone]
      simp

/-- What a record contains was defined before it. -/
theorem idxOf_lt (h : Built g) (hr : r ∈ g.records) (hc : g.Contains r r') :
    g.records.idxOf r' < g.records.idxOf r := by
  induction h with
  | nil => cases hr
  | @concat g g' name fields hg hfields hregister ih =>
    obtain ⟨hfree, hrecords⟩ := register?_eq_some.mp hregister
    rw [hrecords, List.mem_append, List.mem_singleton] at hr
    rcases hr with hr | rfl
    · have hold := hc.of_register? hregister (hg.of_mem hr).1
      rw [hrecords, List.idxOf_append_of_mem hr, List.idxOf_append_of_mem hold.mem]
      exact ih hr hold
    · have hmem := (hc.of_register? hregister hfields).mem
      -- the new record is no copy of an old one, as its name was free
      have hnew : g.makeRecord name fields ∉ g.records := by
        intro hmem
        have hfound := hg.find?_of_mem hmem
        rw [find?_of_get? hfree] at hfound
        cases hfound
      rw [hrecords, List.idxOf_append_of_notMem hnew, List.idxOf_append_of_mem hmem]
      exact Nat.lt_add_right _ (List.idxOf_lt_length_of_mem hmem)

/-- No record contains itself, however deep. -/
theorem not_contains_self (h : Built g) (hr : r ∈ g.records) : ¬ Relation.TransGen g.Contains r r := by
  have hbelow : ∀ r', Relation.TransGen g.Contains r r' →
      r' ∈ g.records ∧ g.records.idxOf r' < g.records.idxOf r := by
    intro r' hpath
    induction hpath with
    | single hc => exact ⟨hc.mem, h.idxOf_lt hr hc⟩
    | tail _ hc ih => exact ⟨hc.mem, (h.idxOf_lt ih.1 hc).trans ih.2⟩
  exact fun hpath => Nat.lt_irrefl _ (hbelow r hpath).2

end Built

namespace Leaves
variable {ts ls ls' : List Ty}

theorem cons (ht : g.Leaves [t] ls) (hts : g.Leaves ts ls') : g.Leaves (t :: ts) (ls ++ ls') := by
  cases ht with
  | primitive hmem hnil =>
    cases hnil
    exact .primitive hmem hts
  | record hfind hfields hnil =>
    cases hnil
    rw [List.append_nil]
    exact .record hfind hfields hts

theorem exists_of_forall (h : ∀ t ∈ ts, ∃ ls, g.Leaves [t] ls) : ∃ ls, g.Leaves ts ls := by
  induction ts with
  | nil => exact ⟨[], .nil⟩
  | cons t ts ih =>
    obtain ⟨⟨ls, hls⟩, hts⟩ := List.forall_mem_cons.mp h
    obtain ⟨ls', hls'⟩ := ih hts
    exact ⟨ls ++ ls', hls.cons hls'⟩

theorem unique (h : g.Leaves ts ls) (h' : g.Leaves ts ls') : ls' = ls := by
  induction h generalizing ls' with
  | nil =>
    cases h'
    rfl
  | primitive hmem _ ih =>
    cases h' with
    | primitive _ hts => rw [ih hts]
    | record => exact absurd hmem (Ty.record_not_mem_primitives _)
  | record hfind _ _ ih iht =>
    cases h' with
    | primitive hmem => exact absurd hmem (Ty.record_not_mem_primitives _)
    | record hfind' hfields hts =>
      cases hfind.symm.trans hfind'
      rw [ih hfields, iht hts]

end Leaves

/-- The fields of every record come down to primitives. -/
theorem Built.exists_leaves (h : Built g) (hr : r ∈ g.records) :
    ∃ ls, g.Leaves (r.fields.map Prod.snd) ls := by
  -- on the place of the record in the order of definition
  induction hn : g.records.idxOf r using Nat.strongRecOn generalizing r with
  | ind n ih =>
    refine Leaves.exists_of_forall fun t ht => ?_
    obtain ⟨f, hf, rfl⟩ := List.mem_map.mp ht
    rcases f.2.mem_primitives_or with hmem | ⟨name, hname⟩
    · exact ⟨_, .primitive hmem .nil⟩
    · have hhas := (h.of_mem hr).1 f hf
      rw [hname] at hhas ⊢
      obtain ⟨r', hr'⟩ := hhas
      have hlt := h.idxOf_lt hr ⟨f, hf, name, hname, hr'⟩
      obtain ⟨ls, hls⟩ := ih _ (hn ▸ hlt) (mem_of_find? hr').1 rfl
      exact ⟨_, .record hr' hls .nil⟩

theorem toNat_foldl_add (fs : List (String × Ty)) (n : UInt32) :
    (fs.foldl (fun s f => s + (g.layout f.2).1) n).toNat =
      (n.toNat + (fs.map fun f => (g.layout f.2).1.toNat).sum) % 2 ^ 32 := by
  induction fs generalizing n with
  | nil => exact (Nat.mod_eq_of_lt n.toNat_lt).symm
  | cons f fs ih =>
    rw [List.foldl_cons, ih, UInt32.toNat_add, List.map_cons, List.sum_cons, Nat.mod_add_mod,
      Nat.add_assoc]

theorem toNat_foldl_max (fs : List (String × Ty)) (n : UInt32) :
    (fs.foldl (fun a f => max a (g.layout f.2).2) n).toNat =
      max n.toNat ((fs.map fun f => (g.layout f.2).2.toNat).foldr max 0) := by
  induction fs generalizing n with
  | nil => exact (Nat.max_zero _).symm
  | cons f fs ih =>
    have hmax : (max n (g.layout f.2).2).toNat = max n.toNat (g.layout f.2).2.toNat := by
      change (if n ≤ (g.layout f.2).2 then (g.layout f.2).2 else n).toNat = _
      simp only [UInt32.le_iff_toNat_le, apply_ite UInt32.toNat, Nat.max_def]
    rw [List.foldl_cons, ih, hmax, Nat.max_assoc]
    rfl

/-- A record takes the bytes of its fields, in 32 bits. -/
theorem Built.toNat_size (h : Built g) (hr : r ∈ g.records) :
    r.size.toNat = ((r.fields.map Prod.snd).map fun t => (g.layout t).1.toNat).sum % 2 ^ 32 := by
  rw [(h.of_mem hr).2, makeRecord, toNat_foldl_add, List.map_map, UInt32.toNat_zero, Nat.zero_add]
  rfl

theorem Built.toNat_align (h : Built g) (hr : r ∈ g.records) :
    r.align.toNat =
      max 1 (((r.fields.map Prod.snd).map fun t => (g.layout t).2.toNat).foldr max 0) := by
  rw [(h.of_mem hr).2, makeRecord, toNat_foldl_max, List.map_map]
  rfl

theorem leafBytes_append (ls ls' : List Ty) : leafBytes (ls ++ ls') = leafBytes ls + leafBytes ls' := by
  simp [leafBytes]

theorem leafAlign_append (ls ls' : List Ty) :
    leafAlign (ls ++ ls') = max (leafAlign ls) (leafAlign ls') := by
  induction ls with
  | nil => simp [leafAlign]
  | cons t ls ih =>
    simp only [leafAlign, List.cons_append, List.map_cons, List.foldr_cons] at ih ⊢
    omega

theorem layout_primitive (h : t ∈ Ty.primitives) : g.layout t = (t.primitiveSize, t.primitiveSize) := by
  cases t with
  | record name => exact absurd h (Ty.record_not_mem_primitives name)
  | _ => rfl

/-- Types take the bytes of the primitives that they come down to, in 32 bits, and are aligned as these
are. -/
theorem Leaves.layout_eq (hg : Built g) {ts ls : List Ty} (h : g.Leaves ts ls) :
    (ts.map fun t => (g.layout t).1.toNat).sum % 2 ^ 32 = leafBytes ls % 2 ^ 32 ∧
      max 1 ((ts.map fun t => (g.layout t).2.toNat).foldr max 0) = leafAlign ls := by
  induction h with
  | nil => exact ⟨rfl, rfl⟩
  | @primitive t ts ls hmem _ ih =>
    simp only [leafBytes, leafAlign, List.map_cons, List.sum_cons, List.foldr_cons,
      layout_primitive hmem] at ih ⊢
    omega
  | @record name r ts ls ls' hfind _ _ ih iht =>
    have hmem := (mem_of_find? hfind).1
    have hlayout : g.layout (.record name) = (r.size, r.align) := by rw [layout, hfind]
    have hsize : r.size.toNat = leafBytes ls % 2 ^ 32 := (hg.toNat_size hmem).trans ih.1
    have halign : r.align.toNat = leafAlign ls := (hg.toNat_align hmem).trans ih.2
    rw [leafBytes_append, leafAlign_append]
    simp only [List.map_cons, List.sum_cons, List.foldr_cons, hlayout, hsize, halign]
    obtain ⟨hbytes, hmax⟩ := iht
    have hone : 1 ≤ leafAlign ls := Nat.le_max_left _ _
    omega

end Registry

namespace Parser
variable (s : Scope)

/-- A type that is read is one of those that are there, whatever was reported. -/
theorem parseType_has (c : Cursor) :
    Ensures false (parseType s c) fun r => ∀ t, r.1 = some t → s.types.Has t := by
  unfold parseType
  refine Ensures.bind (P := fun _ => True) (.quietly fun _ _ => trivial) ?_
  rintro ⟨name, l, d⟩
  dsimp only
  split
  next t ht =>
    refine .ofPure fun _ t' ht' => ?_
    cases ht'
    exact Registry.has_of_get? ht
  · refine (Ensures.report _).bind fun _ => .ofPure fun _ _ t' ht' => ?_
    cases ht'

theorem parseFields_has (fields : Array (String × Ty)) (bound : Nat) (c : Cursor)
    (hc : c.size < bound) :
    Ensures false (parseFields s fields bound c hc) fun r =>
      (∀ f ∈ fields, s.types.Has f.2) → ∀ f ∈ r.1, s.types.Has f.2 := by
  induction hn : c.size using Nat.strongRecOn generalizing c fields with
  | ind n ih =>
    unfold parseFields
    split
    · exact .quietly (.error _)
    next l rest hrest =>
      have hl : Cursor.size ⟨l.stop, rest⟩ < c.size := Cursor.size_tail hrest
      dsimp only
      split
      · exact .ofPure fun hfields => hfields
      next name _ =>
        refine (expect_ensures Token.Named _ _).bind ?_
        rintro ⟨d, hd⟩
        refine (parseType_has s d).bind ?_
        rintro ⟨type, e, he⟩
        refine (expect_ensures Token.Named _ e).bind ?_
        rintro ⟨g, hg⟩
        refine (ih g.size (by omega) _ g _ rfl).mono ?_
        intro r hr _ htype _ hfields
        refine hr fun f hf => ?_
        -- a field whose type is not found is left out, so there is nothing to show of it
        cases type with
        | none => exact hfields f hf
        | some t =>
          rcases Array.mem_push.mp hf with hf | rfl
          · exact hfields f hf
          · exact htype t rfl
      · exact .quietly (.error _)

theorem parseRecord_has (c : Cursor) :
    Ensures false (parseRecord s c) fun r => ∀ f ∈ r.2.1, s.types.Has f.2 := by
  unfold parseRecord
  refine Ensures.bind (P := fun _ => True) (.quietly fun _ _ => trivial) ?_
  rintro ⟨name, l, d, hd⟩
  refine (expect_ensures Token.Named _ d).bind ?_
  rintro ⟨e, he⟩
  refine (parseFields_has s #[] c.size e _).bind ?_
  rintro ⟨fields, g⟩
  exact .ofPure fun hfields _ _ f hf => hfields (by simp) f (by simpa using hf)

/-- A record is defined from types that are there, or not at all. -/
theorem built_define {p : Parsed} (h : p.types.Built) {fields : List (String × Ty)}
    (hfields : ∀ f ∈ fields, p.types.Has f.2) (pos : Pos) (name : String) :
    (p.define pos name fields).types.Built := by
  unfold Parsed.define
  dsimp only
  split
  next types htypes => exact h.concat hfields htypes
  · exact h

theorem parseItems_built (lines : LineTable) {p : Parsed} (h : p.types.Built) (c : Cursor) :
    (parseItems lines p c).types.Built := by
  induction hn : c.size using Nat.strongRecOn generalizing c p with
  | ind n ih =>
    unfold parseItems
    split
    · exact h
    next l rest hrest =>
      have hl : Cursor.size ⟨l.stop, rest⟩ < c.size := Cursor.size_tail hrest
      dsimp only
      split
      · exact h
      · have hrun := (parseRecord_has ⟨lines, p.types⟩ ⟨l.stop, rest⟩ p.diagnostics).2
        split
        next name fields d hd ds heq =>
          rw [heq] at hrun
          refine ih d.size (by omega) ?_ d rfl
          exact built_define (p := { p with diagnostics := ds }) h (hrun _ rfl (by simp)) _ name
        · exact h
      · split
        next f d hd ds _ =>
          refine ih d.size (by omega) ?_ d rfl
          exact h
        · exact h
      · exact h

/-- The records of every text, also of one with errors, are made of types before them. -/
theorem parse_built (name : String) (text : Bytes) : (parse name text).types.Built :=
  parseItems_built _ (p := ⟨{ name }, {}, #[], none⟩) .nil _

/-- Of the records that a text defines none contains itself, and their fields come down to primitives in
one way. Their alignments are the largest of these, and their sizes what these take, up to multiples of
two to the 32. -/
theorem record_sizes (name : String) (text : Bytes) {r : Record}
    (hr : r ∈ (parse name text).types.records) :
    (parse name text).types.find? r.name = some r ∧
    ¬ Relation.TransGen (parse name text).types.Contains r r ∧
    ∃ ls, (∀ ls', (parse name text).types.Leaves (r.fields.map Prod.snd) ls' ↔ ls' = ls) ∧
      r.size.toNat = Registry.leafBytes ls % 2 ^ 32 ∧ r.align.toNat = Registry.leafAlign ls := by
  have hbuilt := parse_built name text
  obtain ⟨ls, hls⟩ := hbuilt.exists_leaves hr
  obtain ⟨hsize, halign⟩ := hls.layout_eq hbuilt
  refine ⟨hbuilt.find?_of_mem hr, hbuilt.not_contains_self hr, ls, fun ls' => ?_,
    (hbuilt.toNat_size hr).trans hsize, (hbuilt.toNat_align hr).trans halign⟩
  exact ⟨fun hls' => hls.unique hls', fun heq => heq ▸ hls⟩

def nestedRecords : Bytes := Bytes.ofString "struct a\x7bx:u8;y:u64;\x7dstruct b\x7bx:a;y:b;z:a;\x7d"

def nestedRegistry : Registry :=
  ⟨[⟨"a", 9, 8, [("x", .u8), ("y", .u64)]⟩, ⟨"b", 18, 8, [("x", .record "a"), ("z", .record "a")]⟩]⟩

theorem record_sizes_nested :
    (parse "p" nestedRecords).diagnostics ≠ #[] ∧
    ∃ r ∈ (parse "p" nestedRecords).types.records, r.name = "b" ∧
      ¬ Relation.TransGen (parse "p" nestedRecords).types.Contains r r ∧
      (parse "p" nestedRecords).types.Leaves (r.fields.map Prod.snd) [.u8, .u64, .u8, .u64] ∧
      r.size.toNat = 18 ∧ r.align.toNat = 8 := by
  obtain ⟨hrecords, hreported⟩ :
      (parse "p" nestedRecords).types.records = nestedRegistry.records ∧
        (parse "p" nestedRecords).diagnostics.size = 1 := by
    decide +kernel
  have htypes : (parse "p" nestedRecords).types = nestedRegistry := congrArg Registry.mk hrecords
  have hr : Record.mk "b" 18 8 [("x", .record "a"), ("z", .record "a")] ∈
      (parse "p" nestedRecords).types.records := by
    rw [htypes]
    decide
  obtain ⟨-, hself, ls, hleaves, hsize, halign⟩ := record_sizes "p" nestedRecords hr
  have hfields : nestedRegistry.Leaves [.u8, .u64] [.u8, .u64] :=
    .primitive (by decide) (.primitive (by decide) .nil)
  have hfirst : nestedRegistry.Leaves [.record "a"] ([.u8, .u64] ++ []) := .record rfl hfields .nil
  have hboth := htypes ▸ hfirst.cons hfirst
  obtain rfl := (hleaves _).mp hboth
  refine ⟨fun h => ?_, _, hr, rfl, hself, hboth, hsize.trans (by decide), halign.trans (by decide)⟩
  rw [h] at hreported
  cases hreported

end Parser

/-- A text of records alone is read back as these records. -/
theorem Parser.parse_typedefs {g : Registry} {rs : List Typedef} (h : Defines g rs) (name : String) :
    ∃ rs', parse name (Bytes.ofString ("\n".intercalate (rs.map Printer.printTypedef))) =
      ⟨{ name, typedefs := rs' }, g, #[], none⟩ := by
  have hclosed : List.Forall₂ Lexeme.Closed (rs.map Printer.printTypedef)
      (rs.map fun t => recordTokens t.record) := by
    rw [List.forall₂_map_left_iff, List.forall₂_map_right_iff, List.forall₂_same]
    intro t ht
    have hnames := Printer.defines_names h t ht
    exact Printer.printTypedef_closed hnames.1 hnames.2
  have htokens := Printer.closed_intercalate hclosed []
  rw [List.append_nil, Lexeme.tokens_nil, ← List.flatMap_def] at htokens
  generalize Bytes.ofString ("\n".intercalate (rs.map Printer.printTypedef)) = text at htokens ⊢
  obtain ⟨rs', d, heq, -, hd⟩ := parseItems_typedefs (c := ⟨0, Lexeme.scan text⟩)
    (LineTable.ofText text) name h htokens
  exact ⟨rs', heq.trans (parseItems_eof _ hd)⟩

/-- What is defined by a text is made of types before it. -/
theorem Defines.built {g : Registry} {rs : List Typedef} (h : Defines g rs) : g.Built := by
  induction h with
  | nil => exact .nil
  | concat _ _ hfields hregister ih =>
    exact ih.concat (fun f hf => Registry.has_of_get? (hfields f hf).2.1) hregister

namespace Doubling

def name (k : Nat) : String := String.ofList (List.replicate (k + 1) 'a')

def field : Nat → Ty
  | 0 => .u64
  | k + 1 => .record (name k)

/-- The records of the first levels, each with two fields of the level before. -/
def registry : Nat → Registry
  | 0 => {}
  | k + 1 =>
    ⟨(registry k).records ++
      [(registry k).makeRecord (name k) [("x", field k), ("y", field k)]]⟩

def text (n : Nat) : Bytes :=
  Bytes.ofString ("\n".intercalate ((registry n).records.map fun r => Printer.printTypedef ⟨default, r⟩))

theorem toList_name (k : Nat) : (name k).toList = List.replicate (k + 1) 'a' := String.toList_ofList

theorem ofString_name (k : Nat) : Bytes.ofString (name k) = 97 :: List.replicate k 97 := by
  rw [Bytes.ofString_eq, toList_name, List.flatMap_replicate, ← List.replicate_succ]
  exact List.flatten_replicate_singleton

theorem name_injective {k m : Nat} (h : name k = name m) : k = m := by
  have hlength := congrArg (fun s => s.toList.length) h
  simpa [toList_name] using hlength

theorem ne_name {s : String} (h : s.toList.all (· == 'a') = false) (k : Nat) : s ≠ name k := by
  rintro rfl
  rw [toList_name, List.all_replicate] at h
  cases h

theorem isName_name (k : Nat) : IsName (name k) := by
  refine ⟨97, List.replicate k 97, .inl (by decide), fun c hc => ?_, ?_, ?_⟩
  · rw [List.eq_of_mem_replicate hc]
    decide
  · rw [← ofString_name, Bytes.toText_ofString]
  · have hfree : ([Keyword.ret, .struct, .cond, .otherwise].find? fun w => w.text = name k) = none := by
      rw [List.find?_eq_none]
      intro w _
      have hw : w.text.toList.all (· == 'a') = false := by cases w <;> rfl
      simpa using ne_name hw k
    rw [Lexeme.word, hfree]

theorem primitive?_name (k : Nat) : Ty.primitive? (name k) = none := by
  rw [Ty.primitive?, List.find?_eq_none]
  intro t ht
  have hother : ∀ t ∈ Ty.primitives, t.name.toList.all (· == 'a') = false := by decide
  simpa using ne_name (hother t ht) k

def record (k : Nat) : Record := (registry k).makeRecord (name k) [("x", field k), ("y", field k)]

theorem mem_registry {n : Nat} {r : Record} : r ∈ (registry n).records ↔ ∃ k < n, r = record k := by
  induction n with
  | zero => simp [registry]
  | succ n ih =>
    rw [registry, List.mem_append, ih, List.mem_singleton]
    simp only [Nat.lt_succ_iff_lt_or_eq, or_and_right, exists_or, exists_eq_left]
    rfl

/-- The name of a level is free until it is defined. -/
theorem get?_name (n : Nat) : (registry n).get? (name n) = none := by
  rw [Registry.get?, primitive?_name, Registry.find?, Option.map_eq_none_iff, List.find?_eq_none]
  intro r hr
  obtain ⟨k, hk, rfl⟩ := mem_registry.mp hr
  rw [decide_eq_true_eq]
  exact fun hname => Nat.ne_of_lt hk (name_injective hname)

theorem known_field {n : Nat} (h : Registry.Built (registry n)) : (registry n).Known (field n) := by
  cases n with
  | zero =>
    refine ⟨rfl, 117, [54, 52], .inl (by decide), List.all_eq_true.mp rfl, ?_, by decide⟩
    decide +kernel
  | succ k =>
    have hfind := h.find?_of_mem (mem_registry.mpr ⟨k, Nat.lt_succ_self k, rfl⟩)
    change (registry (k + 1)).find? (name k) = some (record k) at hfind
    refine ⟨?_, isName_name k⟩
    change (registry (k + 1)).get? (name k) = _
    rw [Registry.get?, primitive?_name, hfind]
    rfl

theorem defines (n : Nat) : Defines (registry n) ((registry n).records.map (⟨default, ·⟩)) := by
  induction n with
  | zero => exact .nil
  | succ n ih =>
    rw [registry, List.map_append]
    refine ih.concat (isName_name n) (fun f hf => ?_)
      (Registry.register?_eq_some.mpr ⟨get?_name n, rfl⟩)
    have hknown := known_field ih.built
    have hx : IsName "x" := ⟨120, [], .inl (by decide), nofun, by decide +kernel, by decide⟩
    have hy : IsName "y" := ⟨121, [], .inl (by decide), nofun, by decide +kernel, by decide⟩
    simp only [List.mem_cons, List.not_mem_nil, or_false] at hf
    rcases hf with rfl | rfl
    · exact ⟨hx, hknown⟩
    · exact ⟨hy, hknown⟩

theorem parse_text (n : Nat) (file : String) :
    ∃ rs, Parser.parse file (text n) = ⟨{ name := file, typedefs := rs }, registry n, #[], none⟩ := by
  have h := Parser.parse_typedefs (defines n) file
  rwa [List.map_map] at h

/-- A field of a level comes down to as many numbers as two to the level. -/
theorem leaves_field {n k : Nat} (h : k ≤ n) :
    (registry n).Leaves [field k] (List.replicate (2 ^ k) .u64) := by
  induction k with
  | zero => exact .primitive (by decide) .nil
  | succ k ih =>
    have hfind := (defines n).built.find?_of_mem (mem_registry.mpr ⟨k, h, rfl⟩)
    have hfields := (ih (Nat.le_of_succ_le h)).cons (ih (Nat.le_of_succ_le h))
    rw [List.replicate_append_replicate, ← Nat.two_mul, ← Nat.pow_succ'] at hfields
    have hrecord := Registry.Leaves.record hfind hfields .nil
    rw [List.append_nil] at hrecord
    exact hrecord

end Doubling

open Doubling Registry in
/-- A text that is read without a report defines a record whose bytes are two to the 32, and whose size
is zero. -/
theorem Parser.record_size_wraps :
    (parse "p" (text 29)).error = none ∧ (parse "p" (text 29)).diagnostics = #[] ∧
    ∃ r ∈ (parse "p" (text 29)).types.records, ∃ ls,
      (parse "p" (text 29)).types.Leaves (r.fields.map Prod.snd) ls ∧
      leafBytes ls = 2 ^ 32 ∧ r.size = 0 := by
  obtain ⟨rs, hparse⟩ := parse_text 29 "p"
  have hr : record 28 ∈ (registry 29).records := mem_registry.mpr ⟨28, by decide, rfl⟩
  have hleaves := (leaves_field (n := 29) (k := 28) (by decide)).cons
    (leaves_field (n := 29) (k := 28) (by decide))
  rw [List.replicate_append_replicate] at hleaves
  have hbytes : leafBytes (List.replicate (2 ^ 28 + 2 ^ 28) Ty.u64) = 2 ^ 32 := by
    rw [leafBytes, List.map_replicate, List.sum_replicate]
    rfl
  rw [hparse]
  refine ⟨rfl, rfl, record 28, hr, _, hleaves, hbytes, ?_⟩
  have hsize := ((defines 29).built.toNat_size hr).trans (hleaves.layout_eq (defines 29).built).1
  rw [hbytes] at hsize
  exact UInt32.toNat_inj.mp hsize

end RegisterLang
