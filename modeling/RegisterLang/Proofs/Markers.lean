import Mathlib.Data.List.Nodup
import Mathlib.Data.List.TakeWhile
import Mathlib.Data.Multiset.AddSub
import Mathlib.Data.Prod.Lex
import RegisterLang.Proofs.Headers
import RegisterLang.Proofs.ListingText

/-!
# The markers of a listing

A listing puts the markers of all table entries among the instructions that are decoded one after the
other. `Line.Before` says which of two lines has to come first, and the lines of every listing are in
this order: an instruction before a marker if its offset is smaller, and markers by their offsets,
functions before labels, and then by their indices. The markers may be kept in any heap. What the text
says is what these lines say.
-/
namespace RegisterLang
open Text

namespace Marker

/-- What markers are ordered by: the offset, functions before labels, and the index. -/
def key (m : Marker) : Nat ×ₗ Bool ×ₗ Nat := toLex (m.pos.toNat, toLex (m.label, m.index))

theorem key_injective : Function.Injective key := by
  rintro ⟨p, l, i⟩ ⟨q, k, j⟩ h
  simp only [key, EmbeddingLike.apply_eq_iff_eq, Prod.mk.injEq, UInt32.toNat_inj] at h
  obtain ⟨rfl, rfl, rfl⟩ := h
  rfl

theorem le_eq (a b : Marker) : a.le b = decide (a.key ≤ b.key) := by
  obtain ⟨p, l, i⟩ := a
  obtain ⟨q, k, j⟩ := b
  simp only [le, key, Prod.Lex.toLex_le_toLex, UInt32.toNat_inj, UInt32.lt_iff_toNat_lt]
  by_cases hpos : p = q
  · subst hpos
    cases l <;> cases k <;> simp
  · simp [hpos]

theorem pairwise_mergeSort (marks : List Marker) :
    (marks.mergeSort le).Pairwise fun a b => a.key ≤ b.key := by
  have hsorted : (marks.mergeSort le).Pairwise fun a b => a.le b = true := by
    apply List.pairwise_mergeSort
    · intro a b c hab hbc
      rw [le_eq, decide_eq_true_eq] at hab hbc ⊢
      exact hab.trans hbc
    · intro a b
      rw [le_eq, le_eq, Bool.or_eq_true, decide_eq_true_eq, decide_eq_true_eq]
      exact le_total _ _
  refine hsorted.imp fun {a b} hab => ?_
  rwa [le_eq, decide_eq_true_eq] at hab

def ofTable (label : Bool) (table : Array UInt32) : List Marker :=
  table.toList.zipIdx.map fun (pos, i) => Marker.mk pos label i

theorem mem_ofTable {label : Bool} {table : Array UInt32} {m : Marker} :
    m ∈ ofTable label table ↔ m.label = label ∧ table[m.index]? = some m.pos := by
  obtain ⟨p, l, i⟩ := m
  simp only [ofTable, List.mem_map, Prod.exists, List.mk_mem_zipIdx_iff_getElem?,
    Array.getElem?_toList, Marker.mk.injEq]
  constructor
  · rintro ⟨pos, k, htable, rfl, rfl, rfl⟩
    exact ⟨rfl, htable⟩
  · rintro ⟨rfl, htable⟩
    exact ⟨p, i, htable, rfl, rfl, rfl⟩

theorem nodup_ofTable (label : Bool) (table : Array UInt32) : (ofTable label table).Nodup := by
  have hindices : (ofTable label table).map Marker.index = List.range' 0 table.size := by
    rw [ofTable, List.map_map]
    exact (List.zipIdx_map_snd 0 table.toList).trans (by rw [Array.length_toList])
  exact List.Nodup.of_map Marker.index (hindices ▸ List.nodup_range')

end Marker

def Header.Marks (h : Header) (m : Marker) : Prop :=
  (if m.label then h.labels else h.functions)[m.index]? = some m.pos

instance (h : Header) : DecidablePred h.Marks := fun _ => inferInstanceAs (Decidable (_ = _))

namespace Marker
variable (h : Header)

theorem ofHeader_perm : (ofHeader h).Perm (ofTable false h.functions ++ ofTable true h.labels) :=
  List.mergeSort_perm _ _

theorem mem_ofHeader {m : Marker} : m ∈ ofHeader h ↔ h.Marks m := by
  rw [(ofHeader_perm h).mem_iff, List.mem_append, mem_ofTable, mem_ofTable, Header.Marks]
  cases m.label <;> simp

theorem nodup_ofHeader : (ofHeader h).Nodup := by
  rw [(ofHeader_perm h).nodup_iff, List.nodup_append]
  refine ⟨nodup_ofTable _ _, nodup_ofTable _ _, fun m hm m' hm' heq => ?_⟩
  rw [mem_ofTable] at hm hm'
  rw [heq, hm'.1] at hm
  cases hm.1

def Ordered (marks : List Marker) : Prop := marks.Pairwise fun a b => a.key < b.key

theorem ordered_ofHeader : Ordered (ofHeader h) :=
  ((pairwise_mergeSort _).and (nodup_ofHeader h)).imp fun {_ _} hab =>
    lt_of_le_of_ne hab.1 fun hkey => hab.2 (key_injective hkey)

theorem count_ofHeader (m : Marker) : (ofHeader h).count m = if h.Marks m then 1 else 0 := by
  split
  next hm => exact List.count_eq_one_of_mem (nodup_ofHeader h) ((mem_ofHeader h).mpr hm)
  next hm => exact List.count_eq_zero_of_not_mem (mt (mem_ofHeader h).mp hm)

end Marker

inductive Instr.Remaining (image : Image) : Nat → List (Nat × Instr) → Prop
  | stop : Remaining image image.size []
  | next {pc next : Nat} {x : Instr} {rest : List (Nat × Instr)} :
      decodeAt image pc = .ok (x, next) → Remaining image next rest →
      Remaining image pc ((pc, x) :: rest)

namespace Listing

/-- Which of two lines comes first. An instruction comes before the markers of larger offsets, and
after all others. -/
def Line.Before : Line → Line → Prop
  | .instr pc _, .instr pc' _ => pc < pc'
  | .instr pc _, .marker m => pc < m.pos.toNat
  | .marker m, .instr pc _ => m.pos.toNat ≤ pc
  | .marker m, .marker m' => m.key < m'.key

def Line.instr? : Line → Option (Nat × Instr)
  | .instr pc x => some (pc, x)
  | .marker _ => none

def Line.marker? : Line → Option Marker
  | .instr .. => none
  | .marker m => some m

/-- Lines that have the markers before the first instruction that is not before them. -/
inductive Merges (image : Image) : List Marker → Nat → List Line → Prop
  | stop {marks : List Marker} : Merges image marks image.size (marks.map .marker)
  | next {before after : List Marker} {pc next : Nat} {x : Instr} {body : List Line} :
      (∀ m ∈ before, m.pos.toNat ≤ pc) → (∀ m ∈ after, pc < m.pos.toNat) →
      Instr.decodeAt image pc = .ok (x, next) → Merges image after next body →
      Merges image (before ++ after) pc (before.map .marker ++ .instr pc x :: body)

/-- The markers up to an offset are taken from the front. -/
theorem marked_eq (acc : Array Line) (pc : Nat) (marks : List Marker) :
    marked acc pc marks =
      (acc ++ ((marks.takeWhile fun m => m.pos.toNat ≤ pc).map Line.marker).toArray,
        marks.dropWhile fun m => m.pos.toNat ≤ pc) := by
  induction marks generalizing acc with
  | nil => simp [marked]
  | cons m rest ih =>
    rw [marked]
    split
    next hm => simp [ih, hm]
    next hm => simp [hm]

section
variable {image : Image} {pc next : Nat} {x : Instr} {e : DecodeError} (hpc : pc < image.size)
  (acc : Array Line) (marks : List Marker)
include hpc

theorem lines_of_error (h : Instr.decodeAt image pc = .error e) :
    lines image acc marks pc = ((marked acc pc marks).1, some e) := by
  rw [lines, if_pos hpc]
  dsimp only
  split
  next h' =>
    cases h.symm.trans h'
    rfl
  next h' => cases h.symm.trans h'

theorem lines_of_ok (h : Instr.decodeAt image pc = .ok (x, next)) :
    lines image acc marks pc =
      lines image ((marked acc pc marks).1.push (.instr pc x)) (marked acc pc marks).2 next := by
  rw [lines, if_pos hpc]
  dsimp only
  split
  next h' => cases h.symm.trans h'
  next h' =>
    cases h.symm.trans h'
    rfl

end

theorem pos_le_of_key_lt {a b : Marker} (h : a.key < b.key) : a.pos.toNat ≤ b.pos.toNat := by
  rw [Marker.key, Marker.key, Prod.Lex.toLex_lt_toLex] at h
  rcases h with h | h
  · exact h.le
  · exact h.1.le

theorem lt_of_mem_dropWhile {marks : List Marker} (h : Marker.Ordered marks) {pc : Nat} {m : Marker}
    (hm : m ∈ marks.dropWhile fun m => m.pos.toNat ≤ pc) : pc < m.pos.toNat := by
  induction marks with
  | nil => cases hm
  | cons k rest ih =>
    obtain ⟨hk, hrest⟩ := List.pairwise_cons.mp h
    by_cases hle : k.pos.toNat ≤ pc
    · rw [List.dropWhile_cons_of_pos (by simpa using hle)] at hm
      exact ih hrest hm
    · rw [List.dropWhile_cons_of_neg (by simpa using hle)] at hm
      rcases List.mem_cons.mp hm with rfl | hm
      · omega
      · have := pos_le_of_key_lt (hk m hm)
        omega

/-- Lines that are made without an error merge the markers with the instructions. -/
theorem merges_of_lines {image : Image} {acc out : Array Line} {marks : List Marker} {pc : Nat}
    (hmarks : Marker.Ordered marks) (hpc : pc ≤ image.size)
    (h : lines image acc marks pc = (out, none)) :
    ∃ body, out.toList = acc.toList ++ body ∧ Merges image marks pc body := by
  induction hn : image.size - pc using Nat.strongRecOn generalizing acc marks pc with
  | ind n ih =>
    by_cases hlt : pc < image.size
    · cases hx : Instr.decodeAt image pc with
      | error e =>
        rw [lines_of_error hlt _ _ hx] at h
        cases h
      | ok r =>
        obtain ⟨x, next⟩ := r
        rw [lines_of_ok hlt _ _ hx, marked_eq] at h
        have hbounds := Instr.decodeAt_bounds hx
        obtain ⟨body, hout, hbody⟩ := ih (image.size - next) (by omega)
          (hmarks.sublist (List.dropWhile_sublist _)) hbounds.2 h rfl
        have hbefore : ∀ m ∈ marks.takeWhile fun m => m.pos.toNat ≤ pc, m.pos.toNat ≤ pc :=
          fun m hm => by simpa using List.mem_takeWhile_imp (p := fun m : Marker => m.pos.toNat ≤ pc) hm
        have hmerge := Merges.next hbefore (fun m hm => lt_of_mem_dropWhile hmarks hm) hx hbody
        rw [List.takeWhile_append_dropWhile] at hmerge
        refine ⟨_, ?_, hmerge⟩
        rw [hout]
        simp
    · rw [lines, if_neg hlt] at h
      obtain rfl : pc = image.size := by omega
      cases h
      exact ⟨marks.map .marker, by simp, .stop⟩

namespace Merges
variable {image : Image} {marks : List Marker} {pc : Nat} {body : List Line}

/-- Every line is one of the markers or an instruction from the offset on. -/
theorem mem (h : Merges image marks pc body) {line : Line} (hline : line ∈ body) :
    (∃ m ∈ marks, line = .marker m) ∨ ∃ pc' x, pc ≤ pc' ∧ line = .instr pc' x := by
  induction h with
  | stop =>
    obtain ⟨m, hm, rfl⟩ := List.mem_map.mp hline
    exact .inl ⟨m, hm, rfl⟩
  | @next before after pc next x body _ _ hx _ ih =>
    have hlt := (Instr.decodeAt_bounds hx).1
    rcases List.mem_append.mp hline with hline | hline
    · obtain ⟨m, hm, rfl⟩ := List.mem_map.mp hline
      exact .inl ⟨m, List.mem_append_left _ hm, rfl⟩
    · rcases List.mem_cons.mp hline with rfl | hline
      · exact .inr ⟨pc, x, Nat.le_refl pc, rfl⟩
      · rcases ih hline with ⟨m, hm, rfl⟩ | ⟨pc', x', hpc', rfl⟩
        · exact .inl ⟨m, List.mem_append_right _ hm, rfl⟩
        · exact .inr ⟨pc', x', by omega, rfl⟩

/-- No marker is lost or repeated. -/
theorem filterMap_marker? (h : Merges image marks pc body) : body.filterMap Line.marker? = marks := by
  have hmarkers : ∀ ms : List Marker, (ms.map Line.marker).filterMap Line.marker? = ms := by
    intro ms
    rw [List.filterMap_map]
    exact List.filterMap_some
  induction h with
  | stop => exact hmarkers _
  | next _ _ _ _ ih =>
    rw [List.filterMap_append, hmarkers, List.filterMap_cons_none rfl, ih]

/-- The instructions are those that are decoded one after the other. -/
theorem remaining (h : Merges image marks pc body) :
    Instr.Remaining image pc (body.filterMap Line.instr?) := by
  have hmarkers : ∀ ms : List Marker, (ms.map Line.marker).filterMap Line.instr? = [] := by
    intro ms
    simp [Line.instr?, List.filterMap_map]
  induction h with
  | stop =>
    rw [hmarkers]
    exact .stop
  | next _ _ hx _ ih =>
    rw [List.filterMap_append, hmarkers, List.nil_append]
    exact .next hx ih

theorem wellFormed (h : Merges image marks pc body) : ∀ line ∈ body, line.WellFormed := by
  have hmarkers : ∀ ms : List Marker, ∀ line ∈ ms.map Line.marker, line.WellFormed :=
    fun ms => List.forall_mem_map.mpr fun _ _ => trivial
  induction h with
  | stop => exact hmarkers _
  | next _ _ hx _ ih =>
    exact List.forall_mem_append.mpr ⟨hmarkers _,
      List.forall_mem_cons.mpr ⟨(Instr.decodeAt_holds hx).1, ih⟩⟩

/-- The lines are in order. -/
theorem pairwise (h : Merges image marks pc body) (hmarks : Marker.Ordered marks) :
    body.Pairwise Line.Before := by
  induction h with
  | stop => exact List.pairwise_map.mpr hmarks
  | @next before after pc next x body hbefore hafter hx hbody ih =>
    have hlt := (Instr.decodeAt_bounds hx).1
    obtain ⟨hfirst, hsecond, hcross⟩ := List.pairwise_append.mp hmarks
    refine List.pairwise_append.mpr ⟨List.pairwise_map.mpr hfirst,
      List.pairwise_cons.mpr ⟨fun line hline => ?_, ih hsecond⟩, fun line hline line' hline' => ?_⟩
    · rcases hbody.mem hline with ⟨m, hm, rfl⟩ | ⟨pc', x', hpc', rfl⟩
      · exact hafter m hm
      · exact Nat.lt_of_lt_of_le hlt hpc'
    · obtain ⟨m, hm, rfl⟩ := List.mem_map.mp hline
      rcases List.mem_cons.mp hline' with rfl | hline'
      · exact hbefore m hm
      · rcases hbody.mem hline' with ⟨m', hm', rfl⟩ | ⟨pc', x', hpc', rfl⟩
        · exact hcross m hm m' hm'
        · have hle := hbefore m hm
          change m.pos.toNat ≤ pc'
          omega

end Merges
end Listing

/-- A heap of markers, from which a least one is taken first and nothing is lost. -/
structure Heap where
  State : Type
  empty : State
  push : State → Marker → State
  pop? : State → Option (Marker × State)
  held : State → Multiset Marker
  held_empty : held empty = 0
  held_push : ∀ q m, held (push q m) = m ::ₘ held q
  held_of_none : ∀ q, pop? q = none → held q = 0
  held_of_some : ∀ q m q', pop? q = some (m, q') → held q = m ::ₘ held q'
  least : ∀ q m q', pop? q = some (m, q') → ∀ k ∈ held q, m.key ≤ k.key

namespace Heap
open Listing
variable (H : Heap)

def marked (pc : UInt32) (acc : Array Line) (q : H.State) : Array Line × H.State :=
  match h : H.pop? q with
  | none => (acc, q)
  | some (m, q') =>
    have : (H.held q').card < (H.held q).card := by
      rw [H.held_of_some q m q' h, Multiset.card_cons]
      exact Nat.lt_succ_self _
    if m.pos ≤ pc then marked pc (acc.push (.marker m)) q' else (acc, q)
termination_by (H.held q).card

def lines (image : Image) (acc : Array Line) (q : H.State) (pc : Nat) :
    Array Line × Option DecodeError :=
  if pc < image.size then
    let (acc, q) := H.marked pc.toUInt32 acc q
    match h : Instr.decodeAt image pc with
    | .error e => (acc, some e)
    | .ok (x, next) =>
      have := Instr.decodeAt_bounds h
      lines image (acc.push (.instr pc x)) q next
  else ((H.marked 0xffffffff acc q).1, none)
termination_by image.size - pc

def ofHeader (h : Header) : H.State :=
  (Marker.ofTable true h.labels).foldl H.push ((Marker.ofTable false h.functions).foldl H.push H.empty)

def listing (image : Image) : String × Option ListingError :=
  match Header.read image with
  | .error e => ("", some (.header e))
  | .ok h =>
    let (body, e) := H.lines image #[] (H.ofHeader h) h.code
    (magicText ++ tableText "funcs" h.functions ++ tableText "labels" h.labels ++
        String.join (body.toList.map Line.text),
      e.map .instr)

variable {H}

/-- What is taken from a heap is the first of the markers in order. -/
theorem pop?_of_held {q : H.State} {m : Marker} {marks : List Marker}
    (hq : H.held q = (m :: marks : List Marker)) (hmarks : Marker.Ordered (m :: marks)) :
    ∃ q', H.pop? q = some (m, q') ∧ H.held q' = (marks : List Marker) := by
  cases hpop : H.pop? q with
  | none =>
    have hnone := H.held_of_none q hpop
    rw [hq, Multiset.coe_eq_zero] at hnone
    cases hnone
  | some r =>
    obtain ⟨k, q'⟩ := r
    have hheld := H.held_of_some q k q' hpop
    have hkm : k.key ≤ m.key := H.least q k q' hpop m (by rw [hq]; simp)
    have hk : k ∈ m :: marks := by
      rw [← Multiset.mem_coe, ← hq, hheld]
      exact Multiset.mem_cons_self k _
    obtain rfl : k = m := by
      rcases List.mem_cons.mp hk with rfl | hk
      · rfl
      · exact absurd ((List.pairwise_cons.mp hmarks).1 k hk) (not_lt_of_ge hkm)
    refine ⟨q', rfl, ?_⟩
    rw [hq, ← Multiset.cons_coe] at hheld
    exact ((Multiset.cons_inj_right k).mp hheld).symm

theorem marked_of_none {q : H.State} (h : H.pop? q = none) (pc : UInt32) (acc : Array Line) :
    H.marked pc acc q = (acc, q) := by
  rw [marked]
  split
  · rfl
  next hsome => cases hsome.symm.trans h

theorem marked_of_some {q q' : H.State} {m : Marker} (h : H.pop? q = some (m, q')) (pc : UInt32)
    (acc : Array Line) :
    H.marked pc acc q =
      if m.pos.toNat ≤ pc.toNat then H.marked pc (acc.push (.marker m)) q' else (acc, q) := by
  rw [marked]
  split
  next hnone => cases hnone.symm.trans h
  next hsome =>
    cases hsome.symm.trans h
    simp only [UInt32.le_iff_toNat_le]

/-- Taking markers from a heap is taking them from the list of them in order. -/
theorem marked_eq {q : H.State} {marks : List Marker} (hq : H.held q = (marks : List Marker))
    (hmarks : Marker.Ordered marks) (pc : UInt32) (acc : Array Line) :
    (H.marked pc acc q).1 = (Listing.marked acc pc.toNat marks).1 ∧
      H.held (H.marked pc acc q).2 = ((Listing.marked acc pc.toNat marks).2 : List Marker) := by
  induction marks generalizing q acc with
  | nil =>
    have hpop : H.pop? q = none := by
      cases hpop : H.pop? q with
      | none => rfl
      | some r =>
        have hheld := H.held_of_some q r.1 r.2 hpop
        rw [hq] at hheld
        exact absurd hheld.symm Multiset.cons_ne_zero
    rw [marked_of_none hpop]
    exact ⟨rfl, hq⟩
  | cons m marks ih =>
    obtain ⟨q', hpop, hq'⟩ := pop?_of_held hq hmarks
    rw [marked_of_some hpop, Listing.marked]
    split
    · exact ih hq' (List.pairwise_cons.mp hmarks).2 (acc.push (.marker m))
    · exact ⟨rfl, hq⟩

section
variable {image : Image} {pc next : Nat} {x : Instr} {e : DecodeError} (hpc : pc < image.size)
  (acc : Array Line) (q : H.State)
include hpc

theorem lines_of_error (h : Instr.decodeAt image pc = .error e) :
    H.lines image acc q pc = ((H.marked pc.toUInt32 acc q).1, some e) := by
  rw [lines, if_pos hpc]
  dsimp only
  split
  next h' =>
    cases h.symm.trans h'
    rfl
  next h' => cases h.symm.trans h'

theorem lines_of_ok (h : Instr.decodeAt image pc = .ok (x, next)) :
    H.lines image acc q pc = H.lines image ((H.marked pc.toUInt32 acc q).1.push (.instr pc x))
      (H.marked pc.toUInt32 acc q).2 next := by
  rw [lines, if_pos hpc]
  dsimp only
  split
  next h' => cases h.symm.trans h'
  next h' =>
    cases h.symm.trans h'
    rfl

end

/-- The lines do not depend on the heap in which the markers are kept. -/
theorem lines_eq {image : Image} (hsize : image.size < 2 ^ 32) {q : H.State} {marks : List Marker}
    (hq : H.held q = (marks : List Marker)) (hmarks : Marker.Ordered marks) (acc : Array Line)
    (pc : Nat) :
    H.lines image acc q pc = Listing.lines image acc marks pc := by
  induction hn : image.size - pc using Nat.strongRecOn generalizing acc marks q pc with
  | ind n ih =>
    by_cases hlt : pc < image.size
    · -- the heap compares words, and every offset inside the image is one
      have hword : pc.toUInt32.toNat = pc := by
        rw [Nat.toUInt32_eq, UInt32.toNat_ofNat', Nat.mod_eq_of_lt (by omega)]
      obtain ⟨hlines, hleft⟩ := marked_eq hq hmarks pc.toUInt32 acc
      rw [hword] at hlines hleft
      cases hx : Instr.decodeAt image pc with
      | error e => rw [lines_of_error hlt _ _ hx, Listing.lines_of_error hlt _ _ hx, hlines]
      | ok r =>
        obtain ⟨x, next⟩ := r
        have hbounds := Instr.decodeAt_bounds hx
        have hordered : Marker.Ordered (Listing.marked acc pc marks).2 := by
          rw [Listing.marked_eq]
          exact hmarks.sublist (List.dropWhile_sublist _)
        rw [lines_of_ok hlt _ _ hx, Listing.lines_of_ok hlt _ _ hx, hlines]
        exact ih (image.size - next) (by omega) hleft hordered _ next rfl
    · -- behind the last instruction the bound is the largest word, which lets all markers pass
      obtain ⟨hlines, -⟩ := marked_eq hq hmarks 0xffffffff acc
      have hall : (marks.takeWhile fun m => m.pos.toNat ≤ (0xffffffff : UInt32).toNat) = marks := by
        rw [List.takeWhile_eq_self_iff]
        intro m _
        have := m.pos.toNat_lt
        simp
        omega
      rw [lines, Listing.lines, if_neg hlt, if_neg hlt, hlines, Listing.marked_eq, hall]
      apply congrArg (·, none)
      apply Array.toList_inj.mp
      simp

theorem held_foldl_push (ms : List Marker) (q : H.State) :
    H.held (ms.foldl H.push q) = H.held q + (ms : List Marker) := by
  induction ms generalizing q with
  | nil => simp
  | cons m ms ih =>
    rw [List.foldl_cons, ih, H.held_push, ← Multiset.cons_coe, Multiset.cons_add, Multiset.add_cons]

theorem held_ofHeader (h : Header) : H.held (H.ofHeader h) = (Marker.ofHeader h : List Marker) := by
  rw [ofHeader, held_foldl_push, held_foldl_push, H.held_empty, Multiset.zero_add,
    Multiset.coe_add, Multiset.coe_eq_coe]
  exact (Marker.ofHeader_perm h).symm

/-- A listing does not depend on the heap in which the markers are kept. -/
theorem listing_eq {image : Image} (hsize : image.size < 2 ^ 32) : H.listing image = image.listing := by
  rw [listing, Image.listing]
  cases Header.read image with
  | error e => rfl
  | ok h =>
    dsimp only
    rw [lines_eq hsize (held_ofHeader h) (Marker.ordered_ofHeader h)]

end Heap

namespace Listing

/-- A marker is counted among the markers alone. -/
theorem count_marker (body : List Line) (m : Marker) :
    body.count (.marker m) = (body.filterMap Line.marker?).count m := by
  induction body with
  | nil => rfl
  | cons line rest ih =>
    cases line with
    | marker k =>
      change (Line.marker k :: rest).count (.marker m) = (k :: rest.filterMap Line.marker?).count m
      rw [List.count_cons, List.count_cons, ih]
      simp
    | instr pc x =>
      rw [List.filterMap_cons_none rfl, List.count_cons, ih]
      simp

end Listing

open Listing in
/-- What a complete listing is made of. -/
theorem Image.listing_complete {image : Image} (h : image.listing.2 = none) :
    ∃ (header : Header) (out : Array Line), Header.read image = .ok header ∧
      lines image #[] (Marker.ofHeader header) header.code = (out, none) ∧
      image.listing.1 = magicText ++ tableText "funcs" header.functions ++
        tableText "labels" header.labels ++ String.join (out.toList.map Line.text) := by
  rw [listing] at h ⊢
  cases hread : Header.read image with
  | error e =>
    rw [hread] at h
    cases h
  | ok header =>
    rw [hread] at h
    refine ⟨header, _, rfl, Prod.ext rfl (Option.map_eq_none_iff.mp h), rfl⟩

open Listing in
/-- Every listing that is complete shows the instructions from the first to the end of the image, one
after the other, and the marker of every table entry once and of nothing else. Its lines are in order,
its text says word by word what they say, and it is the same for every heap in which the markers are
kept. -/
theorem listing_marks (H : Heap) {image : Image} (hsize : image.size < 2 ^ 32)
    (hcomplete : image.listing.2 = none) :
    H.listing image = image.listing ∧
    ∃ (header : Header) (body : List Line), Header.read image = .ok header ∧
      image.listing.1 = magicText ++ tableText "funcs" header.functions ++
        tableText "labels" header.labels ++ String.join (body.map Line.text) ∧
      entries image.listing.1.toList = body.map Line.words ∧
      Instr.Remaining image header.code (body.filterMap Line.instr?) ∧
      (∀ m, body.count (.marker m) = if header.Marks m then 1 else 0) ∧
      body.Pairwise Line.Before := by
  refine ⟨Heap.listing_eq hsize, ?_⟩
  obtain ⟨header, out, hread, hlines, htext⟩ := Image.listing_complete hcomplete
  have hordered := Marker.ordered_ofHeader header
  obtain ⟨body, hbody, hmerges⟩ := merges_of_lines hordered (Header.code_le_size hread) hlines
  obtain rfl : out.toList = body := hbody
  refine ⟨header, out.toList, hread, htext, ?_, hmerges.remaining, fun m => ?_,
    hmerges.pairwise hordered⟩
  · rw [htext, entries_listing _ _ hmerges.wellFormed]
  · rw [count_marker, hmerges.filterMap_marker?, Marker.count_ofHeader]

def Heap.sorting : Heap where
  State := List Marker
  empty := []
  push q m := m :: q
  pop? q :=
    match q.mergeSort Marker.le with
    | [] => none
    | m :: rest => some (m, rest)
  held q := q
  held_empty := rfl
  held_push _ _ := rfl
  held_of_none q h := by
    split at h
    next hsort =>
      rw [Multiset.coe_eq_zero]
      exact List.nil_perm.mp (hsort ▸ List.mergeSort_perm q Marker.le)
    · cases h
  held_of_some q m q' h := by
    split at h
    · cases h
    next hsort =>
      cases h
      rw [Multiset.cons_coe, Multiset.coe_eq_coe, ← hsort]
      exact (List.mergeSort_perm q Marker.le).symm
  least q m q' h k hk := by
    split at h
    · cases h
    next hsort =>
      cases h
      have hsorted := Marker.pairwise_mergeSort q
      rw [hsort] at hsorted
      rw [Multiset.mem_coe, ← (List.mergeSort_perm q Marker.le).mem_iff, hsort] at hk
      rcases List.mem_cons.mp hk with rfl | hk
      · exact le_refl _
      · exact (List.pairwise_cons.mp hsorted).1 k hk

def scattered : Image :=
  Header.ofWords [2, 0, 52, 1, 0, 3, 0, 54, 1, 52, 2, 1000, 0x3010003, 0xbc800, 2]

open Listing in
def scatteredLines : List Line :=
  [.marker ⟨0, false, 1⟩, .marker ⟨52, false, 0⟩, .marker ⟨52, true, 1⟩, .instr 52 (.set .u8 3 200),
    .marker ⟨54, true, 0⟩, .instr 58 (.jump .jmp 2), .marker ⟨1000, true, 2⟩]

open Listing in
/-- All five markers stand in a listing whose offsets are out of order and meet no instruction. -/
theorem listing_marks_scattered :
    scattered.size < 2 ^ 32 ∧ scattered.listing.2 = none ∧
    Heap.sorting.listing scattered = scattered.listing ∧
    entries scattered.listing.1.toList = [["func#1:"], ["func#0:"], ["L1:"],
      ["0034", "set", "u8", "r3", "200"], ["L0:"], ["003a", "jmp", "L2"], ["L2:"]] ∧
    ∃ body : List Line, entries scattered.listing.1.toList = body.map Line.words ∧
      Instr.Remaining scattered 52 (body.filterMap Line.instr?) ∧
      (∀ m ∈ [⟨0, false, 1⟩, ⟨52, false, 0⟩, ⟨52, true, 1⟩, ⟨54, true, 0⟩, ⟨1000, true, 2⟩],
        body.count (.marker m) = 1) ∧
      body.Pairwise Line.Before := by
  have hsize : scattered.size < 2 ^ 32 := by decide
  have hheader : Header.read scattered = .ok ⟨#[52, 0], #[54, 52, 1000], 52⟩ := by decide
  have hmarks : Marker.ofHeader ⟨#[52, 0], #[54, 52, 1000], 52⟩ = [⟨0, false, 1⟩, ⟨52, false, 0⟩,
      ⟨52, true, 1⟩, ⟨54, true, 0⟩, ⟨1000, true, 2⟩] := by
    refine (Marker.ofHeader_perm _).trans (by decide) |>.eq_of_pairwise ?_
      (Marker.ordered_ofHeader _) (by decide)
    exact fun a b _ _ hab hba => absurd (hab.trans hba) (lt_irrefl _)
  have hlines : lines scattered #[] (Marker.ofHeader ⟨#[52, 0], #[54, 52, 1000], 52⟩) 52 =
      (scatteredLines.toArray, none) := by
    rw [hmarks]
    decide +kernel
  have hcomplete : scattered.listing.2 = none := by
    rw [Image.listing, hheader]
    dsimp only
    rw [hlines]
    rfl
  obtain ⟨hheap, header, body, hread, -, hwords, hfollows, hcount, horder⟩ :=
    listing_marks Heap.sorting hsize hcomplete
  cases hheader.symm.trans hread
  refine ⟨hsize, hcomplete, hheap, ?_, body, hwords, hfollows, fun m hm => ?_, horder⟩
  · obtain ⟨_, _, hread', hlines', htext⟩ := Image.listing_complete hcomplete
    cases hheader.symm.trans hread'
    cases hlines.symm.trans hlines'
    rw [htext, entries_listing _ _ (by decide)]
    decide
  · rw [hcount, if_pos]
    revert m
    decide

end RegisterLang
