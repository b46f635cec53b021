import Mathlib.Data.List.Induction
import RegisterLang.Proofs.Access

/-!
# Which images have a header

What reading a header asks of an image, condition by condition: the fixed bytes, and for each of the
two tables its count, room for as many entries, and indices below the count. An image is accepted if
all of them hold, and otherwise the first that does not hold is the error. In the tables that are
read, a later entry of an index takes the place of an earlier one.
-/
namespace RegisterLang
open Text

def firstFailure {ε : Type} (conditions : List (Bool × ε)) : Option ε :=
  (conditions.find? fun c => !c.1).map Prod.snd

section
variable {ε ε' : Type}

@[simp] theorem firstFailure_cons (holds : Bool) (e : ε) (rest : List (Bool × ε)) :
    firstFailure ((holds, e) :: rest) = if holds then firstFailure rest else some e := by
  cases holds <;> rfl

theorem firstFailure_append (cs ds : List (Bool × ε)) :
    firstFailure (cs ++ ds) = (firstFailure cs).or (firstFailure ds) := by
  simp only [firstFailure, List.find?_append]
  cases cs.find? fun c => !c.1 <;> rfl

theorem firstFailure_map (f : ε → ε') (cs : List (Bool × ε)) :
    firstFailure (cs.map fun c => (c.1, f c.2)) = (firstFailure cs).map f := by
  simp only [firstFailure, List.find?_map, Option.map_map]
  rfl

theorem firstFailure_eq_none {cs : List (Bool × ε)} :
    firstFailure cs = none ↔ ∀ c ∈ cs, c.1 = true := by
  simp [firstFailure]

end

namespace Image

def count (image : Image) (start : Nat) : Nat := image.number 4 start

def indexAt (image : Image) (start k : Nat) : Nat := image.number 4 (start + 4 + 8 * k)

def offsetAt (image : Image) (start k : Nat) : UInt32 :=
  (image.number 4 (start + 4 + 8 * k + 4)).toUInt32

/-- The offset in the last entry of an index, zero if no entry has the index. -/
def lastOffset (image : Image) (start index : Nat) : UInt32 :=
  (((List.range (image.count start)).reverse.find? fun k => image.indexAt start k = index).map
    (image.offsetAt start)).getD 0

def labelsStart (image : Image) : Nat := 8 + 8 * image.count tablesStart

/-- A table lies at `start`: its count, as many entries, and no index that is too large. -/
structure HasTable (image : Image) (start : Nat) : Prop where
  count : start + 4 ≤ image.size
  entries : 8 * image.count start ≤ image.size - (start + 4)
  indices : ∀ k, k < image.count start → image.indexAt start k < image.count start

structure HasHeader (image : Image) : Prop where
  magic : Image.magic <+: image.toList
  functions : image.HasTable tablesStart
  labels : image.HasTable image.labelsStart

def entryCondition (image : Image) (start k : Nat) : Bool × TableError :=
  (image.indexAt start k < image.count start,
    .badIndex k (image.indexAt start k) (image.count start))

def tableConditions (image : Image) (start : Nat) : List (Bool × TableError) :=
  (decide (start + 4 ≤ image.size), .noCount) ::
    (decide (8 * image.count start ≤ image.size - (start + 4)), .short (image.count start)) ::
    (List.range (image.count start)).map (image.entryCondition start)

/-- What is asked of a header, in the order of reading. -/
def headerConditions (image : Image) : List (Bool × HeaderError) :=
  (decide (Image.magic <+: image.toList), .badMagic) ::
    ((image.tableConditions tablesStart).map fun c => (c.1, HeaderError.functions c.2)) ++
    (image.tableConditions image.labelsStart).map fun c => (c.1, HeaderError.labels c.2)

variable {image : Image} {start : Nat}

theorem hasTable_iff : image.HasTable start ↔ ∀ c ∈ image.tableConditions start, c.1 = true := by
  simp only [tableConditions, List.forall_mem_cons, List.forall_mem_map, List.mem_range,
    entryCondition, decide_eq_true_eq]
  exact ⟨fun h => ⟨h.count, h.entries, h.indices⟩, fun h => ⟨h.1, h.2.1, h.2.2⟩⟩

theorem hasHeader_iff : image.HasHeader ↔ ∀ c ∈ image.headerConditions, c.1 = true := by
  simp only [headerConditions, List.cons_append, List.forall_mem_cons, List.forall_mem_append,
    List.forall_mem_map, decide_eq_true_eq]
  exact ⟨fun h => ⟨h.magic, hasTable_iff.mp h.functions, hasTable_iff.mp h.labels⟩,
    fun h => ⟨h.1, hasTable_iff.mpr h.2.1, hasTable_iff.mpr h.2.2⟩⟩

def place (image : Image) (start : Nat) (table : Array UInt32) (k : Nat) : Array UInt32 :=
  table.setIfInBounds (image.indexAt start k) (image.offsetAt start k)

@[simp] theorem size_place (table : Array UInt32) (k : Nat) :
    (image.place start table k).size = table.size := Array.size_setIfInBounds

theorem size_foldl_place (ks : List Nat) (table : Array UInt32) :
    (ks.foldl (image.place start) table).size = table.size := by
  induction ks generalizing table with
  | nil => rfl
  | cons k ks ih => rw [List.foldl_cons, ih, size_place]

/-- What is put in an index last stays there. -/
theorem getElem?_foldl_place (ks : List Nat) (table : Array UInt32) (index : Nat) :
    (ks.foldl (image.place start) table)[index]? = table[index]?.map fun old =>
      ((ks.reverse.find? fun k => image.indexAt start k = index).map
        (image.offsetAt start)).getD old := by
  induction ks using List.reverseRecOn with
  | nil => simp
  | append_singleton ks k ih =>
    rw [List.foldl_append, List.foldl_cons, List.foldl_nil, List.reverse_append,
      List.reverse_singleton, List.singleton_append, List.find?_cons, place,
      Array.getElem?_setIfInBounds]
    by_cases hk : image.indexAt start k = index
    · simp only [hk, decide_true, if_true, size_foldl_place]
      by_cases hindex : index < table.size
      · simp [hindex]
      · simp [hindex]
    · simp only [hk, decide_false, if_false]
      exact ih

end Image

namespace Header
variable {image : Image} {start : Nat}

/-- Entries are put in their places until one has an index that is too large. -/
theorem readEntries_eq {left : Nat} (hleft : left ≤ image.count start) (table : Array UInt32) :
    readEntries image (image.count start) left (start + 4 + 8 * (image.count start - left)) table =
      match firstFailure ((List.range' (image.count start - left) left).map
        (image.entryCondition start)) with
      | some e => .error e
      | none => .ok ((List.range' (image.count start - left) left).foldl (image.place start) table) := by
  induction left generalizing table with
  | zero => rfl
  | succ left ih =>
    generalize hk : image.count start - (left + 1) = k
    have hnext : image.count start - left = k + 1 := by omega
    have hoffset : start + 4 + 8 * k + Image.entrySize = start + 4 + 8 * (k + 1) := by
      simp only [Image.entrySize]
      omega
    have hrest := ih (by omega) (image.place start table k)
    rw [hnext] at hrest
    rw [readEntries, List.range'_succ, List.map_cons, List.foldl_cons, Image.entryCondition,
      firstFailure_cons, hoffset]
    change (if image.count start ≤ image.indexAt start k then _
      else readEntries image _ left _ (image.place start table k)) = _
    by_cases hindex : image.indexAt start k < image.count start
    · rw [if_neg (by omega), hrest, decide_eq_true hindex, if_pos rfl]
    · rw [if_pos (by omega), decide_eq_false hindex, if_neg (by simp),
        show image.count start - left - 1 = k by omega]
      rfl

def tableAt (image : Image) (start : Nat) : Array UInt32 :=
  (List.range (image.count start)).foldl (image.place start)
    (Array.replicate (image.count start) 0)

theorem readTable_eq (image : Image) (start : Nat) :
    readTable image start =
      match firstFailure (image.tableConditions start) with
      | some e => .error e
      | none => .ok (tableAt image start, start + 4 + 8 * image.count start) := by
  have hentries := readEntries_eq (Nat.le_refl (image.count start))
    (Array.replicate (image.count start) 0)
  rw [Nat.sub_self, Nat.mul_zero, Nat.add_zero, ← List.range_eq_range'] at hentries
  rw [readTable, Image.tableConditions, firstFailure_cons, firstFailure_cons]
  simp only [show image.number 4 start = image.count start from rfl, Image.entrySize, hentries]
  by_cases hcount : start + 4 ≤ image.size
  · rw [if_neg (by omega), decide_eq_true hcount, if_pos rfl]
    by_cases hroom : 8 * image.count start ≤ image.size - (start + 4)
    · rw [if_neg (by omega), decide_eq_true hroom, if_pos rfl, Nat.mul_comm _ 8]
      cases firstFailure ((List.range (image.count start)).map (image.entryCondition start)) <;> rfl
    · rw [if_pos (by omega), decide_eq_false hroom]
      rfl
  · rw [if_pos (by omega), decide_eq_false hcount]
    rfl

theorem take_eq_magic_iff (image : Image) :
    (image.take 4).toList = Image.magic ↔ Image.magic <+: image.toList := by
  have htake : (image.take 4).toList = image.toList.take 4 := by simp
  rw [htake, List.prefix_iff_eq_take, eq_comm]
  rfl

/-- A header is read if all conditions hold, and otherwise the first that does not is the error. -/
theorem read_eq (image : Image) :
    read image =
      match firstFailure image.headerConditions with
      | some e => .error e
      | none => .ok
          { functions := tableAt image Image.tablesStart
            labels := tableAt image image.labelsStart
            code := 12 + 8 * (image.count Image.tablesStart + image.count image.labelsStart) } := by
  have hlabels : Image.tablesStart + 4 + 8 * image.count Image.tablesStart = image.labelsStart := rfl
  have hcode : image.labelsStart + 4 + 8 * image.count image.labelsStart =
      12 + 8 * (image.count Image.tablesStart + image.count image.labelsStart) := by
    rw [← hlabels, Image.tablesStart]
    omega
  rw [read, Image.headerConditions, firstFailure_append, firstFailure_cons, firstFailure_map,
    firstFailure_map, readTable_eq]
  by_cases hmagic : Image.magic <+: image.toList
  · rw [if_neg (not_not_intro ((take_eq_magic_iff image).mpr hmagic)), decide_eq_true hmagic,
      if_pos rfl]
    cases firstFailure (image.tableConditions Image.tablesStart) with
    | some e => rfl
    | none =>
      dsimp only
      rw [hlabels, readTable_eq, hcode]
      cases firstFailure (image.tableConditions image.labelsStart) <;> rfl
  · rw [if_pos (mt (take_eq_magic_iff image).mp hmagic), decide_eq_false hmagic]
    rfl

theorem size_tableAt (image : Image) (start : Nat) :
    (tableAt image start).size = image.count start := by
  rw [tableAt, Image.size_foldl_place, Array.size_replicate]

theorem getElem?_tableAt {image : Image} {start k : Nat} (hk : k < image.count start) :
    (tableAt image start)[k]? = some (image.lastOffset start k) := by
  rw [tableAt, Image.getElem?_foldl_place, Array.getElem?_replicate, if_pos hk]
  rfl

theorem code_le_size {image : Image} {h : Header} (hread : read image = .ok h) :
    h.code ≤ image.size := by
  rw [read_eq] at hread
  split at hread
  · cases hread
  next hnone =>
    cases hread
    have hlabels := (Image.hasHeader_iff.mpr (firstFailure_eq_none.mp hnone)).labels
    have hcount := hlabels.count
    have hentries := hlabels.entries
    have hstart : image.labelsStart = 8 + 8 * image.count Image.tablesStart := rfl
    dsimp only
    omega

/-- A header is read from exactly the images that have one, and no byte outside the image is looked
at. The tables hold the last offset of each index, and the instructions begin after them. Where there
is no header, the error is that of the first condition that does not hold. -/
theorem read_exactly (image : Image) :
    Machine.Guarded.readHeader? image = .ofExcept (read image) ∧
    ((∃ h, read image = .ok h) ↔ image.HasHeader) ∧
    (∀ h, read image = .ok h →
      h.functions.size = image.count Image.tablesStart ∧
      h.labels.size = image.count image.labelsStart ∧
      (∀ k, k < h.functions.size →
        h.functions[k]? = some (image.lastOffset Image.tablesStart k)) ∧
      (∀ k, k < h.labels.size → h.labels[k]? = some (image.lastOffset image.labelsStart k)) ∧
      h.code = 12 + 8 * (h.functions.size + h.labels.size) ∧ h.code ≤ image.size) ∧
    ∀ e, read image = .error e → firstFailure image.headerConditions = some e := by
  refine ⟨Machine.Guarded.readHeader?_eq image, ?_, fun h hread => ?_, fun e hread => ?_⟩
  · rw [Image.hasHeader_iff, ← firstFailure_eq_none, read_eq]
    cases firstFailure image.headerConditions <;> simp
  · have hcode := code_le_size hread
    rw [read_eq] at hread
    split at hread
    · cases hread
    · cases hread
      simp only [size_tableAt, true_and]
      exact ⟨fun k hk => getElem?_tableAt hk, fun k hk => getElem?_tableAt hk, hcode⟩
  · rw [read_eq] at hread
    split at hread
    next hsome => rw [hsome, Except.error.inj hread]
    · cases hread

def ofWords (words : List Nat) : Image := (Image.magic ++ words.flatMap (littleEndian 4)).toArray

/-- Two entries of one index and none of the other, and a table that is wrong in two ways. -/
theorem read_exactly_repeated :
    ((ofWords [2, 1, 5, 1, 9, 0]).HasHeader ∧ ∃ h, read (ofWords [2, 1, 5, 1, 9, 0]) = .ok h ∧
      h.functions[0]? = some 0 ∧ h.functions[1]? = some 9 ∧ h.code = 28) ∧
    ¬ (ofWords [1, 7, 5]).HasHeader ∧
    firstFailure (ofWords [1, 7, 5]).headerConditions = some (.functions (.badIndex 0 7 1)) := by
  have hread : read (ofWords [2, 1, 5, 1, 9, 0]) = .ok ⟨#[0, 9], #[], 28⟩ := by decide
  have hfail : read (ofWords [1, 7, 5]) = .error (.functions (.badIndex 0 7 1)) := by decide
  obtain ⟨-, hiff, htables, -⟩ := read_exactly (ofWords [2, 1, 5, 1, 9, 0])
  obtain ⟨-, hiff', -, herror⟩ := read_exactly (ofWords [1, 7, 5])
  refine ⟨⟨hiff.mp ⟨_, hread⟩, _, hread, ?_⟩, ?_, herror _ hfail⟩
  · obtain ⟨-, -, hfunctions, -, hcode, -⟩ := htables _ hread
    exact ⟨hfunctions 0 (by decide), hfunctions 1 (by decide), hcode⟩
  · rw [← hiff', hfail]
    simp

end Header
end RegisterLang
