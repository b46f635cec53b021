import Mathlib.Logic.Function.Basic
import RegisterLang.Code.Builder
import RegisterLang.Proofs.Encoding

/-!
# The tables of an image

What writing to an image and appending to it leave where they were, and what a builder has written:
`Builder.Represents` says which offsets its tables hold and which bytes of code follow them. Reading
the header of such an image gives the same offsets.
-/
namespace RegisterLang
open Text

theorem littleEndian_mod (width n : Nat) : littleEndian width (n % 256 ^ width) = littleEndian width n := by
  induction width generalizing n with
  | zero => rfl
  | succ width ih =>
    rw [littleEndian, littleEndian, Nat.pow_succ', Nat.mod_mul_right_div_self, ih,
      Nat.mod_mul_right_mod]

theorem littleEndian_lowWord (n : Nat) : littleEndian 4 (lowWord n) = littleEndian 4 n := by
  have h : lowWord n = n % 256 ^ 4 := by
    unfold lowWord
    omega
  rw [h, littleEndian_mod]

namespace Image

theorem getElem?_write (image : Image) (offset : Nat) (bytes : Bytes) (j : Nat) :
    (image.write offset bytes)[j]? =
      if offset ≤ j ∧ j < offset + bytes.length ∧ j < image.size then bytes[j - offset]?
      else image[j]? := by
  induction bytes generalizing image offset with
  | nil => rw [write, if_neg (by simp; omega)]
  | cons b rest ih =>
    rw [write, ih, Array.size_setIfInBounds, Array.getElem?_setIfInBounds, List.length_cons]
    by_cases hj : j = offset
    · subst hj
      simp only [Nat.sub_self, List.getElem?_cons_zero]
      split <;> split <;> grind
    · split <;> grind

theorem size_write (image : Image) (offset : Nat) (bytes : Bytes) :
    (image.write offset bytes).size = image.size := by
  induction bytes generalizing image offset with
  | nil => rfl
  | cons b rest ih => rw [write, ih, Array.size_setIfInBounds]

variable {image : Image} {offset : Nat}

/-- What was written lies there. -/
theorem holds_write {bytes : Bytes} (h : offset + bytes.length ≤ image.size) :
    (image.write offset bytes).Holds offset bytes := by
  intro i hi
  rw [getElem?_write, if_pos ⟨by omega, by omega, by omega⟩, Nat.add_sub_cancel_left]

/-- Bytes beside what is written stay. -/
theorem Holds.write {bytes new : Bytes} {at' : Nat} (h : image.Holds offset bytes)
    (hd : offset + bytes.length ≤ at' ∨ at' + new.length ≤ offset) :
    (image.write at' new).Holds offset bytes := by
  intro i hi
  rw [getElem?_write, if_neg (by omega)]
  exact h i hi

theorem size_append (image : Image) (bytes : Bytes) :
    (image ++ bytes).size = image.size + bytes.length := by
  rw [← Array.length_toList, Array.toList_appendList, List.length_append, Array.length_toList]

theorem Holds.append {bytes : Bytes} (h : image.Holds offset bytes) (new : Bytes) :
    Holds (image ++ new) offset bytes := by
  intro i hi
  have hb := h i hi
  rw [List.getElem?_eq_getElem hi] at hb ⊢
  have hlt := (Array.getElem?_eq_some_iff.mp hb).1
  rw [← hb, ← Array.getElem?_toList, ← Array.getElem?_toList, Array.toList_appendList,
    List.getElem?_append_left (by simpa using hlt)]

/-- What was appended lies at the end. -/
theorem holds_appended (image : Image) (bytes : Bytes) :
    Holds (image ++ bytes) image.size bytes := by
  intro i hi
  rw [← Array.getElem?_toList, Array.toList_appendList, List.getElem?_append_right (by simp)]
  simp

/-- Among pieces of the same length each lies at its multiple of it. -/
theorem Holds.piece {f : Nat → Bytes} {size n : Nat} (hf : ∀ i, (f i).length = size)
    (h : image.Holds offset ((List.range n).flatMap f)) {i : Nat} (hi : i < n) :
    image.Holds (offset + size * i) (f i) := by
  induction n with
  | zero => omega
  | succ n ih =>
    have hlen : ((List.range n).flatMap f).length = size * n := by
      simp [List.length_flatMap, hf, List.map_const', Nat.mul_comm]
    rw [List.range_succ, List.flatMap_append, holds_append, hlen] at h
    by_cases hin : i < n
    · exact ih h.1 hin
    · obtain rfl : i = n := by omega
      simpa using h.2

end Image

def entry (index offset : Nat) : Bytes := littleEndian 4 index ++ littleEndian 4 offset

@[simp] theorem entry_length (index offset : Nat) : (entry index offset).length = 8 := by
  simp [entry, littleEndian_length]

structure Image.HoldsTable (image : Image) (start n : Nat) (offsets : Nat → Nat) : Prop where
  count : image.Holds start (littleEndian 4 n)
  entries : ∀ i, i < n → image.Holds (start + 4 + 8 * i) (entry i (offsets i))

namespace Image.HoldsTable
variable {image : Image} {start n : Nat} {offsets : Nat → Nat}

theorem append (h : image.HoldsTable start n offsets) (new : Bytes) :
    HoldsTable (image ++ new) start n offsets :=
  ⟨h.count.append new, fun i hi => (h.entries i hi).append new⟩

/-- A table stays if something else is written. -/
theorem write (h : image.HoldsTable start n offsets) {at' : Nat} {new : Bytes}
    (hd : start + 4 + 8 * n ≤ at' ∨ at' + new.length ≤ start) :
    HoldsTable (image.write at' new) start n offsets := by
  refine ⟨h.count.write ?_, fun i hi => (h.entries i hi).write ?_⟩
  · rw [littleEndian_length]
    omega
  · rw [entry_length]
    omega

/-- The table after the offset of an entry is written. -/
theorem set (h : image.HoldsTable start n offsets) (hsize : start + 4 + 8 * n ≤ image.size)
    {i : Nat} (hi : i < n) (offset : Nat) :
    HoldsTable (image.write (start + 4 + i * 8 + 4) (littleEndian 4 offset)) start n
      (Function.update offsets i offset) := by
  have hlen := littleEndian_length 4 offset
  refine ⟨h.count.write (by rw [littleEndian_length]; omega), fun j hj => ?_⟩
  by_cases hji : j = i
  · subst hji
    have hold := h.entries j hj
    rw [entry, Image.holds_append, littleEndian_length] at hold
    rw [entry, Image.holds_append, littleEndian_length, Function.update_self]
    refine ⟨hold.1.write (by rw [littleEndian_length]; omega), ?_⟩
    rw [Nat.mul_comm j 8]
    exact Image.holds_write (by rw [hlen]; omega)
  · rw [Function.update_of_ne hji]
    exact (h.entries j hj).write (by rw [entry_length, hlen]; omega)

/-- The table that a builder begins with. -/
theorem ofEmpty (h : image.Holds start (Builder.emptyTable n)) :
    image.HoldsTable start n fun _ => 0 := by
  rw [Builder.emptyTable, Image.holds_append, littleEndian_lowWord, littleEndian_length,
    Int.toNat_natCast] at h
  exact ⟨h.1, fun i hi => Image.Holds.piece (fun i => entry_length i 0) h.2 hi⟩

end Image.HoldsTable

namespace Builder

@[simp] theorem emptyTable_length (n : Nat) : (emptyTable n).length = 4 + 8 * n := by
  rw [emptyTable, List.length_append, littleEndian_length, Int.toNat_natCast]
  congr 1
  induction n with
  | zero => rfl
  | succ n ih =>
    rw [List.range_succ, List.flatMap_append, List.length_append, ih]
    simp [littleEndian_length]
    omega

/-- What a builder has written: tables with these offsets, and the code after them. -/
structure Represents (b : Builder) (functions labels : Nat) (F L : Nat → Nat) (code : Bytes) :
    Prop where
  functions_eq : b.functions = functions
  labels_eq : b.labels = labels
  magic : b.image.Holds 0 Image.magic
  functionTable : b.image.HoldsTable 4 functions F
  labelTable : b.image.HoldsTable (8 + 8 * functions) labels L
  code_holds : b.image.Holds (12 + 8 * functions + 8 * labels) code
  size_eq : b.size = 12 + 8 * functions + 8 * labels + code.length

theorem represents_make (capacity : Int) (functions labels : Nat) :
    (make capacity functions labels).Represents functions labels (fun _ => 0) (fun _ => 0) [] := by
  have himage : (make capacity functions labels).image =
      (#[] : Image) ++ Image.magic ++ emptyTable functions ++ emptyTable labels := rfl
  have hmagic : ((#[] : Image) ++ Image.magic).size = 4 := rfl
  have hfun : ((#[] : Image) ++ Image.magic ++ emptyTable functions).size = 8 + 8 * functions := by
    rw [Image.size_append, hmagic, emptyTable_length]
    omega
  refine ⟨rfl, rfl, ?_, ?_, ?_, Image.holds_nil, ?_⟩
  · rw [himage]
    exact (Image.Holds.append (Image.holds_appended #[] _) _).append _
  · rw [himage]
    exact (Image.HoldsTable.ofEmpty (hmagic ▸ Image.holds_appended _ _)).append _
  · rw [himage]
    exact Image.HoldsTable.ofEmpty (hfun ▸ Image.holds_appended _ _)
  · rw [size, himage, Image.size_append, hfun, emptyTable_length, List.length_nil]
    omega

namespace Represents
variable {b : Builder} {functions labels : Nat} {F L : Nat → Nat} {code : Bytes}

theorem append (h : b.Represents functions labels F L code) (bytes : Bytes) :
    (b.append bytes).Represents functions labels F L (code ++ bytes) := by
  refine ⟨h.functions_eq, h.labels_eq, h.magic.append bytes, h.functionTable.append bytes,
    h.labelTable.append bytes, ?_, ?_⟩
  · refine Image.holds_append.mpr ⟨h.code_holds.append bytes, ?_⟩
    rw [← h.size_eq]
    exact Image.holds_appended _ _
  · have hs := h.size_eq
    rw [size] at hs
    change (b.image ++ bytes).size = _
    rw [Image.size_append, hs, List.length_append]
    omega

/-- Another image of the same size, with tables of its own. -/
theorem withImage (h : b.Represents functions labels F L code) {image : Image} {F' L' : Nat → Nat}
    (hmagic : image.Holds 0 Image.magic) (hfunctions : image.HoldsTable 4 functions F')
    (hlabels : image.HoldsTable (8 + 8 * functions) labels L')
    (hcode : image.Holds (12 + 8 * functions + 8 * labels) code) (hsize : image.size = b.image.size) :
    Represents { b with image } functions labels F' L' code :=
  ⟨h.functions_eq, h.labels_eq, hmagic, hfunctions, hlabels, hcode, hsize.trans h.size_eq⟩

theorem setFunction (h : b.Represents functions labels F L code) {i : Nat} (hi : i < functions)
    (pos : Nat) :
    (b.setFunction i pos).1.Represents functions labels (Function.update F i pos) L code := by
  have hsize := h.size_eq
  rw [size] at hsize
  have hlen := littleEndian_length 4 pos
  have heq : (b.setFunction i pos).1 =
      { b with image := b.image.write (4 + 4 + i * 8 + 4) (littleEndian 4 pos) } := by
    rw [Builder.setFunction, if_neg (by rw [h.functions_eq]; omega), setEntry, littleEndian_lowWord]
    rfl
  rw [heq]
  exact h.withImage (h.magic.write (.inl (by simp [Image.magic])))
    (h.functionTable.set (by omega) hi pos) (h.labelTable.write (by omega))
    (h.code_holds.write (by omega)) (Image.size_write ..)

theorem setLabel (h : b.Represents functions labels F L code) {i : Nat} (hi : i < labels)
    (pos : Nat) :
    (b.setLabel i pos).1.Represents functions labels F (Function.update L i pos) code := by
  have hsize := h.size_eq
  rw [size] at hsize
  have hlen := littleEndian_length 4 pos
  have heq : (b.setLabel i pos).1 =
      { b with image := b.image.write (8 + 8 * functions + 4 + i * 8 + 4) (littleEndian 4 pos) } := by
    rw [Builder.setLabel, if_neg (by rw [h.labels_eq]; omega), setEntry, littleEndian_lowWord,
      labelsStart, h.functions_eq]
    simp only [functionsStart, Image.tablesStart, Image.entrySize, Int.toNat_natCast,
      Nat.mul_comm functions 8]
  rw [heq]
  exact h.withImage (h.magic.write (.inl (by simp [Image.magic])))
    (h.functionTable.write (by omega)) (h.labelTable.set (by omega) hi pos)
    (h.code_holds.write (by omega)) (Image.size_write ..)

theorem drop_eq (h : b.Represents functions labels F L code) :
    b.image.toList.drop (12 + 8 * functions + 8 * labels) = code := by
  have hsize := h.size_eq
  rw [size] at hsize
  apply List.ext_getElem?
  intro i
  rw [List.getElem?_drop, Array.getElem?_toList]
  by_cases hi : i < code.length
  · exact h.code_holds i hi
  · rw [List.getElem?_eq_none (by omega), Array.getElem?_eq_none (by omega)]

end Represents
end Builder

namespace Header
variable {image : Image} {start n : Nat} {offsets : Nat → Nat}

theorem readEntries_of_holds (hn : n < 2 ^ 32) (h : image.HoldsTable start n offsets) (left : Nat)
    (hleft : left ≤ n) (table : Array UInt32) (hsize : table.size = n) :
    ∃ table', readEntries image n left (start + 4 + 8 * (n - left)) table = .ok table' ∧
      table'.size = n ∧ ∀ j, table'[j]? =
        if n - left ≤ j ∧ j < n then some (offsets j).toUInt32 else table[j]? := by
  induction left generalizing table with
  | zero => exact ⟨table, rfl, hsize, fun j => by rw [if_neg (by omega)]⟩
  | succ left ih =>
    have hentry := h.entries (n - (left + 1)) (by omega)
    rw [entry, Image.holds_append, littleEndian_length] at hentry
    have hindex : image.number 4 (start + 4 + 8 * (n - (left + 1))) = n - (left + 1) := by
      rw [Image.number_of_holds hentry.1]
      omega
    have hpos : (image.number 4 (start + 4 + 8 * (n - (left + 1)) + 4)).toUInt32 =
        (offsets (n - (left + 1))).toUInt32 := by
      rw [Image.number_of_holds hentry.2]
      apply UInt32.toNat.inj
      simp
    rw [readEntries, hindex, hpos, if_neg (by omega)]
    have hnext : start + 4 + 8 * (n - (left + 1)) + Image.entrySize = start + 4 + 8 * (n - left) := by
      simp only [Image.entrySize]
      omega
    rw [hnext]
    obtain ⟨table', hread, hsize', hget⟩ := ih (by omega)
      (table.setIfInBounds (n - (left + 1)) (offsets (n - (left + 1))).toUInt32)
      (by rw [Array.size_setIfInBounds, hsize])
    refine ⟨table', hread, hsize', fun j => ?_⟩
    rw [hget, Array.getElem?_setIfInBounds]
    by_cases hj : j = n - (left + 1)
    · subst hj
      rw [if_neg (by omega), if_pos rfl, if_pos (by omega), if_pos (by omega)]
    · rw [if_neg (Ne.symm hj)]
      by_cases hj' : n - left ≤ j ∧ j < n
      · rw [if_pos hj', if_pos (by omega)]
      · rw [if_neg hj', if_neg (by omega)]

/-- Reading a table gives the offsets that it holds. -/
theorem readTable_of_holds (hn : n < 2 ^ 32) (h : image.HoldsTable start n offsets)
    (hsize : start + 4 + 8 * n ≤ image.size) :
    ∃ table, readTable image start = .ok (table, start + 4 + 8 * n) ∧ table.size = n ∧
      ∀ i, i < n → table[i]? = some (offsets i).toUInt32 := by
  have hcount : image.number 4 start = n := by
    rw [Image.number_of_holds h.count]
    omega
  obtain ⟨table, hread, htable, hget⟩ := readEntries_of_holds hn h n (Nat.le_refl n)
    (Array.replicate n 0) Array.size_replicate
  rw [Nat.sub_self, Nat.mul_zero, Nat.add_zero] at hread
  refine ⟨table, ?_, htable, fun i hi => by rw [hget, if_pos (by omega)]⟩
  unfold readTable
  dsimp only
  rw [hcount, if_neg (by omega), if_neg (by simp only [Image.entrySize]; omega), hread]
  simp only [Image.entrySize, Nat.mul_comm n 8]

end Header

/-- Reading the header of what a builder has written gives its offsets, as long as the numbers of
entries can be written. -/
theorem Builder.Represents.read_of_lt {b : Builder} {functions labels : Nat} {F L : Nat → Nat}
    {code : Bytes} (h : b.Represents functions labels F L code) (hfunctions : functions < 2 ^ 32)
    (hlabels : labels < 2 ^ 32) :
    ∃ table, Header.read b.image = .ok table ∧ table.functions.size = functions ∧
      table.labels.size = labels ∧ table.code = 12 + 8 * functions + 8 * labels ∧
      (∀ i, i < functions → table.functions[i]? = some (F i).toUInt32) ∧
      ∀ i, i < labels → table.labels[i]? = some (L i).toUInt32 := by
  have hs := h.size_eq
  rw [size] at hs
  have hmagic : (b.image.take 4).toList = Image.magic := by
    apply List.ext_getElem?
    intro i
    by_cases hi : i < 4
    · have := h.magic i hi
      rw [Nat.zero_add] at this
      simpa [hi] using this
    · rw [List.getElem?_eq_none (by simp; omega),
        List.getElem?_eq_none (by simp [Image.magic]; omega)]
  obtain ⟨fs, hfs, hfsize, hfget⟩ := Header.readTable_of_holds hfunctions h.functionTable (by omega)
  obtain ⟨ls, hls, hlsize, hlget⟩ := Header.readTable_of_holds hlabels h.labelTable (by omega)
  refine ⟨⟨fs, ls, 8 + 8 * functions + 4 + 8 * labels⟩, ?_, hfsize, hlsize, by dsimp only; omega, hfget,
    hlget⟩
  unfold Header.read
  rw [if_neg (by rw [hmagic]; simp), Image.tablesStart, hfs]
  dsimp only
  rw [show 4 + 4 + 8 * functions = 8 + 8 * functions by omega, hls]

theorem Builder.Represents.read {b : Builder} {functions labels : Nat} {F L : Nat → Nat}
    {code : Bytes} (h : b.Represents functions labels F L code) (hsize : b.size < 2 ^ 32) :
    ∃ table, Header.read b.image = .ok table ∧ table.functions.size = functions ∧
      table.labels.size = labels ∧ table.code = 12 + 8 * functions + 8 * labels ∧
      (∀ i, i < functions → table.functions[i]? = some (F i).toUInt32) ∧
      ∀ i, i < labels → table.labels[i]? = some (L i).toUInt32 := by
  have hs := h.size_eq
  exact h.read_of_lt (by omega) (by omega)

end RegisterLang
