import RegisterLang.Proofs.Buffering

/-!
# What is written

What the image is after any steps that are not refused, said without a buffer: the fixed bytes, the
two tables, and the bytes that the steps append. An entry of a table holds what it was last set to.
The image does not depend on how the buffer grows, and its header is read back.
-/
namespace RegisterLang
open Text

namespace Builder

inductive Table where
  | functions
  | labels
  deriving DecidableEq

structure Assignment where
  table : Table
  index : Int
  pos : Int

def Step.code : Step → Bytes
  | .append bytes => bytes
  | .emit x => x.bytes
  | .function _ regs args => (Instr.func regs args).bytes
  | .setFunction .. | .setLabel .. | .place _ | .resize _ => []

/-- What a step sets in the tables of an image of `size` bytes. -/
def Step.assignment? (size : Nat) : Step → Option Assignment
  | .function index _ _ => some ⟨.functions, index, size⟩
  | .setFunction index pos => some ⟨.functions, index, pos⟩
  | .setLabel index pos => some ⟨.labels, index, pos⟩
  | .place index => some ⟨.labels, index, size⟩
  | .append _ | .emit _ | .resize _ => none

def assignments (size : Nat) : List Step → List Assignment
  | [] => []
  | s :: rest => (s.assignment? size).toList ++ assignments (size + s.code.length) rest

/-- The offset that an entry was last set to, in thirty-two bits. -/
def lastOffset? (table : Table) (index : Nat) (sets : List Assignment) : Option Nat :=
  (sets.filter fun e : Assignment => e.table = table ∧ e.index = (index : Int)).getLast?.map fun e =>
    lowWord e.pos

def codeStart (functions labels : Nat) : Nat := 12 + 8 * functions + 8 * labels

def offsetAfter (functions labels : Nat) (steps : List Step) (table : Table) (index : Nat) : Nat :=
  (lastOffset? table index (assignments (codeStart functions labels) steps)).getD 0

def tableBytes (n : Nat) (offsets : Nat → Nat) : Bytes :=
  littleEndian 4 n ++ (List.range n).flatMap fun i => entry i (offsets i)

def written (functions labels : Nat) (steps : List Step) : Bytes :=
  Image.magic ++ tableBytes functions (offsetAfter functions labels steps .functions) ++
    tableBytes labels (offsetAfter functions labels steps .labels) ++ steps.flatMap Step.code

def headerAfter (functions labels : Nat) (steps : List Step) : Header where
  functions := Array.ofFn fun i : Fin functions =>
    (offsetAfter functions labels steps .functions i).toUInt32
  labels := Array.ofFn fun i : Fin labels => (offsetAfter functions labels steps .labels i).toUInt32
  code := codeStart functions labels

end Builder

/-! ### The bytes of an image with given tables -/

namespace Image
variable {image : Image} {offset : Nat}

/-- Pieces of the same length that lie one after the other. -/
theorem holds_pieces {f : Nat → Bytes} {size n : Nat} (hf : ∀ i, (f i).length = size)
    (h : ∀ i, i < n → image.Holds (offset + size * i) (f i)) :
    image.Holds offset ((List.range n).flatMap f) := by
  induction n with
  | zero => exact holds_nil
  | succ n ih =>
    have hlen : ((List.range n).flatMap f).length = size * n := by
      simp [List.length_flatMap, hf, List.map_const', Nat.mul_comm]
    rw [List.range_succ, List.flatMap_append, holds_append, hlen]
    refine ⟨ih fun i hi => h i (by omega), ?_⟩
    simpa using h n (by omega)

theorem toList_of_holds {bytes : Bytes} (h : image.Holds 0 bytes) (hsize : image.size = bytes.length) :
    image.toList = bytes := by
  apply List.ext_getElem?
  intro i
  by_cases hi : i < bytes.length
  · have := h i hi
    rwa [Nat.zero_add, ← Array.getElem?_toList] at this
  · rw [List.getElem?_eq_none (by rw [Array.length_toList]; omega), List.getElem?_eq_none (by omega)]

theorem HoldsTable.holds {start n : Nat} {offsets : Nat → Nat}
    (h : image.HoldsTable start n offsets) : image.Holds start (Builder.tableBytes n offsets) := by
  rw [Builder.tableBytes, holds_append, littleEndian_length]
  exact ⟨h.count, holds_pieces (fun i => entry_length i (offsets i)) h.entries⟩

end Image

namespace Builder

@[simp] theorem tableBytes_length (n : Nat) (offsets : Nat → Nat) :
    (tableBytes n offsets).length = 4 + 8 * n := by
  rw [tableBytes, List.length_append, littleEndian_length]
  simp [List.length_flatMap, List.map_const', Nat.mul_comm]

/-! ### Steps that are not refused -/

def Assignment.update (e : Assignment) (table : Table) (offsets : Nat → Nat) (index : Nat) : Nat :=
  if e.table = table ∧ e.index = index then lowWord e.pos else offsets index

theorem lastOffset?_cons (table : Table) (index : Nat) (e : Assignment) (sets : List Assignment)
    (offsets : Nat → Nat) :
    (lastOffset? table index (e :: sets)).getD (offsets index) =
      (lastOffset? table index sets).getD (e.update table offsets index) := by
  unfold lastOffset? Assignment.update
  by_cases he : e.table = table ∧ e.index = index
  · rw [List.filter_cons_of_pos (by simpa using he), if_pos he, List.getLast?_cons]
    cases (sets.filter fun e : Assignment => e.table = table ∧ e.index = (index : Int)).getLast? <;> rfl
  · rw [List.filter_cons_of_neg (by simpa using he), if_neg he]

def updated (e? : Option Assignment) (table : Table) (offsets : Nat → Nat) : Nat → Nat :=
  e?.elim offsets fun e => e.update table offsets

theorem lastOffset?_updated (table : Table) (index : Nat) (e? : Option Assignment)
    (sets : List Assignment) (offsets : Nat → Nat) :
    (lastOffset? table index (e?.toList ++ sets)).getD (offsets index) =
      (lastOffset? table index sets).getD (updated e? table offsets index) := by
  cases e? with
  | none => rfl
  | some e => exact lastOffset?_cons table index e sets offsets

theorem Assignment.update_self (table : Table) (index : Nat) (pos : Int) (offsets : Nat → Nat) :
    Assignment.update ⟨table, index, pos⟩ table offsets =
      Function.update offsets index (lowWord pos) := by
  funext j
  simp only [Assignment.update, Function.update_apply, true_and, Int.ofNat_inj, eq_comm]

theorem lowWord_lowWord (n : Int) : lowWord (lowWord n : Nat) = lowWord n := by
  unfold lowWord
  omega

/-- An offset counts by its low thirty-two bits. -/
theorem setEntry_lowWord (b : Builder) (start : Nat) (index pos : Int) :
    b.setEntry start index (lowWord pos : Nat) = b.setEntry start index pos := by
  unfold setEntry
  rw [lowWord_lowWord]

namespace Represents
variable {b : Builder} {functions labels : Nat} {F L : Nat → Nat} {code : Bytes}

theorem update_functions (h : b.Represents functions labels F L code) {index pos : Int}
    (hok : (b.setFunction index pos).2 = none) :
    (b.setFunction index pos).1.Represents functions labels
      (Assignment.update ⟨.functions, index, pos⟩ .functions F) L code := by
  have hrange : ¬ (index < 0 ∨ b.functions ≤ index) := by
    intro hout
    simp [Builder.setFunction, hout] at hok
  rw [h.functions_eq] at hrange
  obtain ⟨i, rfl⟩ := Int.eq_ofNat_of_zero_le (a := index) (by omega)
  have hset := h.setFunction (i := i) (by omega) (lowWord pos)
  rw [Assignment.update_self]
  simp only [Builder.setFunction, setEntry_lowWord] at hset ⊢
  exact hset

theorem update_labels (h : b.Represents functions labels F L code) {index pos : Int}
    (hok : (b.setLabel index pos).2 = none) :
    (b.setLabel index pos).1.Represents functions labels F
      (Assignment.update ⟨.labels, index, pos⟩ .labels L) code := by
  have hrange : ¬ (index < 0 ∨ b.labels ≤ index) := by
    intro hout
    simp [Builder.setLabel, hout] at hok
  rw [h.labels_eq] at hrange
  obtain ⟨i, rfl⟩ := Int.eq_ofNat_of_zero_le (a := index) (by omega)
  have hset := h.setLabel (i := i) (by omega) (lowWord pos)
  rw [Assignment.update_self]
  simp only [Builder.setLabel, setEntry_lowWord] at hset ⊢
  exact hset

/-- What a step sets and appends is all that it does. -/
theorem step (h : b.Represents functions labels F L code) {s : Step} (hok : (b.step s).2 = none) :
    (b.step s).1.Represents functions labels (updated (s.assignment? b.size) .functions F)
      (updated (s.assignment? b.size) .labels L) (code ++ s.code) := by
  cases s with
  | append bytes => exact h.append bytes
  | emit x =>
    have hfault : x.fault? = none := by
      cases hf : x.fault? with
      | none => rfl
      | some e => cases e <;> simp [Builder.step, Builder.emit, hf] at hok
    have hemit : b.step (.emit x) = (b.append x.bytes, none) := by
      rw [Builder.step, Builder.emit, hfault]
    rw [hemit]
    exact h.append x.bytes
  | function index regs args => exact (h.append _).update_functions hok
  | setFunction index pos =>
    rw [Step.code, List.append_nil]
    exact h.update_functions hok
  | setLabel index pos =>
    rw [Step.code, List.append_nil]
    exact h.update_labels hok
  | place index =>
    rw [Step.code, List.append_nil]
    exact h.update_labels hok
  | resize capacity =>
    rw [Step.code, List.append_nil]
    exact ⟨h.functions_eq, h.labels_eq, h.magic, h.functionTable, h.labelTable, h.code_holds, h.size_eq⟩

/-- The tables and the code after steps none of which is refused. -/
theorem run (h : b.Represents functions labels F L code) {steps : List Step}
    (hok : ∀ o ∈ b.trace steps, o.2 = none) :
    (b.run steps).Represents functions labels
      (fun i => (lastOffset? .functions i (assignments b.size steps)).getD (F i))
      (fun i => (lastOffset? .labels i (assignments b.size steps)).getD (L i))
      (code ++ steps.flatMap Step.code) := by
  induction steps generalizing b F L code with
  | nil =>
    rw [List.flatMap_nil, List.append_nil]
    exact h
  | cons s rest ih =>
    rw [trace_cons, List.forall_mem_cons] at hok
    have hstep := h.step hok.1
    have hsize : (b.step s).1.size = b.size + s.code.length := by
      rw [hstep.size_eq, h.size_eq, List.length_append]
      omega
    -- what this step sets is what the offsets are before the rest
    have hrest := ih hstep hok.2
    rw [hsize, List.append_assoc] at hrest
    simp only [assignments, lastOffset?_updated]
    exact hrest

theorem toList_image (h : b.Represents functions labels F L code) :
    b.image.toList = Image.magic ++ tableBytes functions F ++ tableBytes labels L ++ code := by
  have hmagic : Image.magic.length = 4 := rfl
  refine Image.toList_of_holds ?_ ?_
  · simp only [Image.holds_append, List.length_append, tableBytes_length, hmagic, Nat.zero_add]
    refine ⟨⟨⟨h.magic, h.functionTable.holds⟩, ?_⟩, ?_⟩
    · have := h.labelTable.holds
      rwa [show 8 + 8 * functions = 4 + (4 + 8 * functions) by omega] at this
    · have := h.code_holds
      rwa [show 12 + 8 * functions + 8 * labels = 4 + (4 + 8 * functions) + (4 + 8 * labels) by
        omega] at this
  · have := h.size_eq
    rw [size] at this
    simp only [List.length_append, tableBytes_length, hmagic]
    omega

end Represents

/-- A table of which every entry is known. -/
theorem eq_ofFn {table : Array UInt32} {n : Nat} {offsets : Nat → Nat} (hsize : table.size = n)
    (h : ∀ i, i < n → table[i]? = some (offsets i).toUInt32) :
    table = Array.ofFn fun i : Fin n => (offsets i).toUInt32 := by
  apply Array.ext_getElem?
  intro i
  rw [Array.getElem?_ofFn]
  split
  next hi => exact h i hi
  next hi => rw [Array.getElem?_eq_none (by omega)]

theorem run_represents (capacity : Int) {functions labels : Nat} {steps : List Step}
    (hok : ∀ o ∈ (make capacity functions labels).trace steps, o.2 = none) :
    ((make capacity functions labels).run steps).Represents functions labels
      (offsetAfter functions labels steps .functions) (offsetAfter functions labels steps .labels)
      (steps.flatMap Step.code) := by
  have hmake := represents_make capacity functions labels
  have hrun := hmake.run hok
  rw [hmake.size_eq] at hrun
  exact hrun

/-- The image does not depend on the buffer. Whatever capacity a builder is given and whichever steps
ask for more, as long as no step is refused the image is `written`, which knows of no capacity, and
its header is read back with the offsets that the entries were last set to. All the time the image
fits the capacity, and a buffer that is written in place and copied when it grows mirrors the
builder. -/
theorem run_eq_written (capacity : Int) {functions labels : Nat} (hfunctions : functions < 2 ^ 32)
    (hlabels : labels < 2 ^ 32) {steps : List Step}
    (hok : ∀ o ∈ (make capacity functions labels).trace steps, o.2 = none) :
    ((make capacity functions labels).run steps).image.toList = written functions labels steps ∧
      Header.read ((make capacity functions labels).run steps).image =
        .ok (headerAfter functions labels steps) ∧
      (make capacity functions labels).size ≤ (make capacity functions labels).capacity ∧
      (∀ o ∈ (make capacity functions labels).trace steps, o.1.size ≤ o.1.capacity) ∧
      (Buffer.make capacity functions labels).Mirrors (make capacity functions labels) ∧
      List.Forall₂ (fun o p => o.1.Mirrors p.1 ∧ o.2 = p.2)
        ((Buffer.make capacity functions labels).trace steps)
        ((make capacity functions labels).trace steps) := by
  have hrun := run_represents capacity hok
  have hmirrors := Buffer.mirrors_make capacity functions labels
  obtain ⟨⟨fs, ls, code⟩, hread, hfs, hls, hcode, hfget, hlget⟩ := hrun.read_of_lt hfunctions hlabels
  have hheader : Header.mk fs ls code = headerAfter functions labels steps := by
    rw [headerAfter, ← eq_ofFn hfs hfget, ← eq_ofFn hls hlget]
    exact congrArg (Header.mk fs ls) hcode
  exact ⟨hrun.toList_image, hread.trans (congrArg Except.ok hheader), hmirrors.size_le,
    hmirrors.size_le_trace steps, hmirrors, hmirrors.trace steps⟩

/-- Entries set twice, before the code that they point at and to offsets of more than thirty-two
bits, on a buffer that has to grow in between. -/
def patched : List Step :=
  [.setLabel 1 7, .function 0 2 0, .place 0, .append [1, 2, 3], .resize 40, .emit (.ret 1), .place 0,
    .setFunction 0 (-1), .resize 100, .setLabel 1 (2 ^ 32 + 9)]

theorem run_eq_written_patched :
    (∀ o ∈ (make 0 1 2).trace patched, o.2 = none) ∧
      ((make 0 1 2).run patched).image.toList =
        Image.magic ++ [1, 0, 0, 0] ++ [0, 0, 0, 0, 255, 255, 255, 255] ++ [2, 0, 0, 0] ++
          [0, 0, 0, 0, 49, 0, 0, 0] ++ [1, 0, 0, 0, 9, 0, 0, 0] ++ (Instr.func 2 0).bytes ++
          [1, 2, 3] ++ (Instr.ret 1).bytes ∧
      Header.read ((make 0 1 2).run patched).image = .ok ⟨#[4294967295], #[49, 9], 36⟩ := by
  have hok : ∀ o ∈ (make 0 1 2).trace patched, o.2 = none := by decide +kernel
  obtain ⟨himage, hheader, -⟩ := run_eq_written 0 (by decide) (by decide) hok
  exact ⟨hok, himage.trans (by decide +kernel), hheader.trans (by decide +kernel)⟩

end Builder
end RegisterLang
