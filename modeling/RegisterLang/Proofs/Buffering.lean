import Mathlib.Data.List.Forall2
import RegisterLang.Proofs.Tables

/-!
# The buffer behind a builder

A builder keeps an image and the capacity of the buffer in which the image lies. Here is the buffer
itself: its bytes, how many of them are used, and where the entries of the tables begin. It is as long
as its capacity. Where something does not fit, a buffer of twice the length, or of the next power of
two that is long enough, takes over what is used of the old one; then the bytes are written in place,
and so are the offsets of entries. After the same steps the used part of the buffer is the image of
the builder and its length is the capacity.
-/
namespace RegisterLang
open Text

def Instr.parts : Instr → List Bytes
  | func regs args => [word .func, half regs, half args]
  | call f => [word .call, littleEndian 4 f.toNat]
  | ret src => [word .ret, half src]
  | set t dst imm => [word .set, [t.code], half dst, littleEndian t.size imm.toNat]
  | mov dst src => [word .mov, half dst, half src]
  | math op t dst a b => [word op, [t.code], half dst, half a, half b]
  | cmp t a b => [word .cmp, [t.code], half a, half b]
  | jump op l => [word op, littleEndian 4 l.toNat]
  | push t src => [word .push, [t.code], half src]
  | pop t dst => [word .pop, [t.code], half dst]

theorem Instr.flatten_parts (x : Instr) : x.parts.flatten = x.bytes := by
  cases x <;> simp [parts, bytes]

/-- A buffer and what is remembered of the image in it. -/
structure Buffer where
  bytes : Array UInt8
  used : Nat := 0
  functionsAt : Nat := 0
  functions : Int
  labelsAt : Nat := 0
  labels : Int

namespace Buffer

def image (u : Buffer) : Image := u.bytes.extract 0 u.used

def resize (u : Buffer) (size : Int) : Buffer :=
  if size ≤ u.bytes.size then u
  else { u with bytes := Image.write (Array.replicate size.toNat 0) 0 u.image.toList }

def grow (u : Buffer) (n : Nat) : Buffer :=
  if u.used + n ≤ u.bytes.size then u
  else u.resize (Builder.grown (u.used + n) (2 * u.bytes.size))

def append (u : Buffer) (p : Bytes) : Buffer :=
  let u := u.grow p.length
  { u with bytes := Image.write u.bytes u.used p, used := u.used + p.length }

def appendAll (u : Buffer) (ps : List Bytes) : Buffer := ps.foldl append u

/-- The entries of a table, each with its index and without an offset. -/
def reserve (u : Buffer) (n : Int) : Buffer :=
  u.appendAll ((List.range n.toNat).flatMap fun i => [littleEndian 4 i, littleEndian 4 0])

def make (size functions labels : Int) : Buffer :=
  let u : Buffer :=
    { bytes := Array.replicate (max Builder.minCapacity size.toNat) 0, functions, labels }
  let u := (u.append Image.magic).append (littleEndian 4 (lowWord functions))
  let u := { u with functionsAt := u.used }.reserve functions
  let u := u.append (littleEndian 4 (lowWord labels))
  { u with labelsAt := u.used }.reserve labels

def setEntry (u : Buffer) (start : Nat) (index pos : Int) : Buffer :=
  { u with
    bytes := Image.write u.bytes (start + index.toNat * Image.entrySize + 4)
      (littleEndian 4 (lowWord pos)) }

abbrev Outcome := Buffer × Option BuildFault

def setFunction (u : Buffer) (index pos : Int) : Outcome :=
  if index < 0 ∨ u.functions ≤ index then (u, some (.functionIndex index u.functions))
  else (u.setEntry u.functionsAt index pos, none)

def setLabel (u : Buffer) (index pos : Int) : Outcome :=
  if index < 0 ∨ u.labels ≤ index then (u, some (.labelIndex index u.labels))
  else (u.setEntry u.labelsAt index pos, none)

def emit (u : Buffer) (x : Instr) : Outcome :=
  match x.fault? with
  | none => (u.appendAll x.parts, none)
  | some (.badSetType t) => (u.appendAll x.parts, some (.instr (.badSetType t)))
  | some e => (u, some (.instr e))

def step (u : Buffer) : Builder.Step → Outcome
  | .append bytes => (u.append bytes, none)
  | .emit x => u.emit x
  | .function index regs args => (u.appendAll (Instr.func regs args).parts).setFunction index u.used
  | .setFunction index pos => u.setFunction index pos
  | .setLabel index pos => u.setLabel index pos
  | .place index => u.setLabel index u.used
  | .resize size => (u.resize size, none)

def trace (u : Buffer) : List Builder.Step → List Outcome
  | [] => []
  | s :: rest => u.step s :: (u.step s).1.trace rest

end Buffer

/-! ### Capacities -/

namespace Builder

theorem grown_eq_self {need capacity : Nat} (h : need ≤ capacity) : grown need capacity = capacity := by
  rw [grown, if_pos (.inr h)]

theorem le_grown (need capacity : Nat) : capacity ≤ grown need capacity := by
  fun_induction grown need capacity with
  | case1 capacity h => exact Nat.le_refl _
  | case2 capacity h ih => omega

/-- A buffer that is not empty grows until what is needed fits. -/
theorem need_le_grown (need : Nat) {capacity : Nat} (h : 0 < capacity) :
    need ≤ grown need capacity := by
  fun_induction grown need capacity with
  | case1 capacity hc => omega
  | case2 capacity hc ih => exact ih (by omega)

/-- Growing twice is growing once. -/
theorem grown_grown {need more : Nat} (h : need ≤ more) (capacity : Nat) :
    grown more (grown need capacity) = grown more capacity := by
  fun_induction grown need capacity with
  | case1 capacity hc => rfl
  | case2 capacity hc ih => rw [ih, grown.eq_def more capacity, if_neg (by omega)]

theorem size_append (b : Builder) (p : Bytes) : (b.append p).size = b.size + p.length :=
  Image.size_append b.image p

theorem append_append (b : Builder) (p q : Bytes) : (b.append p).append q = b.append (p ++ q) := by
  have hgrown : grown ((b.append p).size + q.length) (b.append p).capacity =
      grown (b.size + (p ++ q).length) b.capacity := by
    rw [size_append, List.length_append, ← Nat.add_assoc]
    exact grown_grown (Nat.le_add_right _ _) _
  have himage : b.image ++ p ++ q = b.image ++ (p ++ q) := by
    apply Array.toList_inj.mp
    simp
  unfold append at hgrown ⊢
  dsimp only at hgrown ⊢
  rw [hgrown, himage]

theorem append_nil {b : Builder} (h : b.size ≤ b.capacity) : b.append [] = b := by
  have himage : b.image ++ ([] : Bytes) = b.image := by
    apply Array.toList_inj.mp
    simp
  unfold append
  rw [himage, List.length_nil, Nat.add_zero, grown_eq_self h]

theorem emptyTable_eq (n : Int) : emptyTable n = littleEndian 4 (lowWord n) ++
    ((List.range n.toNat).flatMap fun i => [littleEndian 4 i, littleEndian 4 0]).flatten := by
  rw [emptyTable]
  congr 1
  simp [List.flatMap, List.flatten_flatten, Function.comp_def]

end Builder

/-! ### Writing in place -/

namespace Image

theorem getElem?_front (image : Image) (n j : Nat) :
    (image.extract 0 n)[j]? = if j < n then image[j]? else none := by
  rw [Array.getElem?_extract, Nat.zero_add, Nat.sub_zero]
  by_cases hj : j < image.size
  · simp only [Nat.lt_min, hj, and_true]
  · rw [if_neg (by omega), Array.getElem?_eq_none (by omega), ite_self]

/-- What is written beyond the front of a buffer is not in the front. -/
theorem front_write (image : Image) (offset n : Nat) (p : Bytes) :
    (image.write offset p).extract 0 n = Image.write (image.extract 0 n) offset p := by
  apply Array.ext_getElem?
  intro j
  rw [getElem?_front, getElem?_write, getElem?_write, getElem?_front, Array.size_extract]
  by_cases hj : j < n
  · rw [if_pos hj, if_pos hj]
    split <;> split <;> first | rfl | omega
  · rw [if_neg hj, if_neg hj, if_neg (by omega)]

theorem getElem?_appendList (image : Image) (p : Bytes) (j : Nat) :
    (image ++ p)[j]? = if j < image.size then image[j]? else p[j - image.size]? := by
  rw [← Array.getElem?_toList, Array.toList_appendList, List.getElem?_append]
  simp only [Array.length_toList, Array.getElem?_toList]

/-- Bytes that are written behind the front extend it. -/
theorem front_write_append (image : Image) {n : Nat} {p : Bytes} (h : n + p.length ≤ image.size) :
    (image.write n p).extract 0 (n + p.length) = image.extract 0 n ++ p := by
  have hsize : (image.extract 0 n).size = n := by
    rw [Array.size_extract]
    omega
  apply Array.ext_getElem?
  intro j
  rw [getElem?_front, getElem?_write, getElem?_appendList, getElem?_front, hsize]
  by_cases hj : j < n
  · rw [if_pos hj, if_pos hj, if_pos (by omega), if_neg (by omega)]
  · rw [if_neg hj]
    by_cases hj' : j < n + p.length
    · rw [if_pos hj', if_pos (by omega)]
    · rw [if_neg hj', List.getElem?_eq_none (by omega)]

end Image

/-! ### A buffer and its builder -/

namespace Buffer

/-- Another length changes the bytes only. -/
theorem resize_eq (u : Buffer) (size : Int) :
    u.resize size = { u with bytes := (u.resize size).bytes } := by
  unfold resize
  split <;> rfl

theorem grow_eq (u : Buffer) (n : Nat) : u.grow n = { u with bytes := (u.grow n).bytes } := by
  unfold grow
  split
  · rfl
  · exact resize_eq u _

theorem append_eq (u : Buffer) (p : Bytes) :
    u.append p = { u with bytes := (u.append p).bytes, used := u.used + p.length } := by
  unfold append
  rw [grow_eq]

theorem size_resize (u : Buffer) (size : Int) :
    (u.resize size).bytes.size = max u.bytes.size size.toNat := by
  unfold resize
  split
  · omega
  · change (Image.write (Array.replicate size.toNat 0) 0 u.image.toList).size = _
    rw [Image.size_write, Array.size_replicate]
    omega

theorem size_grow {u : Buffer} (hpos : 0 < u.bytes.size) (n : Nat) :
    (u.grow n).bytes.size = Builder.grown (u.used + n) u.bytes.size := by
  unfold grow
  split
  next hle => rw [Builder.grown_eq_self hle]
  next hgt =>
    have hle := Builder.le_grown (u.used + n) (2 * u.bytes.size)
    rw [size_resize, Int.toNat_natCast, Builder.grown.eq_def _ u.bytes.size, if_neg (by omega)]
    omega

/-- The buffer holds the image of a builder, and its length is the capacity. -/
structure Backs (u : Buffer) (b : Builder) : Prop where
  image_eq : u.image = b.image
  used_le : u.used ≤ u.bytes.size
  capacity_eq : u.bytes.size = b.capacity
  capacity_pos : 0 < u.bytes.size
  functions_eq : u.functions = b.functions
  labels_eq : u.labels = b.labels

namespace Backs
variable {u : Buffer} {b : Builder}

theorem used_eq (h : Backs u b) : u.used = b.size := by
  have hsize : u.image.size = u.used := by
    rw [image, Array.size_extract]
    have := h.used_le
    omega
  rw [Builder.size, ← h.image_eq, hsize]

theorem size_le (h : Backs u b) : b.size ≤ b.capacity := by
  rw [← h.used_eq, ← h.capacity_eq]
  exact h.used_le

/-- A longer buffer has the same used part. -/
theorem image_resize (h : Backs u b) (size : Int) : (u.resize size).image = u.image := by
  unfold resize
  split
  · rfl
  next hsize =>
    have hlen : u.image.toList.length = u.used := by
      rw [Array.length_toList, h.image_eq]
      exact h.used_eq.symm
    have hle := h.used_le
    have hfront := Image.front_write_append (Array.replicate size.toNat 0) (n := 0)
      (p := u.image.toList) (by rw [Array.size_replicate, hlen]; omega)
    rw [Nat.zero_add, hlen] at hfront
    change (Image.write (Array.replicate size.toNat 0) 0 u.image.toList).extract 0 u.used = u.image
    rw [hfront]
    apply Array.toList_inj.mp
    simp

theorem image_grow (h : Backs u b) (n : Nat) : (u.grow n).image = u.image := by
  unfold grow
  split
  · rfl
  · exact h.image_resize _

theorem resize (h : Backs u b) (size : Int) : Backs (u.resize size) (b.resize size) := by
  have hsize := size_resize u size
  have himage := h.image_resize size
  rw [resize_eq] at hsize himage ⊢
  have hle := h.used_le
  have hpos := h.capacity_pos
  refine ⟨himage.trans h.image_eq, ?_, ?_, ?_, h.functions_eq, h.labels_eq⟩
  · dsimp only at hsize ⊢
    omega
  · change _ = max b.capacity size.toNat
    rw [hsize, h.capacity_eq]
  · dsimp only at hsize ⊢
    omega

theorem append (h : Backs u b) (p : Bytes) : Backs (u.append p) (b.append p) := by
  have hsize : (u.append p).bytes.size = Builder.grown (u.used + p.length) u.bytes.size := by
    change (Image.write _ _ p).size = _
    rw [Image.size_write, size_grow h.capacity_pos]
  have hneed := Builder.need_le_grown (u.used + p.length) h.capacity_pos
  have hle := Builder.le_grown (u.used + p.length) u.bytes.size
  have hpos := h.capacity_pos
  have hused : (u.grow p.length).used = u.used := by rw [grow_eq]
  have himage : (u.append p).image = u.image ++ p := by
    change (Image.write _ (u.grow p.length).used p).extract 0 ((u.grow p.length).used + p.length) = _
    rw [Image.front_write_append _ (by rw [hused, size_grow h.capacity_pos]; exact hneed)]
    exact congrArg (fun image : Image => image ++ p) (h.image_grow p.length)
  rw [append_eq] at hsize himage ⊢
  refine ⟨?_, ?_, ?_, ?_, h.functions_eq, h.labels_eq⟩
  · rw [himage, h.image_eq]
    rfl
  · dsimp only at hsize ⊢
    omega
  · change _ = Builder.grown (b.size + p.length) b.capacity
    rw [hsize, h.used_eq, h.capacity_eq]
  · dsimp only at hsize ⊢
    omega

/-- Bytes that are appended in parts are appended as a whole. -/
theorem appendAll (h : Backs u b) (ps : List Bytes) : Backs (u.appendAll ps) (b.append ps.flatten) := by
  induction ps generalizing u b with
  | nil =>
    rw [List.flatten_nil, Builder.append_nil h.size_le]
    exact h
  | cons p ps ih =>
    have := ih (h.append p)
    rwa [Builder.append_append] at this

/-- What is remembered of the tables is not in the image. -/
theorem marked (h : Backs u b) (functionsAt labelsAt : Nat) : Backs { u with functionsAt, labelsAt } b :=
  ⟨h.image_eq, h.used_le, h.capacity_eq, h.capacity_pos, h.functions_eq, h.labels_eq⟩

/-- The entries of a table follow their number. -/
theorem reserve {n : Int} (h : Backs u (b.append (littleEndian 4 (lowWord n)))) :
    Backs (u.reserve n) (b.append (Builder.emptyTable n)) := by
  rw [Builder.emptyTable_eq, ← Builder.append_append]
  exact h.appendAll _

end Backs

@[simp] theorem functionsAt_append (u : Buffer) (p : Bytes) :
    (u.append p).functionsAt = u.functionsAt := by
  rw [append_eq]

@[simp] theorem labelsAt_append (u : Buffer) (p : Bytes) : (u.append p).labelsAt = u.labelsAt := by
  rw [append_eq]

@[simp] theorem functionsAt_appendAll (u : Buffer) (ps : List Bytes) :
    (u.appendAll ps).functionsAt = u.functionsAt := by
  induction ps generalizing u with
  | nil => rfl
  | cons p ps ih => exact (ih (u.append p)).trans (functionsAt_append u p)

@[simp] theorem labelsAt_appendAll (u : Buffer) (ps : List Bytes) :
    (u.appendAll ps).labelsAt = u.labelsAt := by
  induction ps generalizing u with
  | nil => rfl
  | cons p ps ih => exact (ih (u.append p)).trans (labelsAt_append u p)

structure Mirrors (u : Buffer) (b : Builder) : Prop extends Backs u b where
  functionsAt_eq : u.functionsAt = Builder.functionsStart
  labelsAt_eq : u.labelsAt = b.labelsStart

/-- Where the tables begin is remembered as soon as their numbers of entries are written. -/
theorem mirrors_make (size : Int) (functions labels : Nat) :
    Mirrors (make size functions labels) (Builder.make size functions labels) := by
  let start : Buffer :=
    { bytes := Array.replicate (max Builder.minCapacity size.toNat) 0, functions, labels }
  let empty : Builder :=
    { image := #[], capacity := max Builder.minCapacity size.toNat, functions, labels }
  have hstart : Backs start empty := by
    have hsize : start.bytes.size = max Builder.minCapacity size.toNat := Array.size_replicate
    refine ⟨by simp [start, empty, image], Nat.zero_le _, hsize, ?_, rfl, rfl⟩
    rw [hsize]
    exact Nat.lt_of_lt_of_le (by decide) (Nat.le_max_left _ _)
  let counted := (start.append Image.magic).append (littleEndian 4 (lowWord functions))
  have hcounted : Backs counted
      ((empty.append Image.magic).append (littleEndian 4 (lowWord functions))) :=
    (hstart.append _).append _
  let tabled := { counted with functionsAt := counted.used }.reserve functions
  have htabled : Backs tabled ((empty.append Image.magic).append (Builder.emptyTable functions)) :=
    (hcounted.marked _ _).reserve
  let recounted := tabled.append (littleEndian 4 (lowWord labels))
  have hrecounted : Backs recounted (((empty.append Image.magic).append
      (Builder.emptyTable functions)).append (littleEndian 4 (lowWord labels))) :=
    htabled.append _
  have hmake : make size functions labels = { recounted with labelsAt := recounted.used }.reserve labels :=
    rfl
  refine ⟨(hrecounted.marked _ _).reserve, ?_, ?_⟩
  · have hat : (make size functions labels).functionsAt = counted.used := by
      simp [hmake, reserve, recounted, tabled]
    rw [hat, hcounted.used_eq, Builder.size_append, littleEndian_length]
    rfl
  · have hat : (make size functions labels).labelsAt = recounted.used := by
      simp [hmake, reserve]
    rw [hat, hrecounted.used_eq, Builder.size_append, Builder.size_append, Builder.size_append,
      littleEndian_length, Builder.emptyTable_length]
    change 0 + 4 + (4 + 8 * functions) + 4 = 8 + (functions : Int).toNat * 8 + 4
    omega

namespace Mirrors
variable {u : Buffer} {b : Builder}

theorem appendAll (h : Mirrors u b) (ps : List Bytes) :
    Mirrors (u.appendAll ps) (b.append ps.flatten) := by
  refine ⟨h.toBacks.appendAll ps, ?_, ?_⟩
  · rw [functionsAt_appendAll, h.functionsAt_eq]
  · rw [labelsAt_appendAll, h.labelsAt_eq]
    rfl

/-- Other bytes of the same length, of which the used ones are the other image. -/
theorem withBytes (h : Mirrors u b) {bytes : Array UInt8} {image : Image}
    (hsize : bytes.size = u.bytes.size) (himage : bytes.extract 0 u.used = image) :
    Mirrors { u with bytes } { b with image } := by
  refine ⟨⟨himage, ?_, hsize.trans h.capacity_eq, ?_, h.functions_eq, h.labels_eq⟩, h.functionsAt_eq,
    h.labelsAt_eq⟩
  · dsimp only
    rw [hsize]
    exact h.used_le
  · dsimp only
    rw [hsize]
    exact h.capacity_pos

theorem setEntry (h : Mirrors u b) (start : Nat) (index pos : Int) :
    Mirrors (u.setEntry start index pos) (b.setEntry start index pos) := by
  refine h.withBytes (Image.size_write ..) ?_
  rw [Image.front_write]
  exact congrArg (Image.write · _ _) h.image_eq

theorem setFunction (h : Mirrors u b) (index pos : Int) :
    Mirrors (u.setFunction index pos).1 (b.setFunction index pos).1 ∧
      (u.setFunction index pos).2 = (b.setFunction index pos).2 := by
  unfold Buffer.setFunction Builder.setFunction
  rw [h.functions_eq, h.functionsAt_eq]
  split
  · exact ⟨h, rfl⟩
  · exact ⟨h.setEntry _ _ _, rfl⟩

theorem setLabel (h : Mirrors u b) (index pos : Int) :
    Mirrors (u.setLabel index pos).1 (b.setLabel index pos).1 ∧
      (u.setLabel index pos).2 = (b.setLabel index pos).2 := by
  unfold Buffer.setLabel Builder.setLabel
  rw [h.labels_eq, h.labelsAt_eq]
  split
  · exact ⟨h, rfl⟩
  · exact ⟨h.setEntry _ _ _, rfl⟩

theorem emit (h : Mirrors u b) (x : Instr) :
    Mirrors (u.emit x).1 (b.emit x).1 ∧ (u.emit x).2 = (b.emit x).2 := by
  have hparts := h.appendAll x.parts
  rw [x.flatten_parts] at hparts
  unfold Buffer.emit Builder.emit
  cases x.fault? with
  | none => exact ⟨hparts, rfl⟩
  | some e => cases e <;> first | exact ⟨hparts, rfl⟩ | exact ⟨h, rfl⟩

/-- A step on the buffer does what it does on the builder and is refused for the same reason. -/
theorem step (h : Mirrors u b) (s : Builder.Step) :
    Mirrors (u.step s).1 (b.step s).1 ∧ (u.step s).2 = (b.step s).2 := by
  cases s with
  | append bytes =>
    have happend := h.appendAll [bytes]
    rw [List.flatten_singleton] at happend
    exact ⟨happend, rfl⟩
  | emit x => exact h.emit x
  | function index regs args =>
    have hparts := h.appendAll (Instr.func regs args).parts
    rw [Instr.flatten_parts] at hparts
    have hset := hparts.setFunction index u.used
    rw [h.used_eq] at hset
    unfold Buffer.step Builder.step
    rw [h.used_eq]
    exact hset
  | setFunction index pos => exact h.setFunction index pos
  | setLabel index pos => exact h.setLabel index pos
  | place index =>
    have hset := h.setLabel index u.used
    unfold Buffer.step Builder.step Builder.place
    rw [h.used_eq] at hset ⊢
    exact hset
  | resize size =>
    have hresize := h.toBacks.resize size
    have heq := resize_eq u size
    unfold Buffer.step Builder.step
    dsimp only
    rw [heq] at hresize ⊢
    exact ⟨⟨hresize, h.functionsAt_eq, h.labelsAt_eq⟩, rfl⟩

end Mirrors

end Buffer

theorem Builder.trace_cons (b : Builder) (s : Step) (rest : List Step) :
    b.trace (s :: rest) = b.step s :: (b.step s).1.trace rest := by
  have hfold : ∀ (steps : List Step) (done : Array Outcome) (b : Builder),
      (steps.foldl (fun (l : Array Outcome × Builder) s =>
        let r := l.2.step s
        (l.1.push r, r.1)) (done, b)).1.toList = done.toList ++ b.trace steps := by
    intro steps
    induction steps with
    | nil => intro done b; simp [trace]
    | cons s rest ih =>
      intro done b
      rw [trace, List.foldl_cons, List.foldl_cons, ih, ih]
      simp
  rw [trace, List.foldl_cons, hfold]
  rfl

/-- After every step the buffer mirrors the builder, and the same steps are refused. -/
theorem Buffer.Mirrors.trace {u : Buffer} {b : Builder} (h : Mirrors u b) (steps : List Builder.Step) :
    List.Forall₂ (fun o p => Mirrors o.1 p.1 ∧ o.2 = p.2) (u.trace steps) (b.trace steps) := by
  induction steps generalizing u b with
  | nil => exact .nil
  | cons s rest ih =>
    rw [Builder.trace_cons]
    exact .cons (h.step s) (ih (h.step s).1)

/-- So the image always fits the capacity. -/
theorem Buffer.Mirrors.size_le_trace {u : Buffer} {b : Builder} (h : Mirrors u b)
    (steps : List Builder.Step) : ∀ p ∈ b.trace steps, p.1.size ≤ p.1.capacity := by
  induction steps generalizing u b with
  | nil => exact fun p hp => nomatch hp
  | cons s rest ih =>
    rw [Builder.trace_cons, List.forall_mem_cons]
    exact ⟨(h.step s).1.size_le, ih (h.step s).1⟩

end RegisterLang
