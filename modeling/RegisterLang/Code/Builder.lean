import RegisterLang.Code.Instr

/-!
# Growing an image

A builder holds an image whose tables were reserved at the start and whose instructions are appended.
Table entries are set to their offsets at any time. The capacity is that of the buffer behind the
image: it doubles until what is appended fits.
-/
namespace RegisterLang
open Text

/-- The low thirty-two bits of a number. -/
def lowWord (n : Int) : Nat := (n % 2 ^ 32).toNat

structure Builder where
  image : Image
  capacity : Nat
  functions : Int
  labels : Int
  deriving Repr

/-- What a builder refuses. -/
inductive BuildFault where
  | functionIndex (index entries : Int)
  | labelIndex (index entries : Int)
  | instr (e : EncodeFault)
  deriving DecidableEq

def BuildFault.message : BuildFault → String
  | functionIndex i n =>
    "function index " ++ toString i ++ " out of table (" ++ toString n ++ " entries)"
  | labelIndex i n => "label index " ++ toString i ++ " out of table (" ++ toString n ++ " entries)"
  | instr e => e.message

namespace Builder

/-- The least capacity of a buffer. -/
def minCapacity : Nat := 16

/-- A capacity doubled until it reaches what is needed. -/
def grown (need capacity : Nat) : Nat :=
  if capacity = 0 ∨ need ≤ capacity then capacity else grown need (2 * capacity)
termination_by need - capacity

def size (b : Builder) : Nat := b.image.size

def append (b : Builder) (bytes : Bytes) : Builder :=
  let capacity := grown (b.size + bytes.length) b.capacity
  { b with image := b.image ++ bytes, capacity }

/-- A table of `n` entries at offset zero. -/
def emptyTable (n : Int) : Bytes :=
  littleEndian 4 (lowWord n) ++
    (List.range n.toNat).flatMap fun i => littleEndian 4 i ++ littleEndian 4 0

/-- A builder with no instructions and with tables of the given numbers of entries. -/
def make (capacity functions labels : Int) : Builder :=
  let b : Builder := { image := #[], capacity := max minCapacity capacity.toNat, functions, labels }
  ((b.append Image.magic).append (emptyTable functions)).append (emptyTable labels)

/-- Where the entries of the function table begin. -/
def functionsStart : Nat := Image.tablesStart + 4

/-- Where the entries of the label table begin. -/
def labelsStart (b : Builder) : Nat := functionsStart + b.functions.toNat * Image.entrySize + 4

/-- Sets the offset of an entry in the table at `start`. -/
def setEntry (b : Builder) (start : Nat) (index pos : Int) : Builder :=
  let offset := start + index.toNat * Image.entrySize + 4
  { b with image := b.image.write offset (littleEndian 4 (lowWord pos)) }

abbrev Outcome := Builder × Option BuildFault

def setFunction (b : Builder) (index pos : Int) : Outcome :=
  if index < 0 ∨ b.functions ≤ index then (b, some (.functionIndex index b.functions))
  else (b.setEntry functionsStart index pos, none)

def setLabel (b : Builder) (index pos : Int) : Outcome :=
  if index < 0 ∨ b.labels ≤ index then (b, some (.labelIndex index b.labels))
  else (b.setEntry b.labelsStart index pos, none)

/-- Points a label at the end of the image. -/
def place (b : Builder) (index : Int) : Outcome := b.setLabel index b.size

/-- Makes the buffer larger, never smaller. -/
def resize (b : Builder) (capacity : Int) : Builder :=
  { b with capacity := max b.capacity capacity.toNat }

/-- Appends an instruction. One with a wrong operation leaves nothing behind, and a `set` of no known
type leaves all but its immediate. -/
def emit (b : Builder) (x : Instr) : Outcome :=
  match x.fault? with
  | none => (b.append x.bytes, none)
  | some (.badSetType t) => (b.append x.bytes, some (.instr (.badSetType t)))
  | some e => (b, some (.instr e))

inductive Step where
  | append (bytes : Bytes)
  | emit (x : Instr)
  /-- a function's first instruction together with its table entry -/
  | function (index : Int) (regs args : UInt16)
  | setFunction (index pos : Int)
  | setLabel (index pos : Int)
  | place (index : Int)
  | resize (capacity : Int)
  deriving DecidableEq

def step (b : Builder) : Step → Outcome
  | .append bytes => (b.append bytes, none)
  | .emit x => b.emit x
  | .function index regs args => (b.append (Instr.func regs args).bytes).setFunction index b.size
  | .setFunction index pos => b.setFunction index pos
  | .setLabel index pos => b.setLabel index pos
  | .place index => b.place index
  | .resize capacity => (b.resize capacity, none)

/-- The builder after a list of steps; a step that is refused stays refused and the next follows. -/
def run (b : Builder) (steps : List Step) : Builder :=
  steps.foldl (fun b s => (b.step s).1) b

/-- What every step leaves, in order. -/
def trace (b : Builder) (steps : List Step) : List Outcome :=
  (steps.foldl (fun (l : Array Outcome × Builder) s =>
    let r := l.2.step s
    (l.1.push r, r.1)) (#[], b)).1.toList

end Builder

end RegisterLang
