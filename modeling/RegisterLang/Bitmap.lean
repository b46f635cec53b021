import RegisterLang.Log.Wire

/-!
# Sets of numbers as words of bits

Number `n` is bit `n % 64` of word `n / 64`, and numbers beyond the last word are not in the set.
Positions below zero name no bit: what is asked of them fails where a word would be needed.
-/
namespace RegisterLang
open Text

structure Bitmap where
  words : Array UInt64 := #[]
  deriving DecidableEq, Repr, Inhabited

/-- What is wrong with a position below zero. -/
inductive BitmapFault where
  | word (index : Int)
  | bit
  deriving DecidableEq, Repr

def BitmapFault.message : BitmapFault → String
  | word i => "runtime error: index out of range [" ++ toString i ++ "]"
  | bit => "runtime error: negative shift amount"

namespace Bitmap

def wordSize : Nat := 64

/-- The word of a position; division cuts off toward zero. -/
def wordIndex (pos : Int) : Int := pos.tdiv wordSize

/-- An empty set with room for the numbers below `n`, at least for one word. -/
def make (n : Int) : Bitmap :=
  ⟨Array.replicate (max 1 (wordIndex (n + 63)).toNat) 0⟩

def testBit (w : UInt64) (j : Nat) : Bool := w &&& (1 <<< j.toUInt64) ≠ 0

def contains (s : Bitmap) (n : Nat) : Bool :=
  testBit (s.words.getD (n / wordSize) 0) (n % wordSize)

/-- The set with room for one more word if it ends before word `i`. -/
def grow (s : Bitmap) (i : Int) : Bitmap :=
  ⟨s.words ++ Array.replicate (i.toNat + 1 - s.words.size) 0⟩

def insert (s : Bitmap) (n : Nat) : Bitmap :=
  let s := s.grow (n / wordSize : Nat)
  ⟨s.words.modify (n / wordSize) fun w => w ||| 1 <<< (n % wordSize).toUInt64⟩

def erase (s : Bitmap) (n : Nat) : Bitmap :=
  ⟨s.words.modify (n / wordSize) fun w => w &&& ~~~(1 <<< (n % wordSize).toUInt64)⟩

def reset (s : Bitmap) : Bitmap := ⟨s.words.map fun _ => 0⟩

/-- How asking for a position fails; without words nothing is asked of a word. -/
def fault? (s : Bitmap) (pos : Int) : Option BitmapFault :=
  if 0 ≤ pos then none
  else if wordIndex pos < 0 then some (.word (wordIndex pos))
  else if s.words.isEmpty then none
  else some .bit

/-- Adds a position. The words grow first, also where the position is then refused. -/
def set (s : Bitmap) (pos : Int) : Bitmap × Option BitmapFault :=
  let s := if wordIndex pos < 0 then s else s.grow (wordIndex pos)
  match s.fault? pos with
  | some e => (s, some e)
  | none => (s.insert pos.toNat, none)

def clear (s : Bitmap) (pos : Int) : Bitmap × Option BitmapFault :=
  match s.fault? pos with
  | some e => (s, some e)
  | none => (if 0 ≤ pos then s.erase pos.toNat else s, none)

def isSet (s : Bitmap) (pos : Int) : Except BitmapFault Bool :=
  match s.fault? pos with
  | some e => .error e
  | none => .ok (0 ≤ pos && s.contains pos.toNat)

/-- Adds a position and tells whether it was there before. -/
def testAndSet (s : Bitmap) (pos : Int) : Bitmap × Except BitmapFault Bool :=
  match s.isSet pos with
  | .error e => (s, .error e)
  | .ok was =>
    match s.set pos with
    | (s, some e) => (s, .error e)
    | (s, none) => (s, .ok was)

def wordElements (w : UInt64) : List Nat :=
  (List.range wordSize).filter (testBit w)

/-- The numbers of the set from the least to the greatest. -/
def elements (s : Bitmap) : List Nat :=
  s.words.toList.zipIdx.flatMap fun (w, i) => (wordElements w).map (i * wordSize + ·)

def size (s : Bitmap) : Nat :=
  s.words.foldl (fun n w => n + (wordElements w).length) 0

/-- Goes through numbers until the visitor declines to go on. -/
def visit {σ : Type} (f : σ → Nat → σ × Bool) : σ → List Nat → σ
  | state, [] => state
  | state, n :: rest =>
    let (state, goOn) := f state n
    if goOn then visit f state rest else state

/-- Visits the numbers of the set in ascending order. -/
def range {σ : Type} (s : Bitmap) (f : σ → Nat → σ × Bool) (start : σ) : σ :=
  visit f start s.elements

/-- The least bit that is not set, sixty-four if all are. -/
def firstZero (w : UInt64) : Nat :=
  ((List.range wordSize).find? fun j => !testBit w j).getD wordSize

/-- The least number below `n` that is not in the set, where word `i` is the first of `left` words
to look at. -/
def firstUnsetFrom (s : Bitmap) (n : Nat) : Nat → Nat → Option Nat
  | 0, _ => none
  | left + 1, i =>
    let j := firstZero (s.words.getD i 0)
    if j < wordSize ∧ i * wordSize + j < n then some (i * wordSize + j)
    else firstUnsetFrom s n left (i + 1)

/-- The least number below `n` that is not in the set. -/
def firstUnset (s : Bitmap) (n : Int) : Option Nat :=
  firstUnsetFrom s n.toNat ((n.toNat + wordSize - 1) / wordSize) 0

/-- The numbers of the set as a log record. -/
def record (s : Bitmap) : Bytes :=
  if s.words.isEmpty then Wire.absent
  else Wire.array (s.elements.map fun (n : Nat) => Wire.int n)

end Bitmap

end RegisterLang
