import RegisterLang.Diagnostic
import RegisterLang.Text.Utf8

/-!
# Lines of a source text

The table holds the offset of the first byte of every line. An offset is located by a binary search
for the last line that starts at or before it.
-/
namespace RegisterLang.Source
open Text

structure LineTable where
  starts : Array Nat
  deriving Repr

/-- The offsets just after the newlines of a text that begins at `offset`, after those in `acc`. -/
def lineStarts (acc : Array Nat) (offset : Nat) : Bytes → Array Nat
  | [] => acc
  | b :: rest => lineStarts (if b = 10 then acc.push (offset + 1) else acc) (offset + 1) rest

def LineTable.ofText (text : Bytes) : LineTable :=
  ⟨lineStarts #[0] 0 text⟩

/-- The number of entries of an ascending table that are at most `i`, given that those below `lo` are
and those from `hi` on are not. -/
def countUpTo (table : Array Nat) (i : Int) (lo hi : Nat) : Nat :=
  if lo < hi then
    let mid := (lo + hi) / 2
    if i < table.getD mid 0 then countUpTo table i lo mid else countUpTo table i (mid + 1) hi
  else lo
termination_by hi - lo
decreasing_by all_goals omega

/-- The line and column of a byte offset. Offsets before the text count back from the first line. -/
def LineTable.locate (t : LineTable) (offset : Int) : Pos :=
  let line := countUpTo t.starts offset 0 t.starts.size - 1
  ⟨line + 1, offset - t.starts.getD line 0 + 1⟩

end RegisterLang.Source
