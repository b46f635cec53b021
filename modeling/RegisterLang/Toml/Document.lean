import RegisterLang.Toml.Reader

/-!
# Tables of a TOML text

Entries are put into a tree of tables one after the other. A table that is only implied by a longer
key may be defined once more; everything else is defined at most once. A header of an array of tables
begins a new table, and keys below it belong to the last one.
-/
namespace RegisterLang.Toml
open Text

inductive Item where
  | int (n : Int)
  /-- any other value that is no table -/
  | other
  | table (t : List (String × Item))
  | tables (l : List (List (String × Item)))
  deriving Repr, Inhabited

abbrev Table := List (String × Item)

/-- The table that keys below an item belong to. -/
def Item.inside : Item → Option Table
  | table t => some t
  | tables l => l.getLast?
  | _ => none

def Item.mapInside (f : Table → Table) : Item → Item
  | table t => table (f t)
  | tables l => tables (l.dropLast ++ (l.getLast?.map f).toList)
  | i => i

/-- The table of a path. -/
def tableAt : Path → Table → Option Table
  | [], t => some t
  | k :: rest, t => (t.lookup k).bind Item.inside |>.bind (tableAt rest)

/-- Changes the table of a path. -/
def updateAt (f : Table → Table) : Path → Table → Table
  | [], t => f t
  | k :: rest, t => t.map fun (k', i) => if k' = k then (k', i.mapInside (updateAt f rest)) else (k', i)

/-- The tables so far, the paths that are only implied, and the keys in the order of the text. -/
structure Document where
  root : Table := []
  implied : List Path := []
  keys : Array Path := #[]

namespace Document

/-- Marks a path as implied. -/
def imply (d : Document) (p : Path) : Document :=
  { d with implied := p :: d.implied }

def isImplied (d : Document) (p : Path) : Bool := d.implied.contains p

def settle (d : Document) (p : Path) : Document :=
  { d with implied := d.implied.filter (· ≠ p) }

def note (d : Document) (p : Path) : Document := { d with keys := d.keys.push p }

/-- Adds an item to the table of a path. If the key is taken by an implied table, that one stays, or
gives way if `replace` is set. -/
def put (d : Document) (context : Path) (key : String) (item : Item) (replace : Bool) :
    Option Document := do
  let t ← tableAt context d.root
  let path := context ++ [key]
  if (t.lookup key).isSome then
    if !d.isImplied path then none
    else if replace then
      some
        { d.settle path with
          root := updateAt (fun t => t.map fun (k, i) => if k = key then (k, item) else (k, i))
            context d.root }
    else some (d.settle path)
  else some { d with root := updateAt (· ++ [(key, item)]) context d.root }

/-- Makes sure that there are tables on the way from `context` along a path. -/
def reach (d : Document) (context : Path) : Path → Option Document
  | [] => (tableAt context d.root).map fun _ => d
  | k :: rest => do
    let t ← tableAt context d.root
    let path := context ++ [k]
    let d := if (t.lookup k).isSome then d
      else { d.imply path with root := updateAt (· ++ [(k, .table [])]) context d.root }
    reach d path rest

/-- Opens the table of a path. -/
def openTable (d : Document) (path : Path) : Option Document := do
  let key ← path.getLast?
  let d ← d.reach [] path.dropLast
  d.put path.dropLast key (.table []) false

/-- Opens a new table at the end of the array of a path. -/
def openItem (d : Document) (path : Path) : Option Document := do
  let key ← path.getLast?
  let d ← d.reach [] path.dropLast
  let t ← tableAt path.dropLast d.root
  match t.lookup key with
  | none =>
    some { d with root := updateAt (· ++ [(key, .tables [[]])]) path.dropLast d.root }
  | some (.tables _) =>
    let grow (k : String) (i : Item) : String × Item :=
      match i with
      | .tables l => if k = key then (k, .tables (l ++ [[]])) else (k, i)
      | i => (k, i)
    some { d with root := updateAt (·.map fun (k, i) => grow k i) path.dropLast d.root }
  | some _ => none

/-- Opens the tables that a key with points implies. -/
def openImplied (d : Document) (context : Path) : Path → Option Document
  | [] => some d
  | k :: rest => do
    let path := context ++ [k]
    let d ← (d.imply path).openTable path
    d.openImplied path rest

mutual

/-- Adds a value under a key of the table of a path. -/
def putValue (d : Document) (context : Path) (key : String) : Value → Option Document
  | .int n => d.put context key (.int n) false
  | .scalar _ => d.put context key .other false
  | .array items => do
    let d ← putItems d context key items
    d.put context key .other true
  | .table pairs => do
    let path := context ++ [key]
    let d ← (d.imply path).openTable path
    let d ← putPairs d path pairs
    d.put context key (.table []) false
termination_by structural x => x

/-- Opens the tables among the items of an array. -/
def putItems (d : Document) (context : Path) (key : String) : List Value → Option Document
  | [] => some d
  | v :: rest => do
    let d ← putItem d context key v
    putItems d context key rest
termination_by structural x => x

def putItem (d : Document) (context : Path) (key : String) : Value → Option Document
  | .array items => putItems d context key items
  | .table pairs => do
    let path := context ++ [key]
    let d ← (d.imply path).openItem path
    putPairs d path pairs
  | _ => some d
termination_by structural x => x

/-- Adds pairs to the table of a path. -/
def putPairs (d : Document) (context : Path) : List (Path × Value) → Option Document
  | [] => some d
  | (path, v) :: rest => do
    let key ← path.getLast?
    let d ← d.openImplied context path.dropLast
    let table := context ++ path.dropLast
    let d ← putValue (d.note (table ++ [key])) table key v
    putPairs d context rest
termination_by structural x => x

end

/-- Adds entries, where pairs belong to the table of `context`. -/
def addAll (d : Document) (context : Path) : List Entry → Option Document
  | [] => some d
  | .header path :: rest => do
    let d ← d.openTable path
    (d.note path).addAll path rest
  | .item path :: rest => do
    let d ← d.openItem path
    (d.note path).addAll path rest
  | .pair path v :: rest => do
    let d ← putPairs d context [(path, v)]
    d.addAll context rest

/-- The tables of a text, none if it is not well formed or defines something twice. -/
def read (bs : Bytes) : Option Document := do
  let entries ← Toml.read bs
  addAll {} [] entries

end Document

/-- How a character is written in a quoted part of a key. -/
def escapeKeyChar (c : Char) : String :=
  match c with
  | '"' => "\\\""
  | '\\' => "\\\\"
  | '\x08' => "\\b"
  | '\t' => "\\t"
  | '\n' => "\\n"
  | '\x0c' => "\\f"
  | '\r' => "\\r"
  | c => if c.toNat < 32 || c.toNat = 127 then "\\u" ++ hexPadded 4 c.toNat else c.toString

/-- A part of a key, in quotes where it needs them. -/
def partText (s : String) : String :=
  if !s.isEmpty && s.toList.all isBareChar then s
  else "\"" ++ String.join (s.toList.map escapeKeyChar) ++ "\""

def pathText (p : Path) : String := ".".intercalate (p.map partText)

end RegisterLang.Toml
