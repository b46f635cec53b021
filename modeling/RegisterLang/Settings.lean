import RegisterLang.Machine.Step
import RegisterLang.Compiler
import RegisterLang.Toml.Document

/-!
# Settings

Settings are read from a TOML text over the standard ones. There are two tables of whole numbers, and
their names and keys match in either case. A key that nothing matches is an error.
-/
namespace RegisterLang
open Text Toml

/-- The limits of the machine and the initial capacity of an image. -/
structure Settings where
  registers : Int := Limits.standard.registers
  frames : Int := Limits.standard.frames
  stack : Int := Limits.standard.stack
  buffer : Int := standardBuffer
  deriving DecidableEq, Repr

namespace Settings

/-- The name of the file that settings are looked for in. -/
def fileName : String := "sl.toml"

def limits (s : Settings) : Limits := .ofSettings s.registers s.frames s.stack

inductive ReadError where
  | malformed
  | unknownKeys (keys : List Path)
  deriving DecidableEq, Repr

def ReadError.message : ReadError → String
  | malformed => "decode: toml"
  | unknownKeys keys => ", ".intercalate (keys.map pathText) ++ ": unknown key"

/-- A character without its case; two letters have a second small form. -/
def foldChar (c : Char) : Char :=
  if c = '\u017f' then 's' else if c = '\u212a' then 'k' else c.toLower

def matches? (names : List String) (key : String) : Option String :=
  names.find? fun n => n.toList = key.toList.map foldChar

/-- Sets a number by its place. -/
def assign (s : Settings) (table field : String) (n : Int) : Settings :=
  match table, field with
  | "vm", "registers" => { s with registers := n }
  | "vm", "frames" => { s with frames := n }
  | "vm", "stack" => { s with stack := n }
  | "compiler", "buffer" => { s with buffer := n }
  | _, _ => s

def tableNames : List String := ["vm", "compiler"]

def fieldNames (table : String) : List String :=
  if table = "vm" then ["registers", "frames", "stack"] else ["buffer"]

/-- Reads the numbers of a table; `known` are the paths that were matched. -/
def readFields (table : String) (path : Path) (s : Settings) (known : List Path) :
    Table → Option (Settings × List Path)
  | [] => some (s, known)
  | (key, item) :: rest =>
    match matches? (fieldNames table) key, item with
    | none, _ => readFields table path s known rest
    | some field, .int n =>
      readFields table path (s.assign table field n) ((path ++ [key]) :: known) rest
    | some _, _ => none

/-- Reads the tables. -/
def readTables (s : Settings) (known : List Path) : Table → Option (Settings × List Path)
  | [] => some (s, known)
  | (key, item) :: rest =>
    match matches? tableNames key, item with
    | none, _ => readTables s known rest
    | some table, .table t => do
      let (s, known) ← readFields table [key] s ([key] :: known) t
      readTables s known rest
    | some _, _ => none

/-- The settings of a text. -/
def read (text : Bytes) : Except ReadError Settings :=
  match Document.read text with
  | none => .error .malformed
  | some d =>
    match readTables {} [] d.root with
    | none => .error .malformed
    | some (s, known) =>
      let unknown := d.keys.toList.filter fun k => !known.contains k
      if unknown.isEmpty then .ok s else .error (.unknownKeys unknown)

end Settings

end RegisterLang
