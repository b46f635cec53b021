import RegisterLang.Text.Utf8

/-!
# Trees of files

A tree holds files and directories under one directory. Paths are relative to it and are followed
part by part, so a part that is not the last has to be a directory.
-/
namespace RegisterLang
open Text

/-- What went wrong with a path. -/
inductive FileCause where
  | notExist
  | notDirectory
  | isDirectory
  /-- anything else, with its text -/
  | other (text : String)
  deriving DecidableEq, Repr

def FileCause.text : FileCause → String
  | notExist => "no such file or directory"
  | notDirectory => "not a directory"
  | isDirectory => "is a directory"
  | other s => s

/-- A failed use of a file: what was tried, on which path, and what went wrong. -/
structure FileError where
  action : String
  path : String
  cause : FileCause
  deriving DecidableEq, Repr

def FileError.message (e : FileError) : String :=
  e.action ++ " " ++ e.path ++ ": " ++ e.cause.text

/-- The parts of paths with the bytes of files; a directory has none. -/
structure FileTree where
  entries : List (List String × Option Bytes) := []
  deriving Repr

namespace FileTree

def parts (path : String) : List String := (path.splitOn "/")

def find? (t : FileTree) (p : List String) : Option (Option Bytes) :=
  t.entries.lookup p

/-- Whether there is a directory; the ones that files lie in need no entry. -/
def isDirectory (t : FileTree) (p : List String) : Bool :=
  p.isEmpty || t.entries.any fun (q, e) => (q = p && e.isNone) || (p.length < q.length && q.take p.length = p)

def exists? (t : FileTree) (p : List String) : Bool :=
  t.isDirectory p || (t.find? p).isSome

/-- The place of a path from a directory or file on. -/
def follow (t : FileTree) (place : List String) : List String → Except FileCause (List String)
  | [] => if t.exists? place then .ok place else .error .notExist
  | part :: rest =>
    if !t.exists? place then .error .notExist
    else if !t.isDirectory place then .error .notDirectory
    else if part = "" ∨ part = "." then t.follow place rest
    else if part = ".." then t.follow place.dropLast rest
    else t.follow (place ++ [part]) rest

def read (t : FileTree) (path : String) : Except FileError Bytes :=
  if path.isEmpty then .error ⟨"open", path, .notExist⟩
  else
    match t.follow [] (parts path) with
    | .error e => .error ⟨"open", path, e⟩
    | .ok p =>
      match t.find? p with
      | some (some bytes) => .ok bytes
      | _ => .error ⟨"read", path, .isDirectory⟩

/-- The place of a file that need not be there yet. -/
def target (t : FileTree) (path : String) : Except FileCause (List String) :=
  let l := parts path
  match l.getLast? with
  | none => .error .notExist
  | some name =>
    match t.follow [] l.dropLast with
    | .error e => .error e
    | .ok place =>
      if path.isEmpty then .error .notExist
      else if !t.isDirectory place then .error .notDirectory
      else if name = "" ∨ name = "." ∨ name = ".." then .error .isDirectory
      else if t.isDirectory (place ++ [name]) then .error .isDirectory
      else .ok (place ++ [name])

def write (t : FileTree) (path : String) (bytes : Bytes) : Except FileError FileTree :=
  match t.target path with
  | .error e => .error ⟨"open", path, e⟩
  | .ok p => .ok ⟨(p, some bytes) :: t.entries.filter fun e => e.1 ≠ p⟩

/-- The parts of a path without those that change nothing, and with each `..` taken back. -/
def clean (place : List String) : List String → List String
  | [] => place
  | part :: rest =>
    if part = "" ∨ part = "." then clean place rest
    else if part = ".." then clean place.dropLast rest
    else clean (place ++ [part]) rest

/-- The nearest file of a name in a directory or above it, where `fuel` directories are looked at. -/
def findFrom (t : FileTree) (name : String) : Nat → List String → Option String
  | 0, _ => none
  | fuel + 1, place =>
    let p := place ++ [name]
    if t.exists? p then some ("/".intercalate p)
    else if place.isEmpty then none
    else t.findFrom name fuel place.dropLast

/-- The path of the nearest file of a name in a directory or above it. -/
def findUp (t : FileTree) (directory name : String) : Option String :=
  let place := clean [] (parts directory)
  t.findFrom name (place.length + 1) place

/-- The files of a tree that another one does not have, by path. -/
def filesBeside (t before : FileTree) : List (String × Bytes) :=
  let new := t.entries.filterMap fun (p, e) =>
    match e with
    | some bytes => if (before.find? p).isNone then some ("/".intercalate p, bytes) else none
    | none => none
  new.mergeSort fun a b => a.1 ≤ b.1

/-- Puts a file, or a directory if there are no bytes, at a path. -/
def add (t : FileTree) (path : String) (bytes : Option Bytes) : FileTree :=
  ⟨t.entries ++ [(clean [] (parts path), bytes)]⟩

end FileTree

end RegisterLang
