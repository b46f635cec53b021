import RegisterLang.Command

/-!
# The program

The host of a command is the system that the program runs on.
-/
open RegisterLang Text

/-- The cause of a failed use of a file. -/
def fileCause : IO.Error → FileCause
  | .noFileOrDirectory .. => .notExist
  | .inappropriateType _ _ details =>
    if details = FileCause.isDirectory.text.capitalize then .isDirectory else .notDirectory
  | e => .other (toString e)

/-- Reads a file of the system. -/
def readSystemFile (path : String) : IO (Except FileError Bytes) := do
  try
    return .ok (← IO.FS.readBinFile path).toList
  catch e =>
    let cause := fileCause e
    return .error ⟨if cause = .isDirectory then "read" else "open", path, cause⟩

def writeSystemFile (path : String) (bytes : Bytes) : IO (Except FileError Unit) := do
  try
    IO.FS.writeBinFile path ⟨bytes.toArray⟩
    return .ok ()
  catch e =>
    return .error ⟨"open", path, fileCause e⟩

/-- The nearest file of a name in the current directory or above it. -/
def findSystemFile (name : String) : IO (Option String) := do
  let mut directory := some (← IO.currentDir)
  while true do
    let some d := directory | break
    if ← (d / name).pathExists then return some (d / name).toString
    directory := d.parent
  return none

def systemHost : Host IO where
  read := readSystemFile
  write := writeSystemFile
  findUp := findSystemFile
  print := IO.print
  complain := IO.eprintln

def main (args : List String) : IO UInt32 := Command.invoke systemHost args
