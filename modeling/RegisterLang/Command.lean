import RegisterLang.Code.Listing
import RegisterLang.FileTree
import RegisterLang.Machine.Run
import RegisterLang.Settings
import RegisterLang.Tree.Printer

/-!
# The command line

A command works on files in turn and stops at the first that fails. Everything outside goes through a
host, so a command runs on a tree of files as well as on a real system.
-/
namespace RegisterLang
open Text

/-- What a command may do outside. -/
structure Host (m : Type → Type) where
  read : String → m (Except FileError Bytes)
  write : String → Bytes → m (Except FileError Unit)
  /-- the nearest file of a name in the current directory or above it -/
  findUp : String → m (Option String)
  print : String → m Unit
  /-- a line for the user about a problem -/
  complain : String → m Unit

namespace Settings

inductive LoadError where
  | file (e : FileError)
  | text (path : String) (e : ReadError)
  deriving DecidableEq, Repr

def LoadError.message : LoadError → String
  | file e => "read: " ++ e.message
  | text path e => path ++ ": " ++ e.message

/-- The settings in what was read from a file. -/
def load (path : String) : Except FileError Bytes → Except LoadError Settings
  | .error e => .error (.file e)
  | .ok bytes => (read bytes).mapError (.text path)

end Settings

namespace Command

inductive Action where
  | parse
  | compile
  | run
  | exec
  | disasm
  deriving DecidableEq, Repr

def Action.name : Action → String
  | parse => "parse"
  | compile => "compile"
  | run => "run"
  | exec => "exec"
  | disasm => "disasm"

def Action.about : Action → String
  | parse => "parse, check and print source files back"
  | compile => "compile source file into code unit"
  | run => "run compiled code unit"
  | exec => "compile and run source file"
  | disasm => "print code unit listing, source files are compiled first"

def actions : List Action := [.parse, .compile, .run, .exec, .disasm]

def helpLine (name about : String) : String := "    " ++ padRight 20 name ++ " - " ++ about ++ "\n"

def help : String :=
  "sl [flags] - sl is a compiler and virtual machine for sl source code\n\nSubcommands\n" ++
    String.join (actions.map fun a => helpLine a.name a.about) ++
    "\nFlags\n" ++
    helpLine "config" ("config file (default: " ++ Settings.fileName ++ " in current or parent dirs)") ++
    helpLine "verbosity,v" "logger verbosity topics (vm_trace, dump_funcs, ...)" ++
    helpLine "help,h=[hidden]" "print command help end exit"

/-- What the arguments ask for. -/
structure Request where
  action : Option Action := none
  files : Array String := #[]
  config : String := ""
  output : String := ""
  help : Bool := false
  deriving Repr

inductive UsageError where
  | strayArgument (arg : String)
  | unknownFlag (flag : String)
  | noValue (flag : String)
  deriving DecidableEq, Repr

def UsageError.message : UsageError → String
  | strayArgument arg => "no args expected, got " ++ arg
  | unknownFlag flag => "no such flag: " ++ flag
  | noValue flag => "flag " ++ flag ++ ": value expected"

inductive Flag where
  | config
  | verbosity
  | output
  | help
  deriving DecidableEq, Repr

/-- The flag of a name; only `compile` has an output. -/
def flag? (action : Option Action) : String → Option Flag
  | "config" => some .config
  | "verbosity" | "v" => some .verbosity
  | "output" | "o" => if action = some .compile then some .output else none
  | "help" | "h" => some .help
  | _ => none

def Request.set (r : Request) (value : String) : Flag → Request
  | .config => { r with config := value }
  | .output => { r with output := value }
  | .verbosity => r
  | .help => { r with help := true }

/-- The name of a flag and the value after its equality sign. -/
def splitFlag (arg : String) : String × Option String :=
  let name := arg.toList.dropWhile (· = '-')
  let (front, rest) := name.span (· ≠ '=')
  (String.ofList front, if rest.isEmpty then none else some (String.ofList rest.tail))

def isFlag (arg : String) : Bool := arg.startsWith "-" && arg ≠ "-"

/-- An argument that is no flag: a command, and then its files. -/
def Request.take (r : Request) (arg : String) : Except UsageError Request :=
  match r.action with
  | some _ => .ok { r with files := r.files.push arg }
  | none =>
    match actions.find? fun a => a.name = arg with
    | some a => .ok { r with action := some a }
    | none => .error (.strayArgument arg)

/-- Reads arguments; an error comes with what was read before it. -/
def Request.read (r : Request) : List String → Except (Request × UsageError) Request
  | [] => .ok r
  | arg :: rest =>
    if arg = "--" then
      rest.foldlM (fun r arg => (r.take arg).mapError fun e => (r, e)) r
    else if isFlag arg then
      let (name, value) := splitFlag arg
      match flag? r.action name, value, rest with
      | none, _, _ => .error (r, .unknownFlag arg)
      | some .help, _, rest => (r.set "" .help).read rest
      | some f, some v, rest => (r.set v f).read rest
      | some f, none, v :: rest => (r.set v f).read rest
      | some _, none, [] => .error (r, .noValue arg)
    else
      match r.take arg with
      | .ok r => r.read rest
      | .error e => .error (r, e)

/-- Why a command stopped: an error that it reports, or a fault that it does not handle. -/
inductive Stop where
  | failed (message : String)
  | crashed (message : String)
  deriving DecidableEq, Repr

variable {m : Type → Type} [Monad m] (host : Host m)

/-- A file's bytes. -/
def readFile (name : String) : ExceptT Stop m Bytes := do
  match ← host.read name with
  | .ok bytes => return bytes
  | .error e => throw (.failed ("read file: " ++ e.message))

/-- Shows what is wrong with a source file. -/
def report {α : Type} (name : String) (e : CompileError) : ExceptT Stop m α := do
  match e with
  | .reported _ ds =>
    ds.forM fun d => host.complain (name ++ ":" ++ d.text)
    throw (.failed (name ++ ": " ++ toString ds.length ++ " errors"))
  | .failed _ => throw (.failed ("compile " ++ name ++ ": " ++ e.message))

/-- The image of a source text. -/
def compileText (s : Settings) (name : String) (text : Bytes) : ExceptT Stop m Image := do
  match (RegisterLang.compile name text s.buffer).result with
  | .ok b => return b.image
  | .error e => report host name e

def compileFile (s : Settings) (name : String) : ExceptT Stop m Image := do
  match ← host.read name with
  | .ok text => compileText host s name text
  | .error e => throw (.failed ("compile " ++ name ++ ": read file: " ++ e.message))

/-- The extension of a path with its point, empty if the last part has none. -/
def extension (path : String) : String :=
  let tail := path.toList.reverse.takeWhile (· ≠ '/')
  let (after, rest) := tail.span (· ≠ '.')
  if rest.isEmpty then "" else String.ofList ('.' :: after.reverse)

/-- Where an image goes that no other place was asked for. -/
def imageName (source : String) : String :=
  String.ofList (source.toList.take (source.length - (extension source).length)) ++ ".cu"

/-- Steps after which a run is given up. -/
def stepLimit : Nat := 10 ^ 18

/-- Runs an image and prints its result. -/
def runImage (s : Settings) (name : String) (image : Image) : ExceptT Stop m Unit := do
  match (Machine.run s.limits image stepLimit).ending with
  | .returned v => host.print (toString v.value ++ "\n")
  | .failed e => throw (.failed ("run " ++ name ++ ": " ++ e.message))
  | .unfinished => throw (.failed ("run " ++ name ++ ": out of steps"))

def parseFile (name : String) : ExceptT Stop m Unit := do
  let text ← readFile host name
  match parseChecked name text with
  | .error e => report host name e
  | .ok f =>
    match Printer.printFile f with
    | .ok s => host.print s
    | .error (.tooDeep d) => throw (.crashed (Printer.PrintError.tooDeep d).message)
    | .error e => throw (.failed ("format " ++ name ++ ": " ++ e.message))

/-- Compiles a file into another. -/
def writeImage (s : Settings) (output name : String) : ExceptT Stop m Unit := do
  let image ← compileFile host s name
  let target := if output.isEmpty then imageName name else output
  match ← host.write target image.toList with
  | .ok () => return
  | .error e => throw (.failed ("write " ++ target ++ ": " ++ e.message))

def listFile (s : Settings) (name : String) : ExceptT Stop m Unit := do
  let bytes ← readFile host name
  let image : Image ← if bytes.take 4 = Image.magic then pure bytes.toArray
    else compileText host s name bytes
  match image.listing with
  | (text, none) => host.print ("; " ++ name ++ "\n" ++ text)
  | (_, some e) => throw (.failed ("disassemble " ++ name ++ ": " ++ e.message))

/-- The settings that a request names, or those of the nearest settings file. -/
def loadSettings (config : String) : ExceptT Stop m Settings := do
  let path ← if config.isEmpty then host.findUp Settings.fileName else pure (some config)
  match path with
  | none => return {}
  | some path =>
    match Settings.load path (← host.read path) with
    | .ok s => return s
    | .error e => throw (.failed ("load config: " ++ e.message))

/-- Carries out an action on the files of a request. -/
def perform (action : Action) (r : Request) : ExceptT Stop m Unit := do
  let s ← loadSettings host r.config
  let files := r.files.toList
  match action with
  | .parse => files.forM (parseFile host)
  | .compile =>
    if !r.output.isEmpty && 1 < files.length then
      throw (.failed ("--output with " ++ toString files.length ++ " input files"))
    files.forM (writeImage host s r.output)
  | .run => files.forM fun name => do runImage host s name (← readFile host name).toArray
  | .exec => files.forM fun name => do runImage host s name (← compileFile host s name)
  | .disasm => files.forM (listFile host s)

/-- What is said of an error of a command. -/
def errorLine (action : Option Action) (message : String) : String :=
  "error: " ++ ((action.map fun a => a.name ++ ": ").getD "") ++ message

/-- Runs the command of a list of arguments and gives its exit code. -/
def invoke (args : List String) : m UInt32 := do
  match Request.read {} args with
  | .error (r, e) =>
    host.complain (errorLine r.action e.message)
    return 1
  | .ok r =>
    match r.action with
    | none =>
      host.print help
      return 0
    | some action =>
      if r.help then
        host.print (action.name ++ " - " ++ action.about ++ "\n")
        return 0
      match ← (perform host action r).run with
      | .ok () => return 0
      | .error (.failed message) =>
        host.complain (errorLine action message)
        return 1
      | .error (.crashed message) =>
        host.complain ("panic: " ++ message)
        return 2

end Command

/-- A system that is nothing but a tree of files, with what was printed and complained of. -/
structure World where
  files : FileTree
  printed : String := ""
  complaints : Array String := #[]

namespace World

def host : Host (StateM World) where
  read path := return (← get).files.read path
  write path bytes := modifyGet fun w =>
    match w.files.write path bytes with
    | .ok files => (.ok (), { w with files })
    | .error e => (.error e, w)
  findUp name := return (← get).files.findUp "." name
  print s := modify fun w => { w with printed := w.printed ++ s }
  complain s := modify fun w => { w with complaints := w.complaints.push s }

/-- Runs a command on a tree of files. -/
def invoke (files : FileTree) (args : List String) : UInt32 × World :=
  (Command.invoke host args).run { files }

end World

end RegisterLang
