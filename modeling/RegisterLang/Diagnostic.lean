/-!
# Diagnostics

A diagnostic says what is wrong with a program and where. Phases append diagnostics to a list, and a
list with any of them stands for a failed phase.
-/
namespace RegisterLang

/-- A line and a column, both counted from one; zero and zero is no position. -/
structure Pos where
  line : Int
  col : Int
  deriving DecidableEq, Repr, Inhabited

def Pos.nowhere : Pos := ⟨0, 0⟩

def Pos.text (p : Pos) : String := toString p.line ++ ":" ++ toString p.col

structure Diagnostic where
  message : String
  pos : Pos := .nowhere
  expected : String := ""
  got : String := ""
  deriving DecidableEq, Repr, Inhabited

/-- The position, unless there is none, the message, and what was expected and found. -/
def Diagnostic.text (d : Diagnostic) : String :=
  (if d.pos = .nowhere then "" else d.pos.text ++ ": ") ++ d.message ++
    (if d.expected = "" ∧ d.got = "" then ""
      else " (expected " ++ d.expected ++ ", got " ++ d.got ++ ")")

abbrev Diagnostics := List Diagnostic

/-- The first diagnostic and how many more there are. -/
def Diagnostics.summary : Diagnostics → String
  | [] => "no errors"
  | [d] => d.text
  | d :: rest => d.text ++ " (and " ++ toString rest.length ++ " more errors)"

/-- One line for each diagnostic. -/
def Diagnostics.report (ds : Diagnostics) : String :=
  String.join (ds.map fun d => "error: " ++ d.text ++ "\n")

end RegisterLang
