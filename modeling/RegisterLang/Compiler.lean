import RegisterLang.Bitmap
import RegisterLang.Code.Builder
import RegisterLang.Lowering.Emit
import RegisterLang.Tree.Parser
import RegisterLang.Typing

/-!
# From source text to an image

A text is parsed, checked and lowered, and each phase begins only if the one before reported nothing.
-/
namespace RegisterLang
open Text Lowering

/-- Where the code of a function lies, and the labels placed in it, counted from its first. -/
structure Emitted where
  start : Nat
  stop : Nat
  labels : Bitmap

/-- Why no image was made: problems of the program, or labels that do not add up. -/
inductive GenerateError where
  | reported (count : Nat)
  | labelCount (function : String) (used reserved : Nat)
  | labelMissing (function : String) (label : Nat)
  deriving DecidableEq, Repr

def GenerateError.message : GenerateError → String
  | reported n => toString n ++ " errors: generate"
  | labelCount f used reserved =>
    "func " ++ f ++ ": labels used " ++ toString used ++ ", reserved " ++ toString reserved
  | labelMissing f l => "func " ++ f ++ ": label " ++ toString l ++ " is not placed"

/-- What generating leaves: the layouts, the functions that were written, what was reported, and the
image. -/
structure Generated where
  layouts : List Layout
  emitted : Array Emitted := #[]
  diagnostics : Array Diagnostic
  result : Except GenerateError Builder

namespace Generated

def itemStep : Item → Builder.Step
  | .instr x => .emit x
  | .label l => .place l

def labelOf? : Item → Option Nat
  | .instr _ => none
  | .label l => some l

/-- The labels that are placed among items, counted from `base`. -/
def placed (base : Nat) (items : Array Item) : Bitmap :=
  (items.filterMap labelOf?).foldl (fun s l => s.insert (l - base)) {}

/-- Appends the code of a function and checks that it placed its labels. -/
def writeFunction (layouts : List Layout) (l : Layout) (b : Builder) (ds : Array Diagnostic) :
    Array Diagnostic × Except GenerateError (Builder × Emitted) :=
  let ((), out) := (lowerFunction ⟨layouts, l⟩).run { label := l.labelBase, diagnostics := ds }
  let start := b.size
  let b := ((b.run (out.items.toList.map itemStep)).setFunction l.index start).1
  let labels := placed l.labelBase out.items
  (out.diagnostics,
    if out.label ≠ l.labelBase + l.labels then
      .error (.labelCount l.function.name (out.label - l.labelBase) l.labels)
    else
      match labels.firstUnset l.labels with
      | some i => .error (.labelMissing l.function.name (l.labelBase + i))
      | none => .ok (b, ⟨start, b.size, labels⟩))

/-- Writes the functions that are left. -/
def writeAll (layouts : List Layout) (b : Builder) (g : Generated) : List Layout → Generated
  | [] => { g with result := .ok b }
  | l :: rest =>
    let (diagnostics, r) := writeFunction layouts l b g.diagnostics
    match r with
    | .error e => { g with diagnostics, result := .error e }
    | .ok (b, e) => writeAll layouts b { g with diagnostics, emitted := g.emitted.push e } rest

/-- An image only if nothing was reported after the first `before` diagnostics. -/
def settle (before : Nat) (g : Generated) : Generated :=
  match g.result with
  | .error _ => g
  | .ok _ =>
    if g.diagnostics.size ≠ before then
      { g with result := .error (.reported (g.diagnostics.size - before)) }
    else g

end Generated

/-- The initial capacity of an image. -/
def standardBuffer : Int := 2048

/-- Lowers a file. What is reported comes after `ds`. -/
def generate (file : File) (ds : Array Diagnostic) (buffer : Int) : Generated :=
  let (layouts, planned) := plan file ds
  if planned.size ≠ ds.size then
    { layouts, diagnostics := planned, result := .error (.reported (planned.size - ds.size)) }
  else
    let b := Builder.make buffer layouts.length (Layout.labelCount layouts)
    (Generated.writeAll layouts b { layouts, diagnostics := planned, result := .ok b } layouts).settle
      ds.size

inductive Phase where
  | parse
  | check
  | generate
  deriving DecidableEq, Repr

def Phase.name : Phase → String
  | parse => "parse"
  | check => "check"
  | generate => "generate"

inductive CompileError where
  | reported (phase : Phase) (ds : Diagnostics)
  | failed (e : GenerateError)

def CompileError.message : CompileError → String
  | reported phase ds => phase.name ++ ": " ++ ds.summary
  | failed e => Phase.generate.name ++ ": " ++ e.message

/-- Parses and checks a text. -/
def parseChecked (name : String) (text : Bytes) : Except CompileError File :=
  let p := Parser.parse name text
  if !p.diagnostics.isEmpty then .error (.reported .parse p.diagnostics.toList)
  else
    let (file, ds) := Typing.check p.file #[]
    if !ds.isEmpty then .error (.reported .check ds.toList) else .ok file

/-- What compiling leaves: the layouts and the written functions, as far as it came, and the image. -/
structure Compilation where
  layouts : List Layout := []
  emitted : Array Emitted := #[]
  result : Except CompileError Builder

/-- Compiles a text; a buffer that is not above zero has the standard capacity. -/
def compile (name : String) (text : Bytes) (buffer : Int) : Compilation :=
  match parseChecked name text with
  | .error e => { result := .error e }
  | .ok file =>
    let g := generate file #[] (if 0 < buffer then buffer else standardBuffer)
    { layouts := g.layouts
      emitted := g.emitted
      result :=
        if !g.diagnostics.isEmpty then .error (.reported .generate g.diagnostics.toList)
        else g.result.mapError .failed }

end RegisterLang
