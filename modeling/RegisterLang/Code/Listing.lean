import RegisterLang.Code.Instr

/-!
# Listings

A listing shows the tables of an image as comments and then its instructions, each with its offset.
Before the first instruction at or after the offset of a function or a label stands its marker.
-/
namespace RegisterLang
open Text

/-- A table entry as it is shown among the instructions. -/
structure Marker where
  pos : UInt32
  label : Bool
  index : Nat
  deriving DecidableEq, Repr

namespace Marker

/-- By offset, then functions before labels, then by index. -/
def le (a b : Marker) : Bool :=
  if a.pos ≠ b.pos then a.pos < b.pos
  else if a.label ≠ b.label then !a.label
  else a.index ≤ b.index

def text (m : Marker) : String :=
  if m.label then "L" ++ toString m.index ++ ":\n" else "\nfunc#" ++ toString m.index ++ ":\n"

/-- The markers of a header in order. -/
def ofHeader (h : Header) : List Marker :=
  let entries (label : Bool) (table : Array UInt32) :=
    table.toList.zipIdx.map fun (pos, i) => Marker.mk pos label i
  (entries false h.functions ++ entries true h.labels).mergeSort le

end Marker

namespace Listing

inductive Line where
  | marker (m : Marker)
  | instr (pc : Nat) (x : Instr)
  deriving DecidableEq

def Line.text : Line → String
  | marker m => m.text
  | instr pc x => hexPadded 4 pc ++ "  " ++ x.text ++ "\n"

/-- The lines of the markers up to `pc` after those in `acc`, and the markers that are left. -/
def marked (acc : Array Line) (pc : Nat) : List Marker → Array Line × List Marker
  | [] => (acc, [])
  | m :: rest =>
    if m.pos.toNat ≤ pc then marked (acc.push (.marker m)) pc rest else (acc, m :: rest)

/-- The lines from `pc` on after those in `acc`, and the error that stopped them. -/
def lines (image : Image) (acc : Array Line) (marks : List Marker) (pc : Nat) :
    Array Line × Option DecodeError :=
  if pc < image.size then
    let (acc, marks) := marked acc pc marks
    match h : Instr.decodeAt image pc with
    | .error e => (acc, some e)
    | .ok (x, next) =>
      have := Instr.decodeAt_bounds h
      lines image (acc.push (.instr pc x)) marks next
  else (acc ++ marks.map Line.marker, none)
termination_by image.size - pc

/-- A table as comments. -/
def tableText (name : String) (table : Array UInt32) : String :=
  "; " ++ name ++ " " ++ toString table.size ++ "\n" ++
    String.join (table.toList.zipIdx.map fun (pos, i) =>
      ";   [" ++ padLeft 3 (toString i) ++ "] 0x" ++ hexPadded 4 pos.toNat ++ "\n")

def magicText : String :=
  "; magic " ++ " ".intercalate (Image.magic.map fun b => hexPadded 2 b.toNat) ++ "\n"

end Listing

/-- Why a listing is not complete. -/
inductive ListingError where
  | header (e : HeaderError)
  | instr (e : DecodeError)
  deriving DecidableEq

def ListingError.message : ListingError → String
  | header e => "header: " ++ e.message
  | instr e => e.message

open Listing in
/-- The listing of an image as far as it can be read, and what stopped it. -/
def Image.listing (image : Image) : String × Option ListingError :=
  match Header.read image with
  | .error e => ("", some (.header e))
  | .ok h =>
    let (body, e) := lines image #[] (Marker.ofHeader h) h.code
    (magicText ++ tableText "funcs" h.functions ++ tableText "labels" h.labels ++
        String.join (body.toList.map Line.text),
      e.map .instr)

end RegisterLang
