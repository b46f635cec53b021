import RegisterLang.Text.Quoted

/-!
# Types of the language

A type is a primitive or a record, which is referred to by its name. Records are defined in a
registry that keeps the order of definition; a name is defined at most once and the names of the
primitives are always taken. Fields lie back to back, and the alignment of a record is recorded only.
-/
namespace RegisterLang

inductive Ty where
  | s8
  | u8
  | s16
  | u16
  | s32
  | u32
  | s64
  | u64
  | float
  | double
  | char
  | string
  | void
  | record (name : String)
  deriving DecidableEq, Repr, Inhabited

namespace Ty

def name : Ty → String
  | s8 => "s8"
  | u8 => "u8"
  | s16 => "s16"
  | u16 => "u16"
  | s32 => "s32"
  | u32 => "u32"
  | s64 => "s64"
  | u64 => "u64"
  | float => "float"
  | double => "double"
  | char => "char"
  | string => "string"
  | void => "void"
  | record n => n

/-- The name of a type that may be unknown. -/
def nameOf : Option Ty → String
  | none => "<nil>"
  | some t => t.name

def primitives : List Ty :=
  [s8, u8, s16, u16, s32, u32, s64, u64, float, double, char, string, void]

def primitive? (n : String) : Option Ty :=
  primitives.find? fun t => t.name = n

/-- The bytes a primitive takes, which are also its alignment. -/
def primitiveSize : Ty → UInt32
  | s8 | u8 => 1
  | s16 | u16 | char => 2
  | s32 | u32 | float | string => 4
  | s64 | u64 | double => 8
  | void | record _ => 0

/-- The types that literals take from their context. -/
def isNumeric : Ty → Bool
  | s8 | u8 | s16 | u16 | s32 | u32 | s64 | u64 | float | double => true
  | _ => false

end Ty

structure Record where
  name : String
  size : UInt32
  align : UInt32
  fields : List (String × Ty)
  deriving DecidableEq, Repr

/-- The first field of a name. -/
def Record.field? (r : Record) (name : String) : Option (String × Ty) :=
  r.fields.find? fun f => f.1 = name

structure Registry where
  records : List Record := []
  deriving Repr, Inhabited

namespace Registry

def find? (g : Registry) (name : String) : Option Record :=
  g.records.find? fun r => r.name = name

/-- The type of a name. -/
def get? (g : Registry) (name : String) : Option Ty :=
  match Ty.primitive? name with
  | some t => some t
  | none => (g.find? name).map fun r => .record r.name

/-- The size and the alignment of a type; a record that is not defined has neither. -/
def layout (g : Registry) : Ty → UInt32 × UInt32
  | .record n =>
    match g.find? n with
    | some r => (r.size, r.align)
    | none => (0, 0)
  | t => (t.primitiveSize, t.primitiveSize)

/-- The record of a list of fields: their sizes added up and the largest alignment, at least one. -/
def makeRecord (g : Registry) (name : String) (fields : List (String × Ty)) : Record :=
  { name
    size := fields.foldl (fun s f => s + (g.layout f.2).1) 0
    align := fields.foldl (fun a f => max a (g.layout f.2).2) 1
    fields }

/-- The registry with one more record, unless its name is taken. -/
def register? (g : Registry) (r : Record) : Option Registry :=
  if (g.get? r.name).isSome then none else some ⟨g.records ++ [r]⟩

/-- Fields with the types of their names, or the first name without a type. -/
def resolve (g : Registry) : List (String × String) → Except String (List (String × Ty))
  | [] => .ok []
  | (field, type) :: rest =>
    match g.get? type with
    | none => .error type
    | some t => (g.resolve rest).map ((field, t) :: ·)

/-- What is said of a name without a type. -/
def unknownMessage (name : String) : String :=
  Text.quote name ++ ": unknown type"

end Registry

end RegisterLang
