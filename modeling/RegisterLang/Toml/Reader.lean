import RegisterLang.Number.FloatText

/-!
# Reading TOML

A text is a list of entries: headers of tables, headers of items in arrays of tables, and pairs of a
key and a value. Keys are paths. Whole numbers are read; of the other scalars only the kind is kept,
after a check that they are well formed.
-/
namespace RegisterLang.Toml
open Text Number

abbrev Path := List String

inductive Kind where
  | float
  | bool
  | text
  | time
  deriving DecidableEq, Repr

inductive Value where
  | int (n : Int)
  | scalar (kind : Kind)
  | array (items : List Value)
  | table (pairs : List (Path × Value))
  deriving Repr, Inhabited

inductive Entry where
  | header (path : Path)
  | item (path : Path)
  | pair (path : Path) (value : Value)
  deriving Repr

def isBlank (c : Char) : Bool := c = ' ' || c = '\t'

def isHexDigit (c : Char) : Bool :=
  c.isDigit || ('a' ≤ c && c ≤ 'f') || ('A' ≤ c && c ≤ 'F')

def skipBlank (cs : List Char) : List Char := cs.dropWhile isBlank

/-- Drops blanks, line ends and comments. -/
def skipSpace (comment : Bool) : List Char → List Char
  | [] => []
  | '\n' :: rest => skipSpace false rest
  | c :: rest => if comment || isBlank c || c = '#' then skipSpace (comment || c = '#') rest
    else c :: rest

/-! ### Texts -/

/-- The value of hexadecimal digits. -/
def hexNumber? (cs : List Char) : Option Nat :=
  cs.foldlM (fun n c => (hexValue? c.toNat.toUInt8).bind fun d =>
    if isHexDigit c then some (16 * n + d) else none) 0

/-- The character of a code in hexadecimal digits. -/
def codeChar? (cs : List Char) : Option Char :=
  (hexNumber? cs).bind fun n => if n.isValidChar then some (Char.ofNat n) else none

/-- The character that a letter stands for after a backslash. -/
def escaped? : Char → Option Char
  | 'b' => some '\x08'
  | 't' => some '\t'
  | 'n' => some '\n'
  | 'f' => some '\x0c'
  | 'r' => some '\r'
  | 'e' => some '\x1b'
  | '"' => some '"'
  | '\\' => some '\\'
  | _ => none

/-- A text in quotes after its first quote. -/
def readText (acc : String) : List Char → Option (String × List Char)
  | [] => none
  | '"' :: rest => some (acc, rest)
  | '\n' :: _ => none
  | '\\' :: 'x' :: a :: b :: rest =>
    (codeChar? [a, b]).bind fun c => readText (acc.push c) rest
  | '\\' :: 'u' :: a :: b :: c :: d :: rest =>
    (codeChar? [a, b, c, d]).bind fun c => readText (acc.push c) rest
  | '\\' :: 'U' :: a :: b :: c :: d :: e :: f :: g :: h :: rest =>
    (codeChar? [a, b, c, d, e, f, g, h]).bind fun c => readText (acc.push c) rest
  | '\\' :: c :: rest => (escaped? c).bind fun c => readText (acc.push c) rest
  | c :: rest => readText (acc.push c) rest

/-- A literal text after its first quote. -/
def readLiteral (acc : String) : List Char → Option (String × List Char)
  | [] => none
  | '\'' :: rest => some (acc, rest)
  | '\n' :: _ => none
  | c :: rest => readLiteral (acc.push c) rest

/-- The rest after a text of several lines. Up to two quotes may stand before the three that end it,
and a backslash before the end of a line joins it with the next; `joining` is set after such a
backslash and a blank. -/
def skipLongText (joining : Bool) : List Char → Option (List Char)
  | [] => none
  | c :: rest =>
    if joining then
      if c = '\n' then skipLongText false rest
      else if isBlank c then skipLongText true rest
      else none
    else if c = '"' then
      match rest with
      | '"' :: '"' :: '"' :: '"' :: '"' :: _ => none
      | '"' :: '"' :: '"' :: '"' :: rest => some rest
      | '"' :: '"' :: '"' :: rest => some rest
      | '"' :: '"' :: rest => some rest
      | rest => skipLongText false rest
    else if c = '\\' then
      match rest with
      | '\n' :: rest => skipLongText false rest
      | ' ' :: rest => skipLongText true rest
      | '\t' :: rest => skipLongText true rest
      | 'x' :: a :: b :: rest => (codeChar? [a, b]).bind fun _ => skipLongText false rest
      | 'u' :: a :: b :: c :: d :: rest => (codeChar? [a, b, c, d]).bind fun _ => skipLongText false rest
      | 'U' :: a :: b :: c :: d :: e :: f :: g :: h :: rest =>
        (codeChar? [a, b, c, d, e, f, g, h]).bind fun _ => skipLongText false rest
      | c :: rest => (escaped? c).bind fun _ => skipLongText false rest
      | [] => none
    else skipLongText false rest

/-- The rest after a literal text of several lines. -/
def skipLongLiteral : List Char → Option (List Char)
  | [] => none
  | '\'' :: '\'' :: '\'' :: '\'' :: '\'' :: '\'' :: _ => none
  | '\'' :: '\'' :: '\'' :: '\'' :: '\'' :: rest => some rest
  | '\'' :: '\'' :: '\'' :: '\'' :: rest => some rest
  | '\'' :: '\'' :: '\'' :: rest => some rest
  | _ :: rest => skipLongLiteral rest

/-! ### Numbers and times -/

/-- Every separator stands between digits. -/
def separated (cs : List Char) : Bool :=
  let (ok, digit) := cs.foldl (fun (ok, digit) c => (ok && (c ≠ '_' || digit), isHexDigit c)) (true, false)
  ok && digit

/-- A zero that is followed by other digits. -/
def hasLeadingZero : List Char → Bool
  | '0' :: c :: _ => !(c = 'b' || c = 'o' || c = 'x')
  | '-' :: '0' :: _ :: _ => true
  | '+' :: '0' :: _ :: _ => true
  | _ => false

/-- Digits of a base with a value below `2 ^ 63`, or that number itself if it is negative. -/
def wholeNumber? (negative : Bool) (base : Nat) (cs : List Char) : Option Value := do
  let n ← (cs.filter (· ≠ '_')).foldlM (fun n c =>
    (hexNumber? [c]).bind fun d => if d < base then some (base * n + d) else none) 0
  if n < 2 ^ 63 ∨ negative ∧ n = 2 ^ 63 then some (.int (if negative then -(n : Int) else n)) else none

/-- Every point is followed by a digit. -/
def pointsFit : List Char → Bool
  | [] => true
  | '.' :: c :: rest => c.isDigit && pointsFit rest
  | ['.'] => false
  | _ :: rest => pointsFit rest

def isFloatMark (c : Char) : Bool := c = '.' || c = 'e' || c = 'E'

/-- The pieces between the marks of a float. -/
def floatParts (cs : List Char) : List (List Char) :=
  (cs.splitOnP isFloatMark).filter fun part => !part.isEmpty

def isFloat (cs : List Char) : Bool :=
  let parts := floatParts cs
  parts.all separated && !(parts.head?.any hasLeadingZero) && pointsFit cs &&
    match Format.double.read (Bytes.ofString (String.ofList (cs.filter (· ≠ '_')))) with
    | .ok _ => true
    | .error _ => false

/-- A number in digits of base ten, with its sign. -/
def readDecimal (sign : List Char) (cs : List Char) : Option (Value × List Char) :=
  let (digits, rest) := cs.span fun c => c.isDigit || c = '_'
  if digits.isEmpty then none
  else if rest.head?.any isFloatMark then
    let (tail, rest) := rest.span fun c => c.isDigit || c = '_' || c = '-' || c = '+' || isFloatMark c
    if isFloat (sign ++ digits ++ tail) then some (.scalar .float, rest) else none
  else
    let all := sign ++ digits
    if separated all && !hasLeadingZero all then
      (wholeNumber? (sign = ['-']) 10 digits).map fun v => (v, rest)
    else none

/-- A number in another base after its two letters. -/
def readBased (base : Nat) (cs : List Char) : Option (Value × List Char) :=
  let (digits, rest) := cs.span fun c => c = '_' || (hexNumber? [c]).any (· < base)
  if digits.head?.any (· ≠ '_') && separated digits then
    (wholeNumber? false base digits).map fun v => (v, rest)
  else none

/-- A number of exactly as many digits as given. -/
def fixedNumber? (digits : Nat) (cs : List Char) : Option (Nat × List Char) :=
  let front := cs.take digits
  if front.length = digits && front.all Char.isDigit then
    some (front.foldl (fun n c => 10 * n + (c.toNat - 48)) 0, cs.drop digits)
  else none

def daysIn (year month : Nat) : Nat :=
  if month = 2 then if year % 4 = 0 ∧ (year % 100 ≠ 0 ∨ year % 400 = 0) then 29 else 28
  else if month = 4 ∨ month = 6 ∨ month = 9 ∨ month = 11 then 30
  else 31

/-- The rest after a date. -/
def skipDate? (cs : List Char) : Option (List Char) := do
  let (year, cs) ← fixedNumber? 4 cs
  let '-' :: cs := cs | none
  let (month, cs) ← fixedNumber? 2 cs
  let '-' :: cs := cs | none
  let (day, cs) ← fixedNumber? 2 cs
  if 1 ≤ month ∧ month ≤ 12 ∧ 1 ≤ day ∧ day ≤ daysIn year month then some cs else none

/-- The rest after hours and minutes. -/
def skipMinutes? (cs : List Char) : Option (List Char) := do
  let (hour, cs) ← fixedNumber? 2 cs
  let ':' :: cs := cs | none
  let (minute, cs) ← fixedNumber? 2 cs
  if hour < 24 ∧ minute < 60 then some cs else none

/-- The rest after a time of day; seconds may be left out. -/
def skipTime? (cs : List Char) : Option (List Char) := do
  let cs ← skipMinutes? cs
  let ':' :: more := cs | some cs
  let (second, cs) ← fixedNumber? 2 more
  if 60 ≤ second then none
  else
    match cs with
    | '.' :: more => if more.head?.any Char.isDigit then some (more.dropWhile Char.isDigit) else none
    | cs => some cs

/-- Whether what follows a date and a time is nothing or an offset. -/
def isOffset : List Char → Bool
  | [] => true
  | ['Z'] => true
  | ['z'] => true
  | c :: rest => (c = '+' || c = '-') && skipMinutes? rest == some []

/-- A date, a time, or both with or without an offset. -/
def isTime (cs : List Char) : Bool :=
  match skipDate? cs with
  | some [] => true
  | some (c :: rest) =>
    (c = 'T' || c = 't' || c = ' ') &&
      match skipTime? rest with
      | some rest => isOffset rest
      | none => false
  | none => skipTime? cs == some []

def isTimeChar (c : Char) : Bool := c.isDigit || "-:Tt .Zz+".contains c

def readTime (cs : List Char) : Option (Value × List Char) :=
  let (front, rest) := cs.span isTimeChar
  let trimmed := (front.reverse.dropWhile (· = ' ')).reverse
  if isTime trimmed then some (.scalar .time, rest) else none

/-- A number or a time. -/
def readNumber (cs : List Char) : Option (Value × List Char) :=
  match cs with
  | '0' :: 'b' :: rest => readBased 2 rest
  | '0' :: 'o' :: rest => readBased 8 rest
  | '0' :: 'x' :: rest => readBased 16 rest
  | _ =>
    match cs.dropWhile Char.isDigit with
    | '-' :: _ => readTime cs
    | ':' :: _ => readTime cs
    | _ => readDecimal [] cs

/-- A value that begins with a sign. -/
def readSigned (sign : Char) : List Char → Option (Value × List Char)
  | 'i' :: 'n' :: 'f' :: rest => some (.scalar .float, rest)
  | 'n' :: 'a' :: 'n' :: rest => some (.scalar .float, rest)
  | cs => readDecimal [sign] cs

/-! ### Keys, values and entries -/

def isBareChar (c : Char) : Bool := c.isAlphanum || c = '_' || c = '-'

/-- One part of a key. -/
def readPart (cs : List Char) : Option (String × List Char) :=
  match cs with
  | '"' :: rest => readText "" rest
  | '\'' :: rest => readLiteral "" rest
  | _ =>
    let (name, rest) := cs.span isBareChar
    if name.isEmpty then none else some (String.ofList name, rest)

/-- A key of parts with points between them, and the rest after blanks. -/
def readPath : Nat → Path → List Char → Option (Path × List Char)
  | 0, _, _ => none
  | fuel + 1, done, cs => do
    let (part, rest) ← readPart (skipBlank cs)
    let path := done ++ [part]
    match skipBlank rest with
    | '.' :: rest => readPath fuel path rest
    | rest => some (path, rest)

mutual

/-- A value on the same line. -/
def readValue : Nat → List Char → Option (Value × List Char)
  | 0, _ => none
  | fuel + 1, cs =>
    match skipBlank cs with
    | '[' :: rest => readItems fuel [] rest
    | '\x7b' :: rest => readPairs fuel [] rest
    | '"' :: '"' :: '"' :: rest => (skipLongText false rest).map fun rest => (.scalar .text, rest)
    | '"' :: rest => (readText "" rest).map fun (_, rest) => (.scalar .text, rest)
    | '\'' :: '\'' :: '\'' :: rest => (skipLongLiteral rest).map fun rest => (.scalar .text, rest)
    | '\'' :: rest => (readLiteral "" rest).map fun (_, rest) => (.scalar .text, rest)
    | 't' :: 'r' :: 'u' :: 'e' :: rest => some (.scalar .bool, rest)
    | 'f' :: 'a' :: 'l' :: 's' :: 'e' :: rest => some (.scalar .bool, rest)
    | 'i' :: 'n' :: 'f' :: rest => some (.scalar .float, rest)
    | 'n' :: 'a' :: 'n' :: rest => some (.scalar .float, rest)
    | '+' :: rest => readSigned '+' rest
    | '-' :: rest => readSigned '-' rest
    | cs => readNumber cs

/-- The items of an array after those in `done`. -/
def readItems : Nat → List Value → List Char → Option (Value × List Char)
  | 0, _, _ => none
  | fuel + 1, done, cs =>
    match skipSpace false cs with
    | ']' :: rest => some (.array done, rest)
    | cs => do
      let (v, rest) ← readValue fuel cs
      match skipSpace false rest with
      | ',' :: rest => readItems fuel (done ++ [v]) rest
      | ']' :: rest => some (.array (done ++ [v]), rest)
      | _ => none

/-- The pairs of a table in braces after those in `done`. -/
def readPairs : Nat → List (Path × Value) → List Char → Option (Value × List Char)
  | 0, _, _ => none
  | fuel + 1, done, cs =>
    match skipSpace false cs with
    | '\x7d' :: rest => some (.table done, rest)
    | cs => do
      let (pair, rest) ← readPair fuel cs
      match skipSpace false rest with
      | ',' :: rest => readPairs fuel (done ++ [pair]) rest
      | '\x7d' :: rest => some (.table (done ++ [pair]), rest)
      | _ => none

/-- A key and a value. -/
def readPair : Nat → List Char → Option ((Path × Value) × List Char)
  | 0, _ => none
  | fuel + 1, cs => do
    let (path, rest) ← readPath (fuel + 1) [] cs
    let '=' :: rest := rest | none
    let (v, rest) ← readValue fuel rest
    some ((path, v), rest)

end

/-- A header or a pair. -/
def readEntry (fuel : Nat) (cs : List Char) : Option (Entry × List Char) := do
  match cs with
  | '[' :: '[' :: rest => do
    let (path, rest) ← readPath fuel [] rest
    let ']' :: ']' :: rest := rest | none
    some (.item path, rest)
  | '[' :: rest => do
    let (path, rest) ← readPath fuel [] rest
    let ']' :: rest := rest | none
    some (.header path, rest)
  | _ => do
    let ((path, v), rest) ← readPair fuel cs
    some (.pair path v, rest)

/-- Entries, each on lines of its own, after those in `done`. -/
def readEntries : Nat → Array Entry → List Char → Option (List Entry)
  | 0, _, _ => none
  | fuel + 1, done, cs =>
    match skipSpace false cs with
    | [] => some done.toList
    | cs => do
      let (e, rest) ← readEntry fuel cs
      match skipBlank rest with
      | [] => some (done.push e).toList
      | '\n' :: rest => readEntries fuel (done.push e) rest
      | '#' :: rest => readEntries fuel (done.push e) (rest.dropWhile (· ≠ '\n'))
      | _ => none

/-- Whether a character may stand in a text. -/
def isAllowed (c : Char) : Bool := c = '\t' || c = '\n' || (32 ≤ c.toNat && c.toNat ≠ 127)

/-- Line ends of two characters become one. -/
def joinLineEnds : List Char → List Char
  | '\r' :: '\n' :: rest => '\n' :: joinLineEnds rest
  | c :: rest => c :: joinLineEnds rest
  | [] => []

/-- The text after a mark of its byte order. -/
def dropMark : Bytes → Bytes
  | 0xFF :: 0xFE :: rest => rest
  | 0xFE :: 0xFF :: rest => rest
  | 0xEF :: 0xBB :: 0xBF :: rest => rest
  | bs => bs

/-- The entries of a text, none if it is not well formed. -/
def read (bs : Bytes) : Option (List Entry) := do
  let bs := dropMark bs
  if !bs.isText then none
  else
    let cs := joinLineEnds bs.toText.toList
    if !cs.all isAllowed then none else readEntries (cs.length + 2) #[] cs

end RegisterLang.Toml
