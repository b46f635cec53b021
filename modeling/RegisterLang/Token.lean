import RegisterLang.Text.Quoted

/-!
# Tokens

Source text is a sequence of tokens between blanks and line comments. The lexer never fails: bytes
that form no other token are stray tokens, which no rule of the grammar accepts.
-/
namespace RegisterLang
open Text

inductive Punct where
  | define
  | declare
  | arrow
  | le
  | ge
  | eq
  | ne
  | lbrace
  | rbrace
  | lparen
  | rparen
  | colon
  | semicolon
  | comma
  | assign
  | plus
  | minus
  | star
  | slash
  | percent
  | lt
  | gt
  deriving DecidableEq, Repr

def Punct.text : Punct → String
  | define => "::"
  | declare => ":="
  | arrow => "->"
  | le => "<="
  | ge => ">="
  | eq => "=="
  | ne => "!="
  | lbrace => "\x7b"
  | rbrace => "\x7d"
  | lparen => "("
  | rparen => ")"
  | colon => ":"
  | semicolon => ";"
  | comma => ","
  | assign => "="
  | plus => "+"
  | minus => "-"
  | star => "*"
  | slash => "/"
  | percent => "%"
  | lt => "<"
  | gt => ">"

inductive Keyword where
  | ret
  | struct
  | cond
  | otherwise
  deriving DecidableEq, Repr

def Keyword.text : Keyword → String
  | ret => "return"
  | struct => "struct"
  | cond => "if"
  | otherwise => "else"

inductive Token where
  | punct (p : Punct)
  | keyword (k : Keyword)
  | ident (name : String)
  | number (text : Bytes)
  | string (value : Bytes)
  | char (value : Char)
  | stray (text : Bytes)
  | eof
  deriving DecidableEq, Repr

def Token.describe : Token → String
  | punct p => "'" ++ p.text ++ "'"
  | keyword k => k.text
  | ident name => if name = "" then "identifier" else "identifier " ++ name
  | number text => if text.isEmpty then "number" else Bytes.toText text
  | string value => quoteBytes value
  | char c => quoteChar c.toNat
  | stray text => "'" ++ Bytes.toText text ++ "'"
  | eof => "end of file"

/-- What the grammar would have accepted. -/
inductive Wanted where
  | punct (p : Punct)
  | keyword (k : Keyword)
  | identifier
  | number
  deriving DecidableEq, Repr

def Wanted.describe : Wanted → String
  | punct p => "'" ++ p.text ++ "'"
  | keyword k => k.text
  | identifier => "identifier"
  | number => "number"

/-- A token and the offsets where it starts and where it ends. -/
structure Lexeme where
  token : Token
  start : Nat
  stop : Nat
  deriving DecidableEq, Repr

namespace Lexeme

def isLetter (b : UInt8) : Bool := (97 ≤ b && b ≤ 122) || (65 ≤ b && b ≤ 90)

def isDigit (b : UInt8) : Bool := 48 ≤ b && b ≤ 57

def isIdentByte (b : UInt8) : Bool := isLetter b || isDigit b || b = 95

def isNumberByte (b : UInt8) : Bool := isIdentByte b || b = 46

def isBlank (b : UInt8) : Bool := b = 32 || b = 9 || b = 13 || b = 10

/-- The offset and the bytes after blanks and comments; a comment goes on to the end of its line. -/
def skip : Bool → Nat → Bytes → Nat × Bytes
  | _, offset, [] => (offset, [])
  | true, offset, b :: rest => skip (b ≠ 10) (offset + 1) rest
  | false, offset, b :: rest =>
    if isBlank b then skip false (offset + 1) rest
    else if b = 47 ∧ rest.head? = some 47 then skip true (offset + 1) rest
    else (offset, b :: rest)

/-- Symbols of two bytes. -/
def punct₂? : UInt8 → UInt8 → Option Punct
  | 58, 58 => some .define
  | 58, 61 => some .declare
  | 45, 62 => some .arrow
  | 60, 61 => some .le
  | 62, 61 => some .ge
  | 61, 61 => some .eq
  | 33, 61 => some .ne
  | _, _ => none

/-- Symbols of one byte. -/
def punct₁? : UInt8 → Option Punct
  | 123 => some .lbrace
  | 125 => some .rbrace
  | 40 => some .lparen
  | 41 => some .rparen
  | 58 => some .colon
  | 59 => some .semicolon
  | 44 => some .comma
  | 61 => some .assign
  | 43 => some .plus
  | 45 => some .minus
  | 42 => some .star
  | 47 => some .slash
  | 37 => some .percent
  | 60 => some .lt
  | 62 => some .gt
  | _ => none

/-- How many bytes after an opening quote belong to the quoted text. It ends with the quote or before
a newline, and a backslash takes the next byte with it. -/
def quotedLength (quote : UInt8) : Bytes → Nat
  | [] => 0
  | 92 :: _ :: rest => quotedLength quote rest + 2
  | b :: rest => if b = quote then 1 else if b = 10 then 0 else quotedLength quote rest + 1

def word (name : String) : Token :=
  match [Keyword.ret, .struct, .cond, .otherwise].find? fun k => k.text = name with
  | some k => .keyword k
  | none => .ident name

/-- A text in double quotes. -/
def stringToken (slice : Bytes) : Token :=
  match unquote? slice with
  | some value => .string value
  | none => .stray slice

/-- A character in single quotes: the slice has to hold something and to end with a quote, and its
first character or escape is the value. -/
def charToken (slice : Bytes) : Token :=
  if slice.length < 3 ∨ slice.getLast? ≠ some 39 then .stray slice
  else
    match unescape? 39 (slice.drop 1).dropLast with
    | some u => .char u.value
    | none => .stray slice

/-- The token that starts with the byte `b`, and how many bytes after `b` it takes. -/
def read (b : UInt8) (rest : Bytes) : Token × Nat :=
  match rest.head? >>= punct₂? b with
  | some p => (.punct p, 1)
  | none =>
    match punct₁? b with
    | some p => (.punct p, 0)
    | none =>
      if b = 34 ∨ b = 39 then
        let n := quotedLength b rest
        let slice := b :: rest.take n
        (if b = 34 then stringToken slice else charToken slice, n)
      else if isLetter b ∨ b = 95 then
        let more := rest.takeWhile isIdentByte
        (word (Bytes.toText (b :: more)), more.length)
      else if isDigit b then
        let more := rest.takeWhile isNumberByte
        (.number (b :: more), more.length)
      else (.stray [b], 0)

/-- The next token of a text of which `offset` bytes are read, and the bytes after it. -/
def next (offset : Nat) (text : Bytes) : Lexeme × Bytes :=
  match skip false offset text with
  | (start, []) => (⟨.eof, start, start⟩, [])
  | (start, b :: rest) =>
    let (token, n) := read b rest
    (⟨token, start, start + n + 1⟩, rest.drop n)

theorem skip_length (comment : Bool) (offset : Nat) (text : Bytes) :
    (skip comment offset text).2.length ≤ text.length := by
  induction text generalizing comment offset with
  | nil => cases comment <;> simp [skip]
  | cons b rest ih =>
    cases comment with
    | true => exact Nat.le_succ_of_le (ih _ _)
    | false =>
      simp only [skip]
      split
      · exact Nat.le_succ_of_le (ih _ _)
      · split
        · exact Nat.le_succ_of_le (ih _ _)
        · simp

/-- Where the text is not at its end, a token takes at least one byte. -/
theorem next_length (offset : Nat) (text : Bytes) (h : (next offset text).1.token ≠ .eof) :
    (next offset text).2.length < text.length := by
  have hs := skip_length false offset text
  unfold next at h ⊢
  split at h
  · simp at h
  · rename_i start b rest heq
    rw [heq] at hs
    simp only [List.length_cons] at hs
    simp only [List.length_drop]
    omega

/-- All tokens from `offset` on after those in `acc`, the last of them the end of the text. -/
def scanFrom (acc : Array Lexeme) (offset : Nat) (text : Bytes) : Array Lexeme :=
  match h : next offset text with
  | (l, rest) =>
    if he : l.token = .eof then acc.push l
    else
      have : rest.length < text.length := by
        have hl := next_length offset text (by rw [h]; exact he)
        rw [h] at hl
        exact hl
      scanFrom (acc.push l) l.stop rest
termination_by text.length

/-- The tokens of a text. -/
def scan (text : Bytes) : List Lexeme :=
  (scanFrom #[] 0 text).toList

end Lexeme

end RegisterLang
