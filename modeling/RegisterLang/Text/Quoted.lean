import RegisterLang.Text.Utf8
import RegisterLang.Text.Printable

/-!
# Quoted text

Text in quotes writes printable characters as they are and everything else with a backslash: a
letter for the common controls, `\x` and two digits for the others and for bytes that spell nothing,
`\u` and four or `\U` and eight digits for the rest. The quote itself and the backslash are always
escaped. Reading accepts these escapes, three octal digits and either hexadecimal case.
-/
namespace RegisterLang.Text

/-- The letters that stand for control characters after a backslash. -/
def controlLetters : List (Nat × Char) :=
  [(7, 'a'), (8, 'b'), (12, 'f'), (10, 'n'), (13, 'r'), (9, 't'), (11, 'v')]

/-- A character as it stands between quotes. -/
def escapeChar (quote c : Char) : String :=
  if c = quote ∨ c = '\\' then String.ofList ['\\', c]
  else if isPrintable c.toNat then String.singleton c
  else
    match controlLetters.lookup c.toNat with
    | some letter => String.ofList ['\\', letter]
    | none =>
      if c.toNat < 0x20 ∨ c.toNat = 0x7F then "\\x" ++ hexFixed 2 c.toNat
      else if c.toNat < 0x10000 then "\\u" ++ hexFixed 4 c.toNat
      else "\\U" ++ hexFixed 8 c.toNat

/-- Bytes in double quotes. -/
def quoteBytes (bs : Bytes) : String :=
  let body := (Bytes.chars bs).map fun (b, c) =>
    match c with
    | some c => escapeChar '"' c
    | none => "\\x" ++ hexFixed 2 b.toNat
  "\"" ++ String.join body ++ "\""

/-- Text in double quotes. -/
def quote (s : String) : String :=
  "\"" ++ String.join (s.toList.map (escapeChar '"')) ++ "\""

/-- A character in single quotes; a number that is no character is shown as the replacement
character. -/
def quoteChar (n : Int) : String :=
  let c := if h : n.toNat.isValidChar ∧ 0 ≤ n then Char.ofNatAux n.toNat h.1 else replacement
  "'" ++ escapeChar '\'' c ++ "'"

/-- A character read from quoted text: its value, whether it stands for a character rather than for a
single byte, and the bytes after it. -/
structure Unescaped where
  value : Char
  wide : Bool
  rest : Bytes

/-- The number spelled by exactly `n` digits of base `2 ^ bits`. -/
def readDigits (bits : Nat) (bs : Bytes) (n : Nat) : Option (Nat × Bytes) :=
  if bs.length < n then none
  else
    let value := (bs.take n).foldl (fun acc b => do
      let v ← acc
      let d ← hexValue? b
      if d < 2 ^ bits then some (v * 2 ^ bits + d) else none) (some 0)
    value.map fun v => (v, bs.drop n)

/-- One character or one escape sequence, where `quote` ends the text. -/
def unescape? (quote : UInt8) : Bytes → Option Unescaped
  | [] => none
  | 0x5C :: c :: rest =>
    match controlLetters.find? (fun l => l.2.toNat = c.toNat) with
    | some (v, _) => some ⟨Char.ofNat v, false, rest⟩
    | none =>
      if c = 0x78 then do
        let (v, rest) ← readDigits 4 rest 2
        some ⟨Char.ofNat v, false, rest⟩
      else if c = 0x75 ∨ c = 0x55 then do
        let (v, rest) ← readDigits 4 rest (if c = 0x75 then 4 else 8)
        if v.isValidChar then some ⟨Char.ofNat v, true, rest⟩ else none
      else if 0x30 ≤ c ∧ c ≤ 0x37 then do
        let (v, rest) ← readDigits 3 (c :: rest) 3
        if v ≤ 255 then some ⟨Char.ofNat v, false, rest⟩ else none
      else if c = 0x5C ∨ ((c = 0x27 ∨ c = 0x22) ∧ c = quote) then
        some ⟨Char.ofNat c.toNat, false, rest⟩
      else none
  | b :: rest =>
    if b = quote ∨ b = 0x5C then none
    else if b < 0x80 then some ⟨Char.ofNat b.toNat, false, rest⟩
    else
      match Utf8.decode? b rest with
      | some (c, n) => some ⟨c, true, rest.drop n⟩
      | none => some ⟨replacement, true, rest⟩

theorem readDigits_length {bits n v : Nat} {bs rest : Bytes}
    (h : readDigits bits bs n = some (v, rest)) : rest.length ≤ bs.length - n := by
  unfold readDigits at h
  split at h
  · simp at h
  · simp only [Option.map_eq_some_iff, Prod.mk.injEq] at h
    obtain ⟨w, _, _, rfl⟩ := h
    simp

/-- Reading one character uses up at least one byte. -/
theorem unescape?_shorter {quote : UInt8} {bs : Bytes} {u : Unescaped}
    (h : unescape? quote bs = some u) : u.rest.length < bs.length := by
  unfold unescape? at h
  split at h
  · simp at h
  · rename_i c rest
    simp only [List.length_cons]
    split at h
    · simp at h; subst h; simp only; omega
    · split at h
      · simp only [Option.bind_eq_bind, Option.bind_eq_some_iff, Option.some.injEq, Prod.exists] at h
        obtain ⟨v, r, hr, rfl⟩ := h
        have := readDigits_length hr
        simp only; omega
      · split at h
        · simp only [Option.bind_eq_bind, Option.bind_eq_some_iff, Prod.exists] at h
          obtain ⟨v, r, hr, hv⟩ := h
          have := readDigits_length hr
          split at hv <;> simp at hv
          subst hv; simp only; omega
        · split at h
          · simp only [Option.bind_eq_bind, Option.bind_eq_some_iff, Prod.exists] at h
            obtain ⟨v, r, hr, hv⟩ := h
            have := readDigits_length hr
            simp only [List.length_cons] at this
            split at hv <;> simp at hv
            subst hv; simp only; omega
          · split at h <;> simp at h
            subst h; simp only; omega
  · rename_i b rest _
    simp only [List.length_cons]
    split at h
    · simp at h
    · split at h
      · simp at h; subst h; simp
      · split at h <;> simp at h <;> subst h <;> simp only [List.length_drop] <;> omega

/-- The bytes between the opening quote and its match, which has to be the last byte. -/
def unquoteBody (quote : UInt8) (bs : Bytes) : Option Bytes :=
  match bs with
  | [] => none
  | b :: rest =>
    if b = quote then if rest.isEmpty then some [] else none
    else if b = 0x0A then none
    else
      match h : unescape? quote (b :: rest) with
      | none => none
      | some u =>
        have := unescape?_shorter h
        (unquoteBody quote u.rest).map fun tail =>
          if u.wide && 0x80 ≤ u.value.toNat then String.utf8EncodeChar u.value ++ tail
          else u.value.toNat.toUInt8 :: tail
termination_by bs.length
decreasing_by exact this

/-- The bytes that a text in double quotes stands for. -/
def unquote? : Bytes → Option Bytes
  | 0x22 :: rest => unquoteBody 0x22 rest
  | _ => none

end RegisterLang.Text
