import RegisterLang.Proofs.Spelling

/-!
# The lexer by offsets

A token is found in a text by offsets: the lexer looks at single bytes, takes slices, and goes on from
the end of the last token. Here it does so step by step, and has no result where it looks beyond the
text, where a slice does not lie in it or where one of its loops goes on without an end. None of this
happens: from every offset in the text it finds the next token of the bytes from there on, which lies
between that offset and the end of the text and is not empty unless it is the end.
-/
namespace RegisterLang.Text.Bytes
open Lexeme

def runEnd? (p : UInt8 → Bool) (text : Bytes) (i : Nat) : Option Nat := do
  if i < text.length then
    let b ← text[i]?
    if p b then text |>.runEnd? p (i + 1) else return i
  else return i
partial_fixpoint

def quotedEnd? (quote : UInt8) (text : Bytes) (i : Nat) : Option Nat := do
  if i < text.length then
    let b ← text[i]?
    if b = quote then return i + 1
    else if b = 10 then return i
    -- the byte after a backslash may lie beyond the text
    else text |>.quotedEnd? quote (if b = 92 then i + 2 else i + 1)
  else return text.length
partial_fixpoint

def blanksEnd? (text : Bytes) (i : Nat) : Option Nat := do
  if i < text.length then
    let b ← text[i]?
    if isBlank b then text |>.blanksEnd? (i + 1)
    else if b = 47 ∧ i + 1 < text.length then
      let c ← text[i + 1]?
      if c = 47 then
        let e ← runEnd? (· ≠ 10) text i
        text |>.blanksEnd? e
      else return i
    else return i
  else return i
partial_fixpoint

end RegisterLang.Text.Bytes

namespace RegisterLang.Lexeme
open Text Bytes

/-- The bytes from `i` to before `j`, if that is a part of the text. -/
def slice? (text : Bytes) (i j : Nat) : Option Bytes :=
  if i ≤ j ∧ j ≤ text.length then some ((text.drop i).take (j - i)) else none

def pairAt? (text : Bytes) (i : Nat) : Option (Option Punct) := do
  if i + 1 < text.length then
    match ← slice? text i (i + 2) with
    | [b, c] => return punct₂? b c
    | _ => return none
  else return none

def charAt? (text : Bytes) (i e : Nat) : Option Token := do
  let whole ← slice? text i e
  if e - i < 3 then return .stray whole
  else
    let last ← text[e - 1]?
    if last ≠ 39 then return .stray whole
    else
      let inner ← slice? text (i + 1) (e - 1)
      match unescape? 39 inner with
      | some u => return .char u.value
      | none => return .stray whole

def tokenAt? (text : Bytes) (i : Nat) : Option (Token × Nat) := do
  let b ← text[i]?
  match ← pairAt? text i with
  | some p => return (.punct p, i + 2)
  | none =>
    match punct₁? b with
    | some p => return (.punct p, i + 1)
    | none =>
      if b = 34 then
        let e ← quotedEnd? 34 text (i + 1)
        return (stringToken (← slice? text i e), e)
      else if b = 39 then
        let e ← quotedEnd? 39 text (i + 1)
        return (← charAt? text i e, e)
      else if isLetter b ∨ b = 95 then
        let e ← runEnd? isIdentByte text i
        return (word (Bytes.toText (← slice? text i e)), e)
      else if isDigit b then
        let e ← runEnd? isNumberByte text i
        return (.number (← slice? text i e), e)
      else return (.stray (← slice? text i (i + 1)), i + 1)

def next? (text : Bytes) (st : Nat) : Option Lexeme := do
  let i ← blanksEnd? text st
  if i = text.length then return ⟨.eof, i, i⟩
  else
    let (t, e) ← tokenAt? text i
    return ⟨t, i, e⟩

variable {text : Bytes} {i : Nat}

/-! ### Tokens lie in the text -/

/-- Blanks are taken from the front. -/
theorem skip_eq (comment : Bool) (offset : Nat) (text : Bytes) :
    ∃ n ≤ text.length, skip comment offset text = (offset + n, text.drop n) := by
  induction text generalizing comment offset with
  | nil => exact ⟨0, Nat.le_refl _, by cases comment <;> rfl⟩
  | cons b rest ih =>
    have hnext : ∀ comment, ∃ n ≤ (b :: rest).length,
        skip comment (offset + 1) rest = (offset + n, (b :: rest).drop n) := by
      intro comment
      obtain ⟨n, hn, heq⟩ := ih comment (offset + 1)
      refine ⟨n + 1, Nat.succ_le_succ hn, ?_⟩
      rw [heq, List.drop_succ_cons, Nat.add_assoc, Nat.add_comm 1 n]
    cases comment with
    | true => exact hnext _
    | false =>
      rw [skip]
      split
      · exact hnext _
      · split
        · exact hnext _
        · exact ⟨0, Nat.zero_le _, rfl⟩

theorem quotedLength_le (quote : UInt8) (bs : Bytes) : quotedLength quote bs ≤ bs.length := by
  fun_induction quotedLength quote bs with
  | case1 => exact Nat.le_refl _
  | case2 _ rest ih => exact Nat.succ_le_succ (Nat.succ_le_succ ih)
  | case3 => simp
  | case4 => simp
  | case5 _ _ _ _ _ ih => exact Nat.succ_le_succ ih

/-- A token takes bytes of the text only. -/
theorem read_le (b : UInt8) (rest : Bytes) : (read b rest).2 ≤ rest.length := by
  unfold read
  split
  next p hp =>
    cases rest with
    | nil => cases hp
    | cons c rest => simp
  · split
    · exact Nat.zero_le _
    · split
      · exact quotedLength_le b rest
      · split
        · exact (List.takeWhile_prefix _).length_le
        · split
          · exact (List.takeWhile_prefix _).length_le
          · exact Nat.zero_le _

structure Spans (text : Bytes) (st : Nat) (l : Lexeme) : Prop where
  after : st ≤ l.start
  ordered : l.start ≤ l.stop
  inside : l.stop ≤ text.length
  nonempty : l.token ≠ .eof → l.start < l.stop

/-- The next token is at the end of the text, or behind `n` blanks. -/
theorem next_cases {st : Nat} (h : st ≤ text.length) :
    ∃ n, st + n ≤ text.length ∧ skip false st (text.drop st) = (st + n, text.drop (st + n)) ∧
      ((st + n = text.length ∧ next st (text.drop st) = (⟨.eof, st + n, st + n⟩, [])) ∨
        ∃ b rest, text.drop (st + n) = b :: rest ∧ next st (text.drop st) =
          (⟨(read b rest).1, st + n, st + n + (read b rest).2 + 1⟩, rest.drop (read b rest).2)) := by
  obtain ⟨n, hn, hskip⟩ := skip_eq false st (text.drop st)
  rw [List.length_drop] at hn
  rw [List.drop_drop] at hskip
  refine ⟨n, by omega, hskip, ?_⟩
  unfold next
  rw [hskip]
  cases hrest : text.drop (st + n) with
  | nil =>
    have hle := List.drop_eq_nil_iff.mp hrest
    exact .inl ⟨by omega, rfl⟩
  | cons b rest => exact .inr ⟨b, rest, rfl, rfl⟩

theorem length_of_drop {b : UInt8} {rest : Bytes} (h : text.drop i = b :: rest) :
    text.length = i + 1 + rest.length := by
  have hlength := congrArg List.length h
  rw [List.length_drop, List.length_cons] at hlength
  omega

theorem drop_add_of_drop {b : UInt8} {rest : Bytes} (h : text.drop i = b :: rest) (n : Nat) :
    text.drop (i + n + 1) = rest.drop n := by
  rw [Nat.add_assoc, ← List.drop_drop, h, List.drop_succ_cons]

/-- Where the next token lies. -/
theorem next_spans {st : Nat} (h : st ≤ text.length) : Spans text st (next st (text.drop st)).1 := by
  obtain ⟨n, hn, _, ⟨_, heq⟩ | ⟨b, rest, hrest, heq⟩⟩ := next_cases h
  · rw [heq]
    exact ⟨Nat.le_add_right _ _, Nat.le_refl _, hn, fun hne => absurd rfl hne⟩
  · have hlength := length_of_drop hrest
    have hread := read_le b rest
    rw [heq]
    refine ⟨Nat.le_add_right _ _, ?_, ?_, fun _ => ?_⟩
    all_goals
      dsimp only
      omega

/-- What is left after a token are the bytes from its end on. -/
theorem next_rest {st : Nat} (h : st ≤ text.length) :
    (next st (text.drop st)).2 = text.drop (next st (text.drop st)).1.stop := by
  obtain ⟨n, _, _, ⟨hend, heq⟩ | ⟨b, rest, hrest, heq⟩⟩ := next_cases h
  · rw [heq, hend, List.drop_length]
  · rw [heq]
    exact (drop_add_of_drop hrest _).symm

/-! ### The offsets stay in the text -/

theorem getElem?_of_drop {b : UInt8} {rest : Bytes} (h : text.drop i = b :: rest) :
    text[i]? = some b := by
  rw [← List.head?_drop, h]
  rfl

theorem slice?_of_le {n : Nat} (h : i + n ≤ text.length) :
    slice? text i (i + n) = some ((text.drop i).take n) := by
  rw [slice?, if_pos ⟨Nat.le_add_right _ _, h⟩, Nat.add_sub_cancel_left]

theorem runEnd?_eq (p : UInt8 → Bool) (h : i ≤ text.length) :
    runEnd? p text i = some (i + ((text.drop i).takeWhile p).length) := by
  induction hrest : text.drop i generalizing i with
  | nil =>
    have hle := List.drop_eq_nil_iff.mp hrest
    rw [runEnd?, if_neg (by omega)]
    rfl
  | cons b rest ih =>
    have hlength := length_of_drop hrest
    have hnext : text.drop (i + 1) = rest := drop_add_of_drop hrest 0
    rw [runEnd?, if_pos (by omega), getElem?_of_drop hrest]
    change (if p b = true then runEnd? p text (i + 1) else some i) = _
    by_cases hb : p b = true
    · rw [if_pos hb, ih (by omega) hnext, List.takeWhile_cons_of_pos hb, List.length_cons]
      congr 1
      omega
    · rw [if_neg hb, List.takeWhile_cons_of_neg hb]
      rfl

theorem quotedLength_cons {b : UInt8} (hb : b ≠ 92) (quote : UInt8) (rest : Bytes) :
    quotedLength quote (b :: rest) =
      if b = quote then 1 else if b = 10 then 0 else quotedLength quote rest + 1 := by
  rw [quotedLength]
  intro _ _ hback
  exact absurd hback hb

theorem quotedEnd?_eq {quote : UInt8} (hquote : quote ≠ 92) (h : i ≤ text.length) :
    quotedEnd? quote text i = some (i + quotedLength quote (text.drop i)) := by
  induction hn : text.length - i using Nat.strongRecOn generalizing i with
  | ind n ih =>
    cases hrest : text.drop i with
    | nil =>
      have hle := List.drop_eq_nil_iff.mp hrest
      rw [quotedEnd?, if_neg (by omega), quotedLength, Nat.add_zero, Nat.le_antisymm h hle]
      rfl
    | cons b rest =>
      have hlength := length_of_drop hrest
      have hnext : text.drop (i + 1) = rest := drop_add_of_drop hrest 0
      rw [quotedEnd?, if_pos (by omega), getElem?_of_drop hrest]
      change (if b = quote then some (i + 1) else if b = 10 then some i else
        quotedEnd? quote text (if b = 92 then i + 2 else i + 1)) = _
      by_cases hback : b = 92
      · subst hback
        rw [if_neg hquote.symm, if_neg (by decide), if_pos rfl]
        cases rest with
        | nil =>
          -- nothing follows the backslash: the offset is set back to the end
          rw [List.length_nil] at hlength
          rw [quotedEnd?, if_neg (by omega), hlength]
          simp [quotedLength, hquote.symm]
        | cons c rest =>
          rw [List.length_cons] at hlength
          have hnext' : text.drop (i + 2) = rest := drop_add_of_drop hrest 1
          rw [ih _ (by omega) (by omega) rfl, hnext', quotedLength]
          congr 1
          omega
      · rw [quotedLength_cons hback, if_neg hback]
        split
        · rfl
        · split
          · rfl
          · rw [ih _ (by omega) (by omega) rfl, hnext]
            congr 1
            omega

/-- A comment is skipped up to its newline, which is a blank. -/
theorem skip_comment (offset : Nat) (text : Bytes) :
    skip true offset text = skip false (offset + (text.takeWhile (· ≠ 10)).length)
      (text.drop (text.takeWhile (· ≠ 10)).length) := by
  induction text generalizing offset with
  | nil => rfl
  | cons b rest ih =>
    by_cases hb : b = 10
    · subst hb
      simp [skip, isBlank]
    · rw [skip, decide_eq_true hb, ih, List.takeWhile_cons_of_pos (by simpa using hb), List.length_cons,
        List.drop_succ_cons]
      congr 1
      omega

theorem blanksEnd?_eq (h : i ≤ text.length) :
    blanksEnd? text i = some (skip false i (text.drop i)).1 := by
  induction hn : text.length - i using Nat.strongRecOn generalizing i with
  | ind n ih =>
    cases hrest : text.drop i with
    | nil =>
      have hle := List.drop_eq_nil_iff.mp hrest
      rw [blanksEnd?, if_neg (by omega), skip]
      rfl
    | cons b rest =>
      have hlength := length_of_drop hrest
      have hnext : text.drop (i + 1) = rest := drop_add_of_drop hrest 0
      rw [blanksEnd?, if_pos (by omega), getElem?_of_drop hrest, skip]
      dsimp only [Option.bind_eq_bind, Option.bind_some]
      by_cases hblank : isBlank b = true
      · rw [if_pos hblank, if_pos hblank, ih _ (by omega) (by omega) rfl, hnext]
      · rw [if_neg hblank, if_neg hblank]
        by_cases hslash : b = 47 ∧ i + 1 < text.length
        · rw [if_pos hslash]
          obtain ⟨rfl, hlt⟩ := hslash
          obtain ⟨c, rest, rfl⟩ := List.exists_cons_of_length_pos (by omega : 0 < rest.length)
          rw [getElem?_of_drop hnext]
          dsimp only [Option.bind_some]
          by_cases hc : c = 47
          · rw [if_pos hc, if_pos ⟨rfl, by rw [hc]; rfl⟩, skip_comment, runEnd?_eq _ h, hrest,
              List.takeWhile_cons_of_pos (by decide), List.length_cons]
            dsimp only [Option.bind_some]
            have hrun : ((c :: rest).takeWhile (· ≠ 10)).length ≤ (c :: rest).length :=
              (List.takeWhile_prefix _).length_le
            rw [ih _ (by omega) (by omega) rfl, ← Nat.add_assoc, drop_add_of_drop hrest,
              Nat.add_right_comm]
          · rw [if_neg hc, if_neg]
            · rfl
            · rintro ⟨_, hhead⟩
              exact hc (Option.some.inj hhead)
        · rw [if_neg hslash, if_neg]
          · rfl
          · rintro ⟨hb, hhead⟩
            apply hslash
            refine ⟨hb, ?_⟩
            obtain ⟨rest', rfl⟩ := List.head?_eq_some_iff.mp hhead
            rw [List.length_cons] at hlength
            omega

section
variable {b : UInt8} {rest : Bytes} (h : text.drop i = b :: rest)
include h

theorem slice?_of_drop {n : Nat} (hn : n ≤ rest.length) :
    slice? text i (i + n + 1) = some (b :: rest.take n) := by
  have hlength := length_of_drop h
  rw [Nat.add_assoc, slice?_of_le (by omega), h, List.take_succ_cons]

theorem pairAt?_eq : pairAt? text i = some (rest.head? >>= punct₂? b) := by
  have hlength := length_of_drop h
  cases rest with
  | nil =>
    rw [pairAt?, if_neg (by rw [hlength]; simp)]
    rfl
  | cons c rest =>
    rw [pairAt?, if_pos (by rw [hlength]; simp), slice?_of_drop h (by simp : 1 ≤ (c :: rest).length)]
    rfl

/-- A character in single quotes is taken as a whole, by its last byte and by what is between. -/
theorem charAt?_eq {n : Nat} (hn : n ≤ rest.length) :
    charAt? text i (i + n + 1) = some (charToken (b :: rest.take n)) := by
  have hlength := length_of_drop h
  have htake : (b :: rest.take n).length = n + 1 := by simp [hn]
  rw [charAt?, slice?_of_drop h hn]
  dsimp only [Option.bind_eq_bind, Option.bind_some]
  rw [charToken, htake]
  by_cases hshort : n + 1 < 3
  · rw [if_pos (by omega), if_pos (.inl hshort)]
    rfl
  · obtain ⟨m, rfl⟩ : ∃ m, n = m + 1 := ⟨n - 1, by omega⟩
    -- the last byte and the bytes between the quotes, by offsets and in the slice
    have hlast : text[i + (m + 1) + 1 - 1]? = some rest[m] := by
      rw [← List.head?_drop, Nat.add_sub_cancel, ← Nat.add_assoc, drop_add_of_drop h, List.head?_drop,
        List.getElem?_eq_getElem]
    have hinner : slice? text (i + 1) (i + (m + 1) + 1 - 1) = some (rest.take m) := by
      rw [Nat.add_sub_cancel, Nat.add_comm m, ← Nat.add_assoc, slice?_of_le (by omega),
        drop_add_of_drop h 0, List.drop_zero]
    rw [if_neg (by omega), hlast, hinner, ← List.take_append_getElem (by omega : m < rest.length)]
    dsimp only [Option.bind_some]
    have hquote : (b :: (rest.take m ++ [rest[m]])).getLast? = some rest[m] := by
      rw [← List.cons_append, List.getLast?_concat]
    have hbetween : ((b :: (rest.take m ++ [rest[m]])).drop 1).dropLast = rest.take m :=
      List.dropLast_concat
    rw [hquote, hbetween]
    by_cases hclosed : rest[m] = 39
    · rw [if_neg (by simpa using hclosed), if_neg]
      · cases unescape? 39 (rest.take m) <;> rfl
      · rintro (hlt | hne)
        · exact hshort hlt
        · exact hne (congrArg some hclosed)
    · rw [if_pos hclosed, if_pos (.inr fun heq => hclosed (Option.some.inj heq))]
      rfl

/-- The token that starts at an offset. -/
theorem tokenAt?_eq : tokenAt? text i = some ((read b rest).1, i + (read b rest).2 + 1) := by
  have hlength := length_of_drop h
  have hnext : text.drop (i + 1) = rest := drop_add_of_drop h 0
  have hquoted : ∀ quote : UInt8, quote ≠ 92 →
      quotedEnd? quote text (i + 1) = some (i + quotedLength quote rest + 1) := by
    intro quote hquote
    rw [quotedEnd?_eq hquote (by omega), hnext, Nat.add_right_comm]
  have hrun : ∀ p : UInt8 → Bool, p b = true →
      runEnd? p text i = some (i + (rest.takeWhile p).length + 1) ∧
        slice? text i (i + (rest.takeWhile p).length + 1) = some (b :: rest.takeWhile p) := by
    intro p hp
    have hprefix := List.takeWhile_prefix (l := rest) p
    rw [runEnd?_eq p (by omega), h, List.takeWhile_cons_of_pos hp, List.length_cons, Nat.add_assoc]
    refine ⟨rfl, ?_⟩
    rw [← Nat.add_assoc, slice?_of_drop h hprefix.length_le, ← List.prefix_iff_eq_take.mp hprefix]
  rw [tokenAt?, getElem?_of_drop h, pairAt?_eq h, read]
  dsimp only [Option.bind_eq_bind, Option.bind_some]
  cases rest.head?.bind (punct₂? b) with
  | some p => rfl
  | none =>
    dsimp only
    cases punct₁? b with
    | some p => rfl
    | none =>
      dsimp only
      by_cases hstring : b = 34
      · rw [if_pos hstring, if_pos (.inl hstring), if_pos hstring, hquoted 34 (by decide), hstring]
        dsimp only [Option.bind_some]
        rw [slice?_of_drop h (quotedLength_le 34 rest), hstring]
        rfl
      · rw [if_neg hstring]
        by_cases hchar : b = 39
        · rw [if_pos hchar, if_pos (.inr hchar), if_neg hstring, hquoted 39 (by decide)]
          dsimp only [Option.bind_some]
          rw [charAt?_eq h (quotedLength_le 39 rest), hchar]
          rfl
        · rw [if_neg hchar, if_neg (not_or.mpr ⟨hstring, hchar⟩)]
          by_cases hletter : isLetter b = true ∨ b = 95
          · obtain ⟨hend, hslice⟩ := hrun isIdentByte (isIdentByte_of_first hletter)
            rw [if_pos hletter, if_pos hletter, hend]
            dsimp only [Option.bind_some]
            rw [hslice]
            rfl
          · rw [if_neg hletter, if_neg hletter]
            by_cases hdigit : isDigit b = true
            · obtain ⟨hend, hslice⟩ := hrun isNumberByte (by simp [isNumberByte, isIdentByte, hdigit])
              rw [if_pos hdigit, if_pos hdigit, hend]
              dsimp only [Option.bind_some]
              rw [hslice]
              rfl
            · rw [if_neg hdigit, if_neg hdigit, slice?_of_drop h (Nat.zero_le _)]
              rfl

end

/-- From every offset in the text the next token is found. -/
theorem next?_eq {st : Nat} (h : st ≤ text.length) :
    next? text st = some (next st (text.drop st)).1 := by
  obtain ⟨n, hn, hskip, ⟨hend, heq⟩ | ⟨b, rest, hrest, heq⟩⟩ := next_cases h
  · rw [next?, blanksEnd?_eq h, hskip, heq]
    dsimp only [Option.bind_eq_bind, Option.bind_some]
    rw [if_pos hend]
    rfl
  · have hlength := length_of_drop hrest
    rw [next?, blanksEnd?_eq h, hskip, heq]
    dsimp only [Option.bind_eq_bind, Option.bind_some]
    rw [if_neg (by omega), tokenAt?_eq hrest]
    rfl

end RegisterLang.Lexeme
