import RegisterLang.Proofs.Literals

/-!
# Tokens of a text

The tokens of a text do not depend on where it stands. A text spells tokens if they come before those of
what follows, whatever that is, or as long as it does not go on with the last word.
-/
namespace RegisterLang
open Text

namespace Text.Bytes

theorem chars_cons {b : UInt8} {rest : Bytes} {c : Char} {n : Nat}
    (h : Utf8.decode? b rest = some (c, n)) :
    chars (b :: rest) = (b, some c) :: chars (rest.drop n) := by
  rw [chars, h]

/-- A text is what its bytes spell. -/
theorem toText_ofString (s : String) : toText (ofString s) = s := by
  have hchars : ∀ cs : List Char,
      (chars (cs.flatMap String.utf8EncodeChar)).map (fun p => p.2.getD replacement) = cs := by
    intro cs
    induction cs with
    | nil => simp [chars]
    | cons c cs ih =>
      obtain ⟨b, more, hencode, hdecode⟩ := Utf8.decode?_encode c
      rw [List.flatMap_cons, hencode, List.cons_append, chars_cons (hdecode _), List.drop_left,
        List.map_cons, ih]
      rfl
  rw [ofString_eq, toText, hchars, String.ofList_toList]

/-- Bytes of plain text are those of the text that they spell. -/
theorem ofString_toText {bs : Bytes} (h : ∀ b ∈ bs, b.toNat < 0x80) : ofString (toText bs) = bs := by
  have hflat : ∀ bs : Bytes, (∀ b ∈ bs, b.toNat < 0x80) →
      ((chars bs).map fun p => p.2.getD replacement).flatMap String.utf8EncodeChar = bs := by
    intro bs
    induction bs with
    | nil => simp [chars]
    | cons b bs ih =>
      intro h
      rw [List.forall_mem_cons] at h
      have hdecode : Utf8.decode? b bs = some (Char.ofNat b.toNat, 0) := by
        rw [Utf8.decode?, if_pos (UInt8.lt_iff_toNat_lt.mpr h.1)]
      have hchar : (Char.ofNat b.toNat).toNat = b.toNat :=
        Utf8.toNat_ofNat_of_valid (.inl (by omega))
      rw [chars_cons hdecode, List.drop_zero, List.map_cons, List.flatMap_cons, ih h.2]
      change String.utf8EncodeChar (Char.ofNat b.toNat) ++ bs = b :: bs
      rw [Utf8.encode_of_lt (by omega), hchar, UInt8.ofNat_toNat]
      rfl
  rw [toText, ofString_eq, String.toList_ofList, hflat bs h]

end Text.Bytes

namespace Lexeme

theorem skip_offset (comment : Bool) (offset offset' : Nat) (text : Bytes) :
    (skip comment offset text).2 = (skip comment offset' text).2 := by
  induction text generalizing comment offset offset' with
  | nil => cases comment <;> rfl
  | cons b rest ih =>
    cases comment with
    | true =>
      rw [skip, skip]
      exact ih _ _ _
    | false =>
      rw [skip, skip]
      split
      · exact ih _ _ _
      · split
        · exact ih _ _ _
        · rfl

theorem read_ne_eof (b : UInt8) (rest : Bytes) : (read b rest).1 ≠ .eof := by
  rcases read_cases b rest with ⟨_, h⟩ | ⟨_, h⟩ | ⟨_, _, h⟩ | ⟨_, h⟩ | ⟨_, h⟩ | ⟨_, h⟩ <;> rw [h]
  case inr.inr.inr.inl =>
    rcases word_cases (Bytes.toText (b :: rest.takeWhile isIdentByte)) with ⟨k, hk⟩ | hname
    · rw [hk]
      nofun
    · rw [hname]
      nofun
  all_goals nofun

def tokens (text : Bytes) : List Token := (scan text).map (·.token)

/-- The tokens that are found from an offset on. -/
theorem map_scanFrom (acc : Array Lexeme) (offset : Nat) (text : Bytes) :
    (scanFrom acc offset text).toList.map (·.token) =
      acc.toList.map (·.token) ++ match (skip false offset text).2 with
        | [] => [.eof]
        | b :: rest => (read b rest).1 :: tokens (rest.drop (read b rest).2) := by
  induction hn : text.length using Nat.strongRecOn generalizing acc offset text with
  | ind n ih =>
    have hskip := skip_length false offset text
    rw [scanFrom_eq, next]
    split
    next start hs =>
      rw [if_pos rfl, hs]
      simp
    next start b rest hs =>
      rw [hs] at hskip ⊢
      have hlength : (rest.drop (read b rest).2).length < n := by
        simp only [List.length_drop, List.length_cons] at hskip ⊢
        omega
      have htail := ih _ hlength #[] 0 _ rfl
      rw [if_neg (read_ne_eof b rest), ih _ hlength _ _ _ rfl]
      change _ = _ ++ (read b rest).1 :: (scanFrom #[] 0 _).toList.map (·.token)
      rw [htail, skip_offset false _ 0]
      simp

theorem tokens_eq (text : Bytes) : tokens text = match (skip false 0 text).2 with
    | [] => [.eof]
    | b :: rest => (read b rest).1 :: tokens (rest.drop (read b rest).2) :=
  (map_scanFrom #[] 0 text).trans (by simp)

theorem tokens_nil : tokens [] = [.eof] := tokens_eq []

theorem tokens_blank {b : UInt8} (h : isBlank b = true) (rest : Bytes) :
    tokens (b :: rest) = tokens rest := by
  rw [tokens_eq, tokens_eq rest, skip, if_pos h, skip_offset false (0 + 1) 0]

/-- A token is taken where no blank and no comment begins. -/
theorem tokens_token {b : UInt8} {rest : Bytes} {t : Token} {n : Nat} (hblank : isBlank b = false)
    (hcomment : b ≠ 47 ∨ rest.head? ≠ some 47) (hread : read b rest = (t, n)) :
    tokens (b :: rest) = t :: tokens (rest.drop n) := by
  have hskip : skip false 0 (b :: rest) = (0, b :: rest) := by
    rw [skip, hblank, if_neg (by decide), if_neg]
    rintro ⟨hslash, hhead⟩
    rcases hcomment with h | h
    · exact h hslash
    · exact h hhead
  rw [tokens_eq, hskip]
  dsimp only
  rw [hread]

theorem tokens_of_read {b : UInt8} {more rest : Bytes} {t : Token} (hblank : isBlank b = false)
    (hslash : b ≠ 47) (hread : read b (more ++ rest) = (t, more.length)) :
    tokens (b :: more ++ rest) = t :: tokens rest := by
  rw [List.cons_append, tokens_token hblank (.inl hslash) hread, List.drop_left]

theorem punct₁?_of_ident {b : UInt8} (h : isIdentByte b = true) : punct₁? b = none := by
  unfold punct₁?
  split
  all_goals first
    | rfl
    | exact absurd h (by decide)

theorem punct₂?_of_ident {b : UInt8} (h : isIdentByte b = true) (c : UInt8) :
    punct₂? b c = none := by
  unfold punct₂?
  split
  all_goals first
    | rfl
    | exact absurd h (by decide)

/-- A byte of a word begins no symbol and no quoted text. -/
theorem read_of_ident {b : UInt8} (h : isIdentByte b = true) (rest : Bytes) :
    read b rest =
      if isLetter b ∨ b = 95 then
        (word (Bytes.toText (b :: rest.takeWhile isIdentByte)), (rest.takeWhile isIdentByte).length)
      else if isDigit b then
        (.number (b :: rest.takeWhile isNumberByte), (rest.takeWhile isNumberByte).length)
      else (.stray [b], 0) := by
  have hquote : ¬ (b = 34 ∨ b = 39) := by
    rintro (rfl | rfl) <;> exact absurd h (by decide)
  have hpunct : rest.head? >>= punct₂? b = none := by
    cases rest with
    | nil => rfl
    | cons c rest => exact punct₂?_of_ident h c
  rw [read, hpunct, punct₁?_of_ident h]
  dsimp only
  rw [if_neg hquote]

theorem isBlank_of_ident {b : UInt8} (h : isIdentByte b = true) : isBlank b = false := by
  rw [Bool.eq_false_iff]
  intro hblank
  simp only [isBlank, Bool.or_eq_true, decide_eq_true_eq] at hblank
  rcases hblank with ((rfl | rfl) | rfl) | rfl <;> exact absurd h (by decide)

/-- What follows does not go on with a word or a number. -/
def Ends (rest : Bytes) : Prop := ∀ b ∈ rest.head?, isNumberByte b = false

theorem Ends.takeWhile {p : UInt8 → Bool} (hp : ∀ b, p b = true → isNumberByte b = true)
    {more rest : Bytes} (hmore : ∀ b ∈ more, p b = true) (h : Ends rest) :
    (more ++ rest).takeWhile p = more := by
  rw [List.takeWhile_append_of_pos hmore, List.append_right_eq_self]
  cases rest with
  | nil => rfl
  | cons b rest =>
    have hb : p b = false := by
      rw [Bool.eq_false_iff]
      intro hpb
      exact absurd (hp b hpb) (by rw [h b rfl]; decide)
    exact List.takeWhile_cons_of_neg (by rw [hb]; decide)

def Closed (s : String) (ts : List Token) : Prop :=
  ∀ rest, tokens (Bytes.ofString s ++ rest) = ts ++ tokens rest

structure Glue (s : String) (ts : List Token) : Prop where
  closed : Closed s ts
  ends : ∀ rest, Ends (Bytes.ofString s ++ rest)

/-- A text with its tokens, if what follows does not go on with its last word. -/
structure Spells (s : String) (ts : List Token) : Prop where
  /-- a minus before the text stays one -/
  first : ∃ b more, Bytes.ofString s = b :: more ∧ b ≠ 62
  tokens : ∀ rest, Ends rest → tokens (Bytes.ofString s ++ rest) = ts ++ tokens rest

section
variable {s s' : String} {ts ts' : List Token}

theorem Closed.append (h : Closed s ts) (h' : Closed s' ts') : Closed (s ++ s') (ts ++ ts') := by
  intro rest
  rw [Bytes.ofString_append, List.append_assoc, h, h', List.append_assoc]

theorem Glue.append (h : Glue s ts) (h' : Closed s' ts') : Glue (s ++ s') (ts ++ ts') := by
  refine ⟨h.closed.append h', fun rest => ?_⟩
  rw [Bytes.ofString_append, List.append_assoc]
  exact h.ends _

theorem Spells.glue (h : Spells s ts) (h' : Glue s' ts') : Closed (s ++ s') (ts ++ ts') := by
  intro rest
  rw [Bytes.ofString_append, List.append_assoc, h.tokens _ (h'.ends rest), h'.closed,
    List.append_assoc]

/-- A word and what ends it behind a closed text. -/
theorem Closed.word {w g : String} {us vs : List Token} (h : Closed s ts) (hw : Spells w us)
    (hg : Glue g vs) : Closed (s ++ w ++ g) (ts ++ us ++ vs) := by
  rw [String.append_assoc, List.append_assoc]
  exact h.append (hw.glue hg)

theorem Closed.spells (h : Closed s ts) (hfirst : ∃ b more, Bytes.ofString s = b :: more ∧ b ≠ 62) :
    Spells s ts :=
  ⟨hfirst, fun rest _ => h rest⟩

theorem Spells.first_append (h : Spells s ts) (s' : String) :
    ∃ b more, Bytes.ofString (s ++ s') = b :: more ∧ b ≠ 62 := by
  obtain ⟨b, more, hs, hb⟩ := h.first
  exact ⟨b, more ++ Bytes.ofString s', by rw [Bytes.ofString_append, hs, List.cons_append], hb⟩

theorem Spells.between {g : String} {us : List Token} (h : Spells s ts) (hg : Glue g us)
    (h' : Spells s' ts') : Spells (s ++ g ++ s') (ts ++ us ++ ts') := by
  refine ⟨?_, fun rest hrest => ?_⟩
  · rw [String.append_assoc]
    exact h.first_append _
  · rw [Bytes.ofString_append, List.append_assoc, h.glue hg, h'.tokens rest hrest,
      List.append_assoc, List.append_assoc, List.append_assoc]

/-- The minus of an operand. -/
theorem Spells.minus (h : Spells s ts) : Spells ("-" ++ s) (.punct .minus :: ts) := by
  obtain ⟨b, more, hs, hb⟩ := h.first
  have hminus : Bytes.ofString ("-" ++ s) = 45 :: Bytes.ofString s := by
    rw [Bytes.ofString_append, Bytes.ofString_eq "-"]
    rfl
  refine ⟨⟨45, _, hminus, by decide⟩, fun rest hrest => ?_⟩
  have hread : read 45 (Bytes.ofString s ++ rest) = (.punct .minus, 0) := by
    have hpunct : punct₂? 45 b = none := by
      unfold punct₂?
      split <;> simp_all
    rw [hs, read, List.cons_append, List.head?_cons]
    simp [hpunct, punct₁?]
  rw [hminus, List.cons_append, tokens_token rfl (.inl (by decide)) hread, List.drop_zero,
    h.tokens rest hrest, List.cons_append]

end

/-- Blanks are skipped. -/
theorem closed_blanks {s : String} (h : ∀ b ∈ Bytes.ofString s, isBlank b = true) : Closed s [] := by
  intro rest
  generalize Bytes.ofString s = bs at h
  induction bs with
  | nil => rfl
  | cons b bs ih =>
    rw [List.forall_mem_cons] at h
    rw [List.cons_append, tokens_blank h.1]
    exact ih h.2

/-- A blank ends a word. -/
theorem glue_blank {s : String} {b : UInt8} (hs : Bytes.ofString s = [b]) (h : isBlank b = true) :
    Glue s [] := by
  refine ⟨closed_blanks ?_, fun rest c hc => ?_⟩
  · rw [hs]
    simpa using h
  · rw [hs] at hc
    cases hc
    rw [Bool.eq_false_iff]
    intro hnumber
    simp only [isBlank, Bool.or_eq_true, decide_eq_true_eq] at h
    rcases h with ((rfl | rfl) | rfl) | rfl <;> exact absurd hnumber (by decide)

theorem glue_space : Glue " " [] := glue_blank (by rw [Bytes.ofString_eq]; rfl) rfl

theorem glue_newline : Glue "\n" [] := glue_blank (by rw [Bytes.ofString_eq]; rfl) rfl

/-- A symbol that begins no longer one. -/
theorem glue_byte {s : String} {b : UInt8} {p : Punct} (hs : Bytes.ofString s = [b])
    (hp : punct₁? b = some p) (hlonger : ∀ c, punct₂? b c = none) (hslash : b ≠ 47)
    (hblank : isBlank b = false) (hnumber : isNumberByte b = false) : Glue s [.punct p] := by
  refine ⟨fun rest => ?_, fun rest c hc => ?_⟩
  · have hpunct : rest.head? >>= punct₂? b = none := by
      cases rest with
      | nil => rfl
      | cons c rest => exact hlonger c
    have hread : read b ([] ++ rest) = (.punct p, 0) := by
      rw [List.nil_append, read, hpunct, hp]
    rw [hs, tokens_of_read hblank hslash hread, List.singleton_append]
  · rw [hs] at hc
    cases hc
    exact hnumber

/-- A symbol before a space is no part of a longer one. -/
theorem glue_symbol (p : Punct) : Glue (p.text ++ " ") [.punct p] := by
  obtain ⟨b, more, hbytes, hblank, hnumber, hcomment, hread⟩ : ∃ b more,
      Bytes.ofString p.text = b :: more ∧ isBlank b = false ∧ isNumberByte b = false ∧
      (∀ rest, b ≠ 47 ∨ (more ++ 32 :: rest).head? ≠ some 47) ∧
      ∀ rest, read b (more ++ 32 :: rest) = (.punct p, more.length) := by
    cases p
    all_goals
      refine ⟨_, _, by rw [Bytes.ofString_eq]; rfl, rfl, rfl, fun rest => ?_, fun rest => rfl⟩
      first
        | exact .inl (by decide)
        | exact .inr nofun
  have hspace : Bytes.ofString " " = [32] := by
    rw [Bytes.ofString_eq]
    rfl
  have hall : ∀ rest, Bytes.ofString (p.text ++ " ") ++ rest = b :: (more ++ 32 :: rest) := by
    intro rest
    rw [Bytes.ofString_append, hbytes, hspace]
    simp
  refine ⟨fun rest => ?_, fun rest c hc => ?_⟩
  · rw [hall, tokens_token hblank (hcomment rest) (hread rest), List.drop_left, tokens_blank rfl,
      List.singleton_append]
  · rw [hall] at hc
    cases hc
    exact hnumber

section
variable {s : String} {b : UInt8} {more : Bytes}

theorem isIdentByte_of_first (hb : isLetter b = true ∨ b = 95) : isIdentByte b = true := by
  rcases hb with hb | rfl
  · simp [isIdentByte, hb]
  · rfl

/-- A word is one token. -/
theorem spells_word (hs : Bytes.ofString s = b :: more) (hb : isLetter b = true ∨ b = 95)
    (hmore : ∀ c ∈ more, isIdentByte c = true) : Spells s [word s] := by
  have hident : isIdentByte b = true := isIdentByte_of_first hb
  refine ⟨⟨b, more, hs, ?_⟩, fun rest hrest => ?_⟩
  · rintro rfl
    exact absurd hident (by decide)
  · have htake := hrest.takeWhile (fun c hc => by simp [isNumberByte, hc]) hmore
    have hread : read b (more ++ rest) = (word s, more.length) := by
      rw [read_of_ident hident, if_pos hb, htake, ← hs, Bytes.toText_ofString]
    have hslash : b ≠ 47 := by
      rintro rfl
      exact absurd hident (by decide)
    rw [hs, tokens_of_read (isBlank_of_ident hident) hslash hread, List.singleton_append]

theorem spells_keyword (k : Keyword) : Spells k.text [.keyword k] := by
  have hword : word k.text = .keyword k := by cases k <;> decide
  obtain ⟨b, more, hbytes, hb, hmore⟩ : ∃ b more, Bytes.ofString k.text = b :: more ∧
      isLetter b = true ∧ ∀ c ∈ more, isIdentByte c = true := by
    cases k
    all_goals exact ⟨_, _, by rw [Bytes.ofString_eq]; rfl, by decide, List.all_eq_true.mp (by decide)⟩
  rw [← hword]
  exact spells_word hbytes (.inl hb) hmore

theorem toNat_of_ident {c : UInt8} (h : isIdentByte c = true) : c.toNat < 0x80 := by
  simp only [isIdentByte, isLetter, isDigit, Bool.or_eq_true, Bool.and_eq_true, decide_eq_true_eq,
    UInt8.le_iff_toNat_le, UInt8.reduceToNat] at h
  rcases h with ((h | h) | h) | rfl
  · omega
  · omega
  · omega
  · decide

theorem spells_name (h : IsName s) : Spells s [.ident s] := by
  obtain ⟨b, more, hb, hmore, hs, hword⟩ := h
  have hident : isIdentByte b = true := isIdentByte_of_first hb
  have hbytes : Bytes.ofString s = b :: more := by
    rw [hs]
    apply Bytes.ofString_toText
    rw [List.forall_mem_cons]
    exact ⟨toNat_of_ident hident, fun c hc => toNat_of_ident (hmore c hc)⟩
  rw [← hword]
  exact spells_word hbytes hb hmore

/-- A number is one token. -/
theorem spells_numeral (h : IsNumeral (Bytes.ofString s)) : Spells s [.number (Bytes.ofString s)] := by
  obtain ⟨b, more, hs, hb, hmore⟩ := h
  have hident : isIdentByte b = true := by simp [isIdentByte, hb]
  have hdigit := Number.toNat_of_isDigit hb
  have hletter : ¬ (isLetter b = true ∨ b = 95) := by
    rintro (h | rfl)
    · simp only [isLetter, Bool.or_eq_true, Bool.and_eq_true, decide_eq_true_eq,
        UInt8.le_iff_toNat_le, UInt8.reduceToNat] at h
      omega
    · exact absurd hdigit (by decide)
  refine ⟨⟨b, more, hs, ?_⟩, fun rest hrest => ?_⟩
  · rintro rfl
    exact absurd hident (by decide)
  · have hread : read b (more ++ rest) = (.number (b :: more), more.length) := by
      rw [read_of_ident hident, if_neg hletter, if_pos hb,
        hrest.takeWhile (fun c hc => hc) hmore]
    have hslash : b ≠ 47 := by
      rintro rfl
      exact absurd hident (by decide)
    rw [hs, tokens_of_read (isBlank_of_ident hident) hslash hread, List.singleton_append]

end

theorem spells_string (bs : Bytes) : Spells (quoteBytes bs) [.string bs] := by
  refine ⟨?_, fun rest _ => ?_⟩
  · obtain ⟨more, hmore, _⟩ := read_quoteBytes bs []
    exact ⟨34, more, hmore, by decide⟩
  · obtain ⟨more, hmore, hread⟩ := read_quoteBytes bs rest
    rw [hmore, tokens_of_read rfl (by decide) hread, List.singleton_append]

theorem spells_char (c : Char) : Spells (quoteChar c.toNat) [.char c] := by
  refine ⟨?_, fun rest _ => ?_⟩
  · obtain ⟨more, hmore, _⟩ := read_quoteChar c []
    exact ⟨39, more, hmore, by decide⟩
  · obtain ⟨more, hmore, hread⟩ := read_quoteChar c rest
    rw [hmore, tokens_of_read rfl (by decide) hread, List.singleton_append]

end Lexeme

end RegisterLang
