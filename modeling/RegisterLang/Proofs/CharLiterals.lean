import RegisterLang.Proofs.Offsets

/-!
# Character literals

A literal begins with a single quote and goes on to the next one that no backslash takes along, or to the
end of its line. `Denotes` says which bytes are one character or one escape sequence and what they stand
for, and `Closes` where a literal ends.

A literal whose bytes end with a quote is read as the first character in it, whatever is left over. So
it is read whole exactly if nothing is: bytes after the first character are dropped, and so is the
backslash before an escaped quote with which the line ends.
-/
namespace RegisterLang.Text

/-- Digits of a base that are written behind a number, the first one, make it the last one. -/
inductive Positional (base : Nat) : Nat → Bytes → Nat → Prop
  | nil {n : Nat} : Positional base n [] n
  | cons {b : UInt8} {ds : Bytes} {m d n : Nat} : hexValue? b = some d → d < base →
      Positional base (m * base + d) ds n → Positional base m (b :: ds) n

/-- One character or one escape sequence between single quotes, the bytes after it and its value. A
byte with which no character begins is read as the replacement character. -/
inductive Denotes : Bytes → Bytes → Char → Prop
  | ascii {b : UInt8} {left : Bytes} : b.toNat < 0x80 → b ≠ 39 → b ≠ 92 →
      Denotes [b] left (Char.ofNat b.toNat)
  | wide {c : Char} {left : Bytes} : 0x80 ≤ c.toNat → Denotes (String.utf8EncodeChar c) left c
  | malformed {b : UInt8} {left : Bytes} : 0x80 ≤ b.toNat →
      (∀ c, ¬ String.utf8EncodeChar c <+: b :: left) → Denotes [b] left replacement
  | control {v : Nat} {letter : Char} {left : Bytes} : (v, letter) ∈ controlLetters →
      Denotes [92, letter.toNat.toUInt8] left (Char.ofNat v)
  | itself {c : UInt8} {left : Bytes} : c = 92 ∨ c = 39 → Denotes [92, c] left (Char.ofNat c.toNat)
  | byte {ds left : Bytes} {n : Nat} : ds.length = 2 → Positional 16 0 ds n →
      Denotes (92 :: 120 :: ds) left (Char.ofNat n)
  | unicode {letter : UInt8} {width n : Nat} {ds left : Bytes} :
      (letter, width) ∈ [((117 : UInt8), 4), (85, 8)] → ds.length = width → Positional 16 0 ds n →
      n.isValidChar → Denotes (92 :: letter :: ds) left (Char.ofNat n)
  | octal {ds left : Bytes} {n : Nat} : ds.length = 3 → Positional 8 0 ds n → n ≤ 255 →
      Denotes (92 :: ds) left (Char.ofNat n)

/-! ### Reading one character -/

def withDigit (bits : Nat) (acc : Option Nat) (b : UInt8) : Option Nat := do
  let v ← acc
  let d ← hexValue? b
  if d < 2 ^ bits then some (v * 2 ^ bits + d) else none

theorem foldl_withDigit_none (bits : Nat) (ds : Bytes) : ds.foldl (withDigit bits) none = none := by
  induction ds with
  | nil => rfl
  | cons b ds ih => exact ih

theorem foldl_withDigit {bits m n : Nat} {ds : Bytes} :
    ds.foldl (withDigit bits) (some m) = some n ↔ Positional (2 ^ bits) m ds n := by
  induction ds generalizing m with
  | nil =>
    constructor
    · rintro ⟨⟩
      exact .nil
    · rintro ⟨⟩
      rfl
  | cons b ds ih =>
    have hstep : ∀ d, hexValue? b = some d →
        withDigit bits (some m) b = if d < 2 ^ bits then some (m * 2 ^ bits + d) else none := by
      intro d hb
      rw [withDigit, hb]
      rfl
    rw [List.foldl_cons]
    constructor
    · intro h
      cases hb : hexValue? b with
      | none =>
        rw [withDigit, hb] at h
        cases (foldl_withDigit_none bits ds).symm.trans h
      | some d =>
        rw [hstep d hb] at h
        by_cases hd : d < 2 ^ bits
        · rw [if_pos hd] at h
          exact .cons hb hd (ih.mp h)
        · rw [if_neg hd, foldl_withDigit_none] at h
          cases h
    · rintro (_ | ⟨hb, hd, hmore⟩)
      rw [hstep _ hb, if_pos hd]
      exact ih.mpr hmore

theorem readDigits_eq_some {bits width n : Nat} {bs rest : Bytes} :
    readDigits bits bs width = some (n, rest) ↔
      ∃ ds, bs = ds ++ rest ∧ ds.length = width ∧ Positional (2 ^ bits) 0 ds n := by
  unfold readDigits
  by_cases hshort : bs.length < width
  · rw [if_pos hshort]
    constructor
    · intro h
      cases h
    · rintro ⟨ds, rfl, rfl, -⟩
      rw [List.length_append] at hshort
      omega
  · rw [if_neg hshort]
    dsimp only
    rw [Option.map_eq_some_iff]
    constructor
    · rintro ⟨v, hv, heq⟩
      obtain ⟨rfl, rfl⟩ := Prod.mk.inj heq
      exact ⟨bs.take width, (List.take_append_drop width bs).symm,
        List.length_take_of_le (Nat.le_of_not_lt hshort), foldl_withDigit.mp hv⟩
    · rintro ⟨ds, rfl, rfl, hds⟩
      rw [List.take_left, List.drop_left]
      exact ⟨n, foldl_withDigit.mpr hds, rfl⟩

theorem unescape?_byte {b : UInt8} (h : b ≠ 92) (rest : Bytes) :
    unescape? 39 (b :: rest) =
      if b = 39 then none
      else if b.toNat < 0x80 then some ⟨Char.ofNat b.toNat, false, rest⟩
      else
        match Utf8.decode? b rest with
        | some (c, n) => some ⟨c, true, rest.drop n⟩
        | none => some ⟨replacement, true, rest⟩ := by
  rw [unescape?]
  · simp only [h, or_false]
    rfl
  · rintro _ _ rfl
    exact absurd rfl h

theorem unquoted_of_le {b : UInt8} (h : 0x80 ≤ b.toNat) : Unquoted 39 b := by
  refine ⟨?_, ?_, ?_⟩ <;>
    · rintro rfl
      contradiction

theorem unescape?_of_le {b : UInt8} (h : 0x80 ≤ b.toNat) (rest : Bytes) :
    unescape? 39 (b :: rest) =
      match Utf8.decode? b rest with
      | some (c, n) => some ⟨c, true, rest.drop n⟩
      | none => some ⟨replacement, true, rest⟩ := by
  obtain ⟨hquote, -, hback⟩ := unquoted_of_le h
  rw [unescape?_byte hback, if_neg hquote, if_neg (Nat.not_lt.mpr h)]

theorem decode?_eq_none_iff {b : UInt8} {rest : Bytes} :
    Utf8.decode? b rest = none ↔ ∀ c, ¬ String.utf8EncodeChar c <+: b :: rest := by
  constructor
  · rintro hnone c ⟨more, hmore⟩
    obtain ⟨first, after, hencode, hread⟩ := Utf8.decode?_encode c
    rw [hencode, List.cons_append] at hmore
    obtain ⟨rfl, rfl⟩ := List.cons.inj hmore
    cases (hread more).symm.trans hnone
  · intro hnone
    rw [Option.eq_none_iff_forall_ne_some]
    rintro ⟨c, n⟩ hc
    apply hnone c
    rw [Utf8.encode_of_decode? hc]
    exact List.cons_prefix_cons.mpr ⟨rfl, List.take_prefix _ _⟩

theorem denotes_of_byte {b : UInt8} {rest : Bytes} {u : Unescaped} (hb : b ≠ 92)
    (h : unescape? 39 (b :: rest) = some u) :
    ∃ piece, b :: rest = piece ++ u.rest ∧ Denotes piece u.rest u.value := by
  rw [unescape?_byte hb] at h
  split at h
  · cases h
  next hquote =>
    split at h
    next hlt =>
      cases h
      exact ⟨[b], rfl, .ascii hlt hquote hb⟩
    next hlt =>
      have hle := Nat.le_of_not_lt hlt
      split at h
      next c n hdecode =>
        cases h
        have hencode := Utf8.encode_of_decode? hdecode
        refine ⟨String.utf8EncodeChar c, ?_, .wide ?_⟩
        · rw [hencode, List.cons_append, List.take_append_drop]
        · -- a small character is one small byte
          by_contra hsmall
          rw [Utf8.encode_eq, if_pos (by omega)] at hencode
          rw [← (List.cons.inj hencode).1, Utf8.toNat_ofNat (by omega)] at hle
          exact hsmall hle
      next hdecode =>
        cases h
        exact ⟨[b], rfl, .malformed hle (decode?_eq_none_iff.mp hdecode)⟩

theorem denotes_of_escape {c : UInt8} {rest : Bytes} {u : Unescaped}
    (h : unescape? 39 (92 :: c :: rest) = some u) :
    ∃ piece, 92 :: c :: rest = piece ++ u.rest ∧ Denotes piece u.rest u.value := by
  rw [unescape?] at h
  split at h
  next v letter hfind =>
    cases h
    have hletter : letter.toNat = c.toNat := by simpa using List.find?_some hfind
    have hc : c = letter.toNat.toUInt8 := by rw [hletter, Nat.toUInt8, UInt8.ofNat_toNat]
    exact ⟨[92, c], rfl, hc ▸ .control (List.mem_of_find?_eq_some hfind)⟩
  · split at h
    next hc =>
      subst hc
      obtain ⟨⟨n, left⟩, hdigits, hu⟩ := Option.bind_eq_some_iff.mp h
      obtain ⟨ds, rfl, hlength, hds⟩ := readDigits_eq_some.mp hdigits
      cases hu
      exact ⟨92 :: 120 :: ds, rfl, .byte hlength hds⟩
    · split at h
      next hc =>
        obtain ⟨⟨n, left⟩, hdigits, hu⟩ := Option.bind_eq_some_iff.mp h
        obtain ⟨ds, rfl, hlength, hds⟩ := readDigits_eq_some.mp hdigits
        obtain ⟨hvalid, hu⟩ := Option.ite_none_right_eq_some.mp hu
        cases hu
        refine ⟨92 :: c :: ds, rfl, .unicode ?_ hlength hds hvalid⟩
        rcases hc with rfl | rfl <;> decide
      · split at h
        · obtain ⟨⟨n, left⟩, hdigits, hu⟩ := Option.bind_eq_some_iff.mp h
          obtain ⟨ds, heq, hlength, hds⟩ := readDigits_eq_some.mp hdigits
          obtain ⟨hle, hu⟩ := Option.ite_none_right_eq_some.mp hu
          cases hu
          exact ⟨92 :: ds, congrArg _ heq, .octal hlength hds hle⟩
        · obtain ⟨hc, hu⟩ := Option.ite_none_right_eq_some.mp h
          cases hu
          refine ⟨[92, c], rfl, .itself ?_⟩
          exact hc.imp_right And.right

/-- What is read is a character or an escape sequence. -/
theorem denotes_of_unescape? {bs : Bytes} {u : Unescaped} (h : unescape? 39 bs = some u) :
    ∃ piece, bs = piece ++ u.rest ∧ Denotes piece u.rest u.value := by
  cases bs with
  | nil => cases h
  | cons b rest =>
    by_cases hb : b = 92
    · subst hb
      cases rest with
      | nil => cases h
      | cons c rest => exact denotes_of_escape h
    · exact denotes_of_byte hb h

theorem octal_of_digit {b : UInt8} {d : Nat} (h : hexValue? b = some d) (hd : d < 8) :
    0x30 ≤ b ∧ b ≤ 0x37 := by
  unfold hexValue? at h
  split at h
  next hb =>
    cases h
    refine ⟨hb.1, UInt8.le_iff_toNat_le.mpr ?_⟩
    have hlow : 48 ≤ b.toNat := UInt8.le_iff_toNat_le.mp hb.1
    change b.toNat ≤ 55
    omega
  · split at h
    next hb =>
      cases h
      have hlow : 97 ≤ b.toNat := UInt8.le_iff_toNat_le.mp hb.1
      omega
    · obtain ⟨hb, heq⟩ := Option.ite_none_right_eq_some.mp h
      cases heq
      have hlow : 65 ≤ b.toNat := UInt8.le_iff_toNat_le.mp hb.1
      omega

theorem find?_controlLetters {b : UInt8} (h : b.toNat ≤ 55) :
    controlLetters.find? (fun l => l.2.toNat = b.toNat) = none := by
  rw [List.find?_eq_none]
  simp only [controlLetters, List.forall_mem_cons, decide_eq_true_eq, Char.reduceToNat,
    List.not_mem_nil, false_implies, implies_true, and_true]
  omega

/-- A character or an escape sequence is read, whatever follows it. -/
theorem unescape?_of_denotes {piece left : Bytes} {v : Char} (h : Denotes piece left v) :
    ∃ wide, unescape? 39 (piece ++ left) = some ⟨v, wide, left⟩ := by
  cases h with
  | @ascii b _ hlt hquote hback =>
    refine ⟨false, ?_⟩
    rw [List.singleton_append, unescape?_byte hback, if_neg hquote, if_pos hlt]
  | wide hle =>
    obtain ⟨b, more, hencode, hdecode⟩ := Utf8.decode?_encode v
    have hb : 0x80 ≤ b.toNat := Utf8.le_of_mem_encode hle (hencode ▸ List.mem_cons_self)
    refine ⟨true, ?_⟩
    rw [hencode, List.cons_append, unescape?_of_le hb, hdecode]
    dsimp only
    rw [List.drop_left]
  | malformed hle hnone =>
    refine ⟨true, ?_⟩
    rw [List.singleton_append, unescape?_of_le hle, decode?_eq_none_iff.mpr hnone]
  | control hletter =>
    simp only [controlLetters, List.mem_cons, Prod.mk.injEq, List.not_mem_nil, or_false] at hletter
    refine ⟨false, ?_⟩
    rcases hletter with ⟨rfl, rfl⟩ | ⟨rfl, rfl⟩ | ⟨rfl, rfl⟩ | ⟨rfl, rfl⟩ | ⟨rfl, rfl⟩ | ⟨rfl, rfl⟩ |
      ⟨rfl, rfl⟩ <;> rfl
  | itself hc =>
    refine ⟨false, ?_⟩
    rcases hc with rfl | rfl <;> rfl
  | @byte ds _ _ hlength hds =>
    have hdigits : readDigits 4 (ds ++ left) 2 = _ := readDigits_eq_some.mpr ⟨ds, rfl, hlength, hds⟩
    exact ⟨false, Option.bind_eq_some_iff.mpr ⟨_, hdigits, rfl⟩⟩
  | @unicode letter width _ ds _ hletter hlength hds hvalid =>
    have hdigits : readDigits 4 (ds ++ left) width = _ :=
      readDigits_eq_some.mpr ⟨ds, rfl, hlength, hds⟩
    simp only [List.mem_cons, Prod.mk.injEq, List.not_mem_nil, or_false] at hletter
    refine ⟨true, ?_⟩
    rcases hletter with ⟨rfl, rfl⟩ | ⟨rfl, rfl⟩ <;>
      exact Option.bind_eq_some_iff.mpr ⟨_, hdigits, if_pos hvalid⟩
  | @octal ds _ _ hlength hds hle =>
    have hdigits : readDigits 3 (ds ++ left) 3 = _ := readDigits_eq_some.mpr ⟨ds, rfl, hlength, hds⟩
    refine ⟨false, ?_⟩
    cases hds with
    | nil => cases hlength
    | @cons b ds _ d _ hb hd hmore =>
      have hrange := octal_of_digit hb hd
      have hhigh : b.toNat ≤ 55 := UInt8.le_iff_toNat_le.mp hrange.2
      have hne : ∀ c : UInt8, 55 < c.toNat → b ≠ c := by
        rintro c hc rfl
        omega
      -- an octal digit comes before all letters, so that no other escape begins with it
      rw [List.cons_append, List.cons_append, unescape?, find?_controlLetters hhigh]
      dsimp only
      rw [if_neg (hne _ (by decide)), if_neg, if_pos hrange]
      · exact Option.bind_eq_some_iff.mpr ⟨_, hdigits, if_pos hle⟩
      · exact not_or.mpr ⟨hne _ (by decide), hne _ (by decide)⟩

theorem Denotes.ne_nil {piece left : Bytes} {v : Char} (h : Denotes piece left v) : piece ≠ [] := by
  rintro rfl
  generalize hnil : ([] : Bytes) = piece at h
  cases h with
  | wide =>
    obtain ⟨b, more, hencode, -⟩ := Utf8.decode?_encode v
    cases hnil.trans hencode
  | _ => cases hnil

/-! ### Where a literal ends -/

inductive Between : Bytes → Prop
  | nil : Between []
  | plain {b : UInt8} {bs : Bytes} : Unquoted 39 b → Between bs → Between (b :: bs)
  | escaped {b : UInt8} {bs : Bytes} : Between bs → Between (92 :: b :: bs)

/-- Where a literal ends: with its quote, before a newline, or where the text does, be it right after a
backslash. -/
inductive Closes : Bytes → Bytes → Prop
  | quote {body after : Bytes} : Between body → Closes (body ++ [39]) after
  | newline {body after : Bytes} : Between body → Closes body (10 :: after)
  | text {body : Bytes} : Between body → Closes body []
  | backslash {body : Bytes} : Between body → Closes (body ++ [92]) []

theorem Between.of_forall {bs : Bytes} (h : ∀ b ∈ bs, Unquoted 39 b) : Between bs := by
  induction bs with
  | nil => exact .nil
  | cons b bs ih =>
    rw [List.forall_mem_cons] at h
    exact .plain h.1 (ih h.2)

theorem Positional.unquoted {base m n : Nat} {ds : Bytes} (h : Positional base m ds n) :
    ∀ b ∈ ds, Unquoted 39 b := by
  induction h with
  | nil => exact fun b hb => absurd hb List.not_mem_nil
  | cons hb _ _ ih =>
    rw [List.forall_mem_cons]
    refine ⟨⟨?_, ?_, ?_⟩, ih⟩ <;>
      · rintro rfl
        cases hb

/-- A literal goes on over what is read from it. -/
theorem Between.of_denotes {piece left more : Bytes} {v : Char} (h : Denotes piece left v)
    (hmore : Between (piece ++ more)) : Between piece := by
  cases h with
  | ascii _ _ hback =>
    cases hmore with
    | plain hb _ => exact .plain hb .nil
    | escaped => exact absurd rfl hback
  | wide hle => exact .of_forall fun b hb => unquoted_of_le (Utf8.le_of_mem_encode hle hb)
  | malformed hle => exact .plain (unquoted_of_le hle) .nil
  | control => exact .escaped .nil
  | itself => exact .escaped .nil
  | byte _ hds => exact .escaped (.of_forall hds.unquoted)
  | unicode _ _ hds => exact .escaped (.of_forall hds.unquoted)
  | octal hlength hds =>
    cases hds with
    | nil => cases hlength
    | cons _ _ hmore => exact .escaped (.of_forall hmore.unquoted)

theorem Between.append {front body : Bytes} (h : Between front) (hbody : Between body) :
    Between (front ++ body) := by
  induction h with
  | nil => exact hbody
  | plain hb _ ih => exact .plain hb ih
  | escaped _ ih => exact .escaped ih

theorem Closes.append {front taken after : Bytes} (h : Closes taken after) (hfront : Between front) :
    Closes (front ++ taken) after := by
  cases h with
  | quote hbody =>
    rw [← List.append_assoc]
    exact .quote (hfront.append hbody)
  | newline hbody => exact .newline (hfront.append hbody)
  | text hbody => exact .text (hfront.append hbody)
  | backslash hbody =>
    rw [← List.append_assoc]
    exact .backslash (hfront.append hbody)

section
open Lexeme

theorem quotedLength_between {body : Bytes} (h : Between body) (more : Bytes) :
    quotedLength 39 (body ++ more) = quotedLength 39 more + body.length := by
  induction h with
  | nil => rfl
  | plain hb _ ih =>
    rw [List.cons_append, quotedLength_cons hb, ih, List.length_cons, Nat.add_assoc]
  | escaped _ ih =>
    rw [List.cons_append, List.cons_append, quotedLength, ih]
    rfl

theorem Closes.quotedLength_eq {taken after : Bytes} (h : Closes taken after) :
    quotedLength 39 (taken ++ after) = taken.length := by
  cases h with
  | quote hbody =>
    rw [List.append_assoc, quotedLength_between hbody, List.length_append, Nat.add_comm]
    rfl
  | newline hbody =>
    rw [quotedLength_between hbody]
    exact Nat.zero_add _
  | text hbody =>
    rw [quotedLength_between hbody]
    exact Nat.zero_add _
  | backslash hbody =>
    rw [List.append_assoc, quotedLength_between hbody, List.length_append, Nat.add_comm]
    rfl

theorem closes_quotedLength (bs : Bytes) :
    Closes (bs.take (quotedLength 39 bs)) (bs.drop (quotedLength 39 bs)) := by
  fun_induction quotedLength 39 bs with
  | case1 => exact .text .nil
  | case2 b rest ih => exact ih.append (.escaped .nil)
  | case3 rest => exact .quote .nil
  | case4 rest => exact .newline .nil
  | case5 b rest hback hquote hnewline ih =>
    by_cases hb : b = 92
    · subst hb
      cases rest with
      | nil => exact .backslash .nil
      | cons c rest => exact absurd rfl (hback c rest rfl)
    · exact ih.append (.plain ⟨hquote, hnewline, hb⟩ .nil)

end

end RegisterLang.Text

namespace RegisterLang.Lexeme
open Text

theorem charToken_eq_char {taken : Bytes} {v : Char} : charToken (39 :: taken) = .char v ↔
    ∃ piece left, taken = piece ++ left ++ [39] ∧ Denotes piece left v := by
  constructor
  · intro h
    unfold charToken at h
    split at h
    · cases h
    next hshape =>
      obtain ⟨hlength, hlast⟩ := not_or.mp hshape
      have hne : taken ≠ [] := by
        rintro rfl
        exact hlength (by decide)
      have htaken : taken = taken.dropLast ++ [39] := by
        rw [Classical.not_not, List.getLast?_cons_of_ne_nil hne] at hlast
        exact (List.dropLast_append_getLast? _ hlast).symm
      split at h
      next u hu =>
        cases h
        obtain ⟨piece, hpiece, hdenotes⟩ := denotes_of_unescape? hu
        refine ⟨piece, u.rest, ?_, hdenotes⟩
        rw [← hpiece]
        exact htaken
      · cases h
  · rintro ⟨piece, left, rfl, hdenotes⟩
    obtain ⟨wide, hread⟩ := unescape?_of_denotes hdenotes
    have hpos := List.length_pos_iff.mpr hdenotes.ne_nil
    rw [charToken, if_neg]
    · rw [List.drop_succ_cons, List.drop_zero, List.dropLast_concat, hread]
    · rw [← List.cons_append, List.getLast?_concat, List.length_append, List.length_cons,
        List.length_append, List.length_singleton]
      simp
      omega

theorem read_eq_char {b : UInt8} {rest : Bytes} {v : Char} : (read b rest).1 = .char v ↔
    b = 39 ∧ charToken (39 :: rest.take (quotedLength 39 rest)) = .char v := by
  have hquote : (read 39 rest).1 = charToken (39 :: rest.take (quotedLength 39 rest)) := by
    rw [read_of_quote (.inr rfl)]
    rfl
  constructor
  · intro h
    have hb : b = 39 := by
      rcases read_cases b rest with ⟨_, hread⟩ | ⟨_, hread⟩ | ⟨hb, _⟩ | ⟨_, hread⟩ | ⟨_, hread⟩ |
        ⟨_, hread⟩
      case inr.inr.inl => exact hb
      case inr.inr.inr.inl =>
        rcases word_cases (Bytes.toText (b :: rest.takeWhile isIdentByte)) with ⟨k, hk⟩ | hname
        · cases (hread.trans hk).symm.trans h
        · cases (hread.trans hname).symm.trans h
      all_goals cases hread.symm.trans h
    subst hb
    exact ⟨rfl, hquote.symm.trans h⟩
  · rintro ⟨rfl, h⟩
    exact hquote.trans h

/-- A character `v` that is read between two offsets: the bytes between the quotes begin with one that
denotes it, and `left` are the others. -/
structure ReadBetween (text : Bytes) (i e : Nat) (v : Char) (piece left : Bytes) : Prop where
  slice : slice? text i e = some (39 :: (piece ++ left ++ [39]))
  denotes : Denotes piece left v
  stops : Closes (piece ++ left ++ [39]) (text.drop e)

/-- A literal between two offsets that is one character or one escape sequence between two quotes, the
second of which is not escaped. -/
def Whole (text : Bytes) (i e : Nat) (v : Char) : Prop :=
  ∃ piece, slice? text i e = some (39 :: (piece ++ [39])) ∧ Between piece ∧ Denotes piece [] v

variable {text : Bytes} {v : Char}

theorem slice?_eq_some {i e : Nat} {part : Bytes} (h : slice? text i e = some part) :
    text.drop i = part ++ text.drop e ∧ i + part.length = e := by
  unfold slice? at h
  obtain ⟨⟨hle, hlength⟩, hpart⟩ := Option.ite_none_right_eq_some.mp h
  obtain ⟨n, rfl⟩ := Nat.exists_eq_add_of_le hle
  rw [Nat.add_sub_cancel_left] at hpart
  cases hpart
  rw [← List.drop_drop, List.take_append_drop, List.length_take_of_le]
  · exact ⟨rfl, rfl⟩
  · rw [List.length_drop]
    omega

/-- Where a character is read. -/
theorem read_char_iff {i e : Nat} {b : UInt8} {rest : Bytes} (hrest : text.drop i = b :: rest) :
    (read b rest).1 = .char v ∧ i + (read b rest).2 + 1 = e ↔
      ∃ piece left, ReadBetween text i e v piece left := by
  rw [read_eq_char, charToken_eq_char]
  constructor
  · rintro ⟨⟨rfl, piece, left, htake, hdenotes⟩, rfl⟩
    refine ⟨piece, left, ?_, hdenotes, ?_⟩
    · rw [slice?_of_drop hrest (read_le _ _), read_of_quote (.inr rfl), htake]
    · rw [drop_add_of_drop hrest, read_of_quote (.inr rfl), ← htake]
      exact closes_quotedLength rest
  · rintro ⟨piece, left, hslice, hdenotes, hstops⟩
    obtain ⟨hdrop, hstop⟩ := slice?_eq_some hslice
    obtain ⟨rfl, htaken⟩ := List.cons.inj (hrest.symm.trans hdrop)
    change rest = (piece ++ left ++ [39]) ++ text.drop e at htaken
    rw [read_of_quote (.inr rfl), htaken, hstops.quotedLength_eq, List.take_left]
    refine ⟨⟨rfl, piece, left, rfl, hdenotes⟩, ?_⟩
    rw [← hstop, List.length_cons, Nat.add_assoc]

theorem drop_ne_nil_of_readBetween {i e : Nat} {piece left : Bytes}
    (h : ReadBetween text i e v piece left) : text.drop i ≠ [] := by
  rw [(slice?_eq_some h.slice).1]
  exact List.cons_ne_nil _ _

/-- The next token is a character exactly where one is read after the blanks. -/
theorem next_char_iff {st i e : Nat} : (next st (text.drop st)).1 = ⟨.char v, i, e⟩ ↔
    (skip false st (text.drop st)).1 = i ∧ ∃ piece left, ReadBetween text i e v piece left := by
  have hnone : ∀ {j}, text.drop j = [] →
      ((⟨.eof, j, j⟩ : Lexeme) = ⟨.char v, i, e⟩ ↔
        j = i ∧ ∃ piece left, ReadBetween text i e v piece left) := by
    intro j hj
    constructor
    · rintro ⟨⟩
    · rintro ⟨rfl, piece, left, hread⟩
      exact absurd hj (drop_ne_nil_of_readBetween hread)
  by_cases hst : st ≤ text.length
  · obtain ⟨n, hn, hskip, ⟨hend, heq⟩ | ⟨b, rest, hrest, heq⟩⟩ := next_cases hst
    · rw [hskip, heq]
      exact hnone (List.drop_eq_nil_of_le (Nat.le_of_eq hend.symm))
    · rw [hskip, heq, Lexeme.mk.injEq]
      constructor
      · rintro ⟨htoken, rfl, hstop⟩
        exact ⟨rfl, (read_char_iff hrest).mp ⟨htoken, hstop⟩⟩
      · rintro ⟨rfl, hread⟩
        obtain ⟨htoken, hstop⟩ := (read_char_iff hrest).mpr hread
        exact ⟨htoken, rfl, hstop⟩
  · have hnil : text.drop st = [] := List.drop_eq_nil_of_le (Nat.le_of_not_le hst)
    rw [hnil]
    exact hnone hnil

/-- A literal is read whole if nothing of it is left over. -/
theorem whole_iff {i e : Nat} {piece left : Bytes} (h : ReadBetween text i e v piece left) :
    Whole text i e v ↔ left = [] := by
  obtain ⟨hslice, hdenotes, hstops⟩ := h
  constructor
  · rintro ⟨piece', hslice', -, hdenotes'⟩
    have hpiece : piece' ++ [39] = piece ++ left ++ [39] :=
      List.tail_eq_of_cons_eq (Option.some.inj (hslice'.symm.trans hslice))
    -- both begin the same bytes, and what is read from these leaves the same
    obtain ⟨wide, hread⟩ := unescape?_of_denotes hdenotes
    obtain ⟨wide', hread'⟩ := unescape?_of_denotes hdenotes'
    rw [List.append_nil, List.append_cancel_right hpiece, hread] at hread'
    exact congrArg Unescaped.rest (Option.some.inj hread')
  · rintro rfl
    rw [List.append_nil] at hslice hstops
    refine ⟨piece, hslice, ?_, hdenotes⟩
    generalize htaken : piece ++ [39] = taken, text.drop e = after at hstops
    cases hstops with
    | quote hbody =>
      rw [List.append_cancel_right htaken]
      exact hbody
    | newline hbody => exact .of_denotes hdenotes (htaken ▸ hbody)
    | text hbody => exact .of_denotes hdenotes (htaken ▸ hbody)
    | backslash => cases (List.append_inj' htaken rfl).2

/-- A character is read from where a quote starts a literal, whatever stands between the first character
or escape sequence in it and the quote that ends its bytes. The literal is read whole exactly if nothing
does. -/
theorem next_char_reads_first (text : Bytes) (st i e : Nat) (v : Char) :
    ((next st (text.drop st)).1 = ⟨.char v, i, e⟩ ↔
      (skip false st (text.drop st)).1 = i ∧ ∃ piece left, ReadBetween text i e v piece left) ∧
    ∀ piece left, ReadBetween text i e v piece left → (Whole text i e v ↔ left = []) :=
  ⟨next_char_iff, fun _ _ => whole_iff⟩

/-- A quote that is escaped between quotes, after a blank. -/
theorem next_char_reads_first_quote :
    (next 0 [32, 39, 92, 39, 39, 59]).1 = ⟨.char '\'', 1, 5⟩ ∧
      Whole [32, 39, 92, 39, 39, 59] 1 5 '\'' := by
  have hread : ReadBetween [32, 39, 92, 39, 39, 59] 1 5 '\'' [92, 39] [] :=
    ⟨rfl, .itself (.inr rfl), .quote (.escaped .nil)⟩
  obtain ⟨hnext, hwhole⟩ := next_char_reads_first [32, 39, 92, 39, 39, 59] 0 1 5 '\''
  exact ⟨hnext.mpr ⟨rfl, _, _, hread⟩, (hwhole _ _ hread).mpr rfl⟩

/-- Two characters between quotes, and a literal that a newline ends after an escaped quote: of both the
first character is read, and neither is one character between quotes. -/
theorem next_char_not_whole :
    ((next 0 [39, 97, 98, 39]).1 = ⟨.char 'a', 0, 4⟩ ∧ ¬ Whole [39, 97, 98, 39] 0 4 'a') ∧
      (next 0 [39, 97, 92, 39, 10]).1 = ⟨.char 'a', 0, 4⟩ ∧ ¬ Between [97, 92] ∧
      ¬ Whole [39, 97, 92, 39, 10] 0 4 'a' := by
  have ha : Unquoted 39 97 := ⟨by decide, by decide, by decide⟩
  have hb : Unquoted 39 98 := ⟨by decide, by decide, by decide⟩
  have hletters : ReadBetween [39, 97, 98, 39] 0 4 'a' [97] [98] :=
    ⟨rfl, .ascii (by decide) (by decide) (by decide), .quote (.plain ha (.plain hb .nil))⟩
  have hescaped : ReadBetween [39, 97, 92, 39, 10] 0 4 'a' [97] [92] :=
    ⟨rfl, .ascii (by decide) (by decide) (by decide), .newline (.plain ha (.escaped .nil))⟩
  refine ⟨⟨next_char_iff.mpr ⟨rfl, _, _, hletters⟩, ?_⟩, next_char_iff.mpr ⟨rfl, _, _, hescaped⟩,
    ?_, ?_⟩
  · rw [whole_iff hletters]
    exact List.cons_ne_nil _ _
  · rintro (_ | ⟨_, _ | ⟨hb, _⟩⟩)
    exact hb.2.2 rfl
  · rw [whole_iff hescaped]
    exact List.cons_ne_nil _ _

end RegisterLang.Lexeme
