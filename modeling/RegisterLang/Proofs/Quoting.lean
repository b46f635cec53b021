import Mathlib.Tactic.Ring
import RegisterLang.Token

/-!
# Quoted text read back

What stands between quotes spells what was quoted: a character that is written by its bytes or by an
escape is read as that character, and the end of the quoted text is found where it was written.
-/
namespace RegisterLang.Text

namespace Bytes

theorem toList_loop {bs : ByteArray} {n i : Nat} (h : i + n = bs.size) (done : Bytes) :
    ByteArray.toList.loop bs i done = done.reverse ++ bs.data.toList.drop i := by
  induction n generalizing i done with
  | zero =>
    rw [ByteArray.toList.loop, if_neg (by omega), List.drop_of_length_le, List.append_nil]
    simp only [Array.length_toList, ByteArray.size_data]
    omega
  | succ n ih =>
    have hi : i < bs.data.toList.length := by
      simp only [Array.length_toList, ByteArray.size_data]
      omega
    have hget : bs.get! i = bs.data.toList[i] := getElem!_pos bs.data i hi
    rw [ByteArray.toList.loop, if_pos (by omega), ih (by omega), List.drop_eq_getElem_cons hi, hget]
    simp

theorem ofString_eq (s : String) : ofString s = s.toList.flatMap String.utf8EncodeChar := by
  have hs : s.toByteArray = s.toList.utf8Encode := by
    rw [← String.toByteArray_ofList, String.ofList_toList]
  rw [ofString, String.toUTF8_eq_toByteArray, ByteArray.toList, toList_loop (Nat.zero_add _), hs]
  simp [List.utf8Encode]

@[simp]
theorem ofString_append (s t : String) : ofString (s ++ t) = ofString s ++ ofString t := by
  simp [ofString_eq]

end Bytes

namespace Utf8

theorem toNat_ofNat {n : Nat} (h : n < 256) : (UInt8.ofNat n).toNat = n := by
  rw [UInt8.toNat_ofNat', Nat.mod_eq_of_lt h]

theorem tail?_eq_some {b : UInt8} {x : Nat} : tail? b = some x ↔ x < 0x40 ∧ b.toNat = x + 0x80 := by
  change (if 0x80 ≤ b.toNat ∧ b.toNat ≤ 0xBF then some (b.toNat - 0x80) else none) = some x ↔ _
  split
  · rw [Option.some.injEq]
    omega
  · simp only [reduceCtorEq, false_iff]
    omega

/-- The bytes of a character by its code point. -/
theorem encode_eq (c : Char) : String.utf8EncodeChar c =
    if c.toNat ≤ 0x7f then [UInt8.ofNat c.toNat]
    else if c.toNat ≤ 0x7ff then
      [UInt8.ofNat (c.toNat / 64 % 0x20 + 0xc0), UInt8.ofNat (c.toNat % 0x40 + 0x80)]
    else if c.toNat ≤ 0xffff then
      [UInt8.ofNat (c.toNat / 4096 % 0x10 + 0xe0), UInt8.ofNat (c.toNat / 64 % 0x40 + 0x80),
        UInt8.ofNat (c.toNat % 0x40 + 0x80)]
    else
      [UInt8.ofNat (c.toNat / 262144 % 0x08 + 0xf0), UInt8.ofNat (c.toNat / 4096 % 0x40 + 0x80),
        UInt8.ofNat (c.toNat / 64 % 0x40 + 0x80), UInt8.ofNat (c.toNat % 0x40 + 0x80)] := rfl

/-- Decoding by the values of the bytes. -/
theorem decode?_eq (b : UInt8) (rest : Bytes) : decode? b rest =
    if b.toNat < 0x80 then some (Char.ofNat b.toNat, 0)
    else if 0xC2 ≤ b.toNat ∧ b.toNat ≤ 0xDF then do
      let x ← rest[0]? >>= tail?
      some (Char.ofNat ((b.toNat - 0xC0) * 0x40 + x), 1)
    else if 0xE0 ≤ b.toNat ∧ b.toNat ≤ 0xEF then do
      let x ← rest[0]? >>= tail?
      let y ← rest[1]? >>= tail?
      let c := ((b.toNat - 0xE0) * 0x40 + x) * 0x40 + y
      if c < 0x800 ∨ (0xD800 ≤ c ∧ c ≤ 0xDFFF) then none else some (Char.ofNat c, 2)
    else if 0xF0 ≤ b.toNat ∧ b.toNat ≤ 0xF4 then do
      let x ← rest[0]? >>= tail?
      let y ← rest[1]? >>= tail?
      let z ← rest[2]? >>= tail?
      let c := (((b.toNat - 0xF0) * 0x40 + x) * 0x40 + y) * 0x40 + z
      if c < 0x10000 ∨ 0x10FFFF < c then none else some (Char.ofNat c, 3)
    else none := rfl

theorem toNat_lt (c : Char) : c.toNat < 0xD800 ∨ 0xDFFF < c.toNat ∧ c.toNat < 0x110000 := c.valid

theorem decode?_encode (c : Char) : ∃ b more, String.utf8EncodeChar c = b :: more ∧
    ∀ rest, decode? b (more ++ rest) = some (c, more.length) := by
  have hvalid := toNat_lt c
  have hc := Char.ofNat_toNat c
  have htail : ∀ {x}, x < 0x40 → tail? (UInt8.ofNat (x + 0x80)) = some x := fun h =>
    tail?_eq_some.mpr ⟨h, toNat_ofNat (by omega)⟩
  rw [encode_eq]
  generalize c.toNat = v at hvalid hc
  split
  · refine ⟨_, _, rfl, fun rest => ?_⟩
    rw [decode?_eq, toNat_ofNat (by omega), if_pos (by omega), hc]
    rfl
  · split
    · refine ⟨_, _, rfl, fun rest => ?_⟩
      have hx : v / 64 % 0x20 < 0x20 := Nat.mod_lt _ (by omega)
      have hy : v % 0x40 < 0x40 := Nat.mod_lt _ (by omega)
      rw [decode?_eq, toNat_ofNat (by omega), if_neg (by omega), if_pos (by omega)]
      simp only [List.cons_append, List.getElem?_cons_zero, Option.bind_eq_bind, Option.bind_some,
        htail hy, List.length_singleton]
      rw [show (v / 64 % 0x20 + 0xc0 - 0xC0) * 0x40 + v % 0x40 = v by omega, hc]
    · split
      · refine ⟨_, _, rfl, fun rest => ?_⟩
        have hx : v / 4096 % 0x10 < 0x10 := Nat.mod_lt _ (by omega)
        have hy : v / 64 % 0x40 < 0x40 := Nat.mod_lt _ (by omega)
        have hz : v % 0x40 < 0x40 := Nat.mod_lt _ (by omega)
        rw [decode?_eq, toNat_ofNat (by omega), if_neg (by omega), if_neg (by omega),
          if_pos (by omega)]
        simp only [List.cons_append, List.getElem?_cons_zero, List.getElem?_cons_succ,
          Option.bind_eq_bind, Option.bind_some, htail hy, htail hz, List.length_cons,
          List.length_nil]
        rw [show ((v / 4096 % 0x10 + 0xe0 - 0xE0) * 0x40 + v / 64 % 0x40) * 0x40 + v % 0x40 = v by
          omega, hc, if_neg (by omega)]
      · refine ⟨_, _, rfl, fun rest => ?_⟩
        have hx : v / 262144 % 0x08 < 0x08 := Nat.mod_lt _ (by omega)
        have hy : v / 4096 % 0x40 < 0x40 := Nat.mod_lt _ (by omega)
        have hz : v / 64 % 0x40 < 0x40 := Nat.mod_lt _ (by omega)
        have hw : v % 0x40 < 0x40 := Nat.mod_lt _ (by omega)
        rw [decode?_eq, toNat_ofNat (by omega), if_neg (by omega), if_neg (by omega),
          if_neg (by omega), if_pos (by omega)]
        simp only [List.cons_append, List.getElem?_cons_zero, List.getElem?_cons_succ,
          Option.bind_eq_bind, Option.bind_some, htail hy, htail hz, htail hw, List.length_cons,
          List.length_nil]
        rw [show (((v / 262144 % 0x08 + 0xf0 - 0xF0) * 0x40 + v / 4096 % 0x40) * 0x40 +
          v / 64 % 0x40) * 0x40 + v % 0x40 = v by omega, hc, if_neg (by omega)]

theorem toNat_ofNat_of_valid {v : Nat} (h : v < 0xD800 ∨ 0xDFFF < v ∧ v < 0x110000) :
    (Char.ofNat v).toNat = v := by
  rw [Char.ofNat, dif_pos h]
  rfl

theorem ofNat_eq {b : UInt8} {n : Nat} (h : n = b.toNat) : UInt8.ofNat n = b := by
  rw [h, UInt8.ofNat_toNat]

/-- A character that was decoded is encoded by the bytes it came from. -/
theorem encode_of_decode? {b : UInt8} {rest : Bytes} {c : Char} {n : Nat}
    (h : decode? b rest = some (c, n)) : String.utf8EncodeChar c = b :: rest.take n := by
  rw [decode?_eq] at h
  split at h
  next hb =>
    obtain ⟨rfl, rfl⟩ := Prod.mk.inj (Option.some.inj h)
    rw [encode_eq, toNat_ofNat_of_valid (by omega), if_pos (by omega), UInt8.ofNat_toNat]
    rfl
  · split at h
    next hb =>
      simp only [Option.bind_eq_bind, Option.bind_eq_some_iff, tail?_eq_some, Option.some.injEq,
        Prod.mk.injEq] at h
      obtain ⟨x, ⟨b₁, h₁, hx, hx'⟩, rfl, rfl⟩ := h
      rw [encode_eq, toNat_ofNat_of_valid (by omega), if_neg (by omega), if_pos (by omega),
        ofNat_eq (by omega : _ = b.toNat), ofNat_eq (by omega : _ = b₁.toNat)]
      simp [List.take_add_one, h₁]
    · split at h
      next hb =>
        simp only [Option.bind_eq_bind, Option.bind_eq_some_iff, tail?_eq_some,
          Option.ite_none_left_eq_some, Option.some.injEq, Prod.mk.injEq] at h
        obtain ⟨x, ⟨b₁, h₁, hx, hx'⟩, y, ⟨b₂, h₂, hy, hy'⟩, hv, rfl, rfl⟩ := h
        rw [encode_eq, toNat_ofNat_of_valid (by omega), if_neg (by omega), if_neg (by omega),
          if_pos (by omega), ofNat_eq (by omega : _ = b.toNat), ofNat_eq (by omega : _ = b₁.toNat),
          ofNat_eq (by omega : _ = b₂.toNat)]
        simp [List.take_add_one, h₁, h₂]
      · obtain ⟨hb, h⟩ := Option.ite_none_right_eq_some.mp h
        simp only [Option.bind_eq_bind, Option.bind_eq_some_iff, tail?_eq_some,
          Option.ite_none_left_eq_some, Option.some.injEq, Prod.mk.injEq] at h
        obtain ⟨x, ⟨b₁, h₁, hx, hx'⟩, y, ⟨b₂, h₂, hy, hy'⟩, z, ⟨b₃, h₃, hz, hz'⟩, hv, rfl, rfl⟩ := h
        rw [encode_eq, toNat_ofNat_of_valid (by omega), if_neg (by omega), if_neg (by omega),
          if_neg (by omega), ofNat_eq (by omega : _ = b.toNat), ofNat_eq (by omega : _ = b₁.toNat),
          ofNat_eq (by omega : _ = b₂.toNat), ofNat_eq (by omega : _ = b₃.toNat)]
        simp [List.take_add_one, h₁, h₂, h₃]

theorem encode_of_lt {c : Char} (h : c.toNat < 0x80) :
    String.utf8EncodeChar c = [UInt8.ofNat c.toNat] := by
  rw [encode_eq, if_pos (by omega)]

/-- The bytes of a character beyond the first 128 lie beyond them too. -/
theorem le_of_mem_encode {c : Char} (h : 0x80 ≤ c.toNat) {b : UInt8}
    (hb : b ∈ String.utf8EncodeChar c) : 0x80 ≤ b.toNat := by
  have hlt := toNat_lt c
  have hle : ∀ {n}, 0x80 ≤ n → n < 256 → 0x80 ≤ (UInt8.ofNat n).toNat := by
    intro n hn hn'
    rwa [toNat_ofNat hn']
  rw [encode_eq, if_neg (by omega)] at hb
  split at hb
  · simp only [List.mem_cons, List.not_mem_nil, or_false] at hb
    rcases hb with rfl | rfl <;> exact hle (by omega) (by omega)
  · split at hb
    · simp only [List.mem_cons, List.not_mem_nil, or_false] at hb
      rcases hb with rfl | rfl | rfl <;> exact hle (by omega) (by omega)
    · simp only [List.mem_cons, List.not_mem_nil, or_false] at hb
      rcases hb with rfl | rfl | rfl | rfl <;> exact hle (by omega) (by omega)

end Utf8

section
open Lexeme

/-- A byte that stands for itself between quotes. -/
def Unquoted (q b : UInt8) : Prop := b ≠ q ∧ b ≠ 10 ∧ b ≠ 92

theorem quotedLength_cons {q b : UInt8} (h : Unquoted q b) (rest : Bytes) :
    quotedLength q (b :: rest) = quotedLength q rest + 1 := by
  obtain ⟨hq, hnewline, hbackslash⟩ := h
  rw [quotedLength, if_neg hq, if_neg hnewline]
  rintro _ _ rfl
  exact absurd rfl hbackslash

theorem quotedLength_append {q : UInt8} {bs : Bytes} (h : ∀ b ∈ bs, Unquoted q b) (rest : Bytes) :
    quotedLength q (bs ++ rest) = quotedLength q rest + bs.length := by
  induction bs with
  | nil => rfl
  | cons b bs ih =>
    rw [List.forall_mem_cons] at h
    rw [List.cons_append, quotedLength_cons h.1, ih h.2, List.length_cons]
    omega

structure Escape (q : UInt8) (piece : Bytes) (u : Char) (wide : Bool) : Prop where
  head : ∃ b more, piece = b :: more ∧ b ≠ q ∧ b ≠ 10
  read : ∀ rest, unescape? q (piece ++ rest) = some ⟨u, wide, rest⟩
  length : ∀ rest, quotedLength q (piece ++ rest) = quotedLength q rest + piece.length

/-- A piece that begins with a backslash. -/
theorem Escape.ofBackslash {q b : UInt8} {more : Bytes} {u : Char} {wide : Bool} (hq : q ≠ 92)
    (hmore : ∀ c ∈ more, Unquoted q c)
    (hread : ∀ rest, unescape? q (92 :: b :: (more ++ rest)) = some ⟨u, wide, rest⟩) :
    Escape q (92 :: b :: more) u wide where
  head := ⟨92, b :: more, rfl, hq.symm, by decide⟩
  read := hread
  length rest := by
    rw [List.cons_append, List.cons_append, quotedLength, quotedLength_append hmore]
    simp only [List.length_cons]
    omega

theorem unescape?_ascii {q b : UInt8} (h : Unquoted q b) (hb : b.toNat < 0x80) (rest : Bytes) :
    unescape? q (b :: rest) = some ⟨Char.ofNat b.toNat, false, rest⟩ := by
  rw [unescape?, if_neg (by simp [h.1, h.2.2]), if_pos (by exact hb)]
  rintro _ _ rfl
  exact absurd rfl h.2.2

theorem unescape?_high {q b : UInt8} (h : Unquoted q b) (hb : 0x80 ≤ b.toNat) {rest : Bytes}
    {c : Char} {n : Nat} (hdecode : Utf8.decode? b rest = some (c, n)) :
    unescape? q (b :: rest) = some ⟨c, true, rest.drop n⟩ := by
  rw [unescape?, if_neg (by simp [h.1, h.2.2]), if_neg (by exact Nat.not_lt.mpr hb), hdecode]
  rintro _ _ rfl
  exact absurd rfl h.2.2

theorem hexFixed_succ (w n : Nat) :
    Bytes.ofString (hexFixed (w + 1) n) =
      String.utf8EncodeChar (hexDigit (n / 16 ^ w % 16)) ++ Bytes.ofString (hexFixed w n) := by
  rw [Bytes.ofString_eq, Bytes.ofString_eq, hexFixed, hexFixed, String.toList_ofList,
    String.toList_ofList, List.range_succ_eq_map, List.map_cons, List.flatMap_cons, List.map_map]
  simp only [Nat.add_sub_cancel, Nat.sub_zero]
  congr 2
  apply List.map_congr_left
  intro i hi
  simp only [Function.comp_apply, Nat.succ_eq_add_one]
  congr 4
  omega

theorem encode_hexDigit {d : Nat} (h : d < 16) :
    ∃ b, String.utf8EncodeChar (hexDigit d) = [b] ∧ hexValue? b = some d := by
  have hall : ∀ d < 16, (String.utf8EncodeChar (hexDigit d)).map hexValue? = [some d] := by decide
  obtain ⟨b, hb, hvalue⟩ := List.map_eq_singleton_iff.mp (hall d h)
  exact ⟨b, hb, hvalue⟩

@[simp]
theorem hexFixed_zero (n : Nat) : Bytes.ofString (hexFixed 0 n) = [] := by
  simp [hexFixed, Bytes.ofString_eq]

theorem length_hexFixed (w n : Nat) : (Bytes.ofString (hexFixed w n)).length = w := by
  induction w with
  | zero => simp
  | succ w ih =>
    obtain ⟨b, hb, -⟩ := encode_hexDigit (Nat.mod_lt (n / 16 ^ w) (by decide : 0 < 16))
    rw [hexFixed_succ, hb, List.length_append, ih, List.length_singleton, Nat.add_comm]

theorem hexFixed_digits {w n : Nat} {b : UInt8} (hb : b ∈ Bytes.ofString (hexFixed w n)) :
    hexValue? b ≠ none := by
  induction w with
  | zero => simp at hb
  | succ w ih =>
    obtain ⟨d, hd, hvalue⟩ := encode_hexDigit (Nat.mod_lt (n / 16 ^ w) (by decide : 0 < 16))
    rw [hexFixed_succ, hd, List.mem_append, List.mem_singleton] at hb
    rcases hb with rfl | hb
    · rw [hvalue]
      exact nofun
    · exact ih hb

theorem readDigits_hexFixed (w n : Nat) (rest : Bytes) :
    readDigits 4 (Bytes.ofString (hexFixed w n) ++ rest) w = some (n % 16 ^ w, rest) := by
  have hfold : ∀ a, (Bytes.ofString (hexFixed w n)).foldl (fun acc b => do
      let v ← acc
      let d ← hexValue? b
      if d < 2 ^ 4 then some (v * 2 ^ 4 + d) else none) (some a) =
        some (a * 16 ^ w + n % 16 ^ w) := by
    induction w with
    | zero =>
      intro a
      simp [Nat.mod_one]
    | succ w ih =>
      intro a
      have hlt : n / 16 ^ w % 16 < 16 := Nat.mod_lt _ (by decide)
      obtain ⟨b, hb, hvalue⟩ := encode_hexDigit hlt
      have hstep : (do
          let v ← some a
          let d ← hexValue? b
          if d < 2 ^ 4 then some (v * 2 ^ 4 + d) else none) = some (a * 16 + n / 16 ^ w % 16) := by
        simp [hvalue, hlt]
      rw [hexFixed_succ, hb, List.singleton_append, List.foldl_cons, hstep, ih, Nat.mod_pow_succ,
        Nat.pow_succ]
      congr 1
      ring
  rw [readDigits, if_neg (by simp [length_hexFixed]), List.take_left' (length_hexFixed w n),
    List.drop_left' (length_hexFixed w n)]
  dsimp only
  rw [hfold 0, Nat.zero_mul, Nat.zero_add]
  rfl

theorem ofString_backslash (c : Char) :
    Bytes.ofString (String.ofList ['\\', c]) = 92 :: String.utf8EncodeChar c := by
  rw [Bytes.ofString_eq, String.toList_ofList]
  simp [String.utf8EncodeChar]

inductive IsQuote : Char → UInt8 → Prop
  | single : IsQuote '\'' 39
  | double : IsQuote '"' 34

namespace IsQuote
variable {quote : Char} {q : UInt8} (hq : IsQuote quote q)
include hq

theorem ne_backslash : q ≠ 92 := by
  cases hq <;> decide

theorem unquoted_hexFixed {w n : Nat} {b : UInt8} (hb : b ∈ Bytes.ofString (hexFixed w n)) :
    Unquoted q b := by
  have hdigit := hexFixed_digits hb
  refine ⟨?_, ?_, ?_⟩
  · rintro rfl
    cases hq <;> exact hdigit rfl
  · rintro rfl
    exact hdigit rfl
  · rintro rfl
    exact hdigit rfl

theorem escape_hex {n : Nat} (hn : n < 256) :
    Escape q (Bytes.ofString ("\\x" ++ hexFixed 2 n)) (Char.ofNat n) false := by
  have htext : Bytes.ofString "\\x" = [92, 120] := by
    rw [Bytes.ofString_eq]
    rfl
  rw [Bytes.ofString_append, htext]
  apply Escape.ofBackslash hq.ne_backslash (fun b hb => hq.unquoted_hexFixed hb)
  intro rest
  have hread := readDigits_hexFixed 2 n rest
  rw [Nat.mod_eq_of_lt hn] at hread
  change (readDigits 4 (Bytes.ofString (hexFixed 2 n) ++ rest) 2).bind _ = _
  rw [hread]
  rfl

theorem escape_wide {c : Char} {w : Nat} {letter : UInt8} {text : String}
    (hw : c.toNat < 16 ^ w) (hletter : letter = 0x75 ∧ w = 4 ∨ letter = 0x55 ∧ w = 8)
    (htext : Bytes.ofString text = [92, letter]) :
    Escape q (Bytes.ofString (text ++ hexFixed w c.toNat)) c true := by
  rw [Bytes.ofString_append, htext]
  apply Escape.ofBackslash hq.ne_backslash (fun b hb => hq.unquoted_hexFixed hb)
  intro rest
  have hread := readDigits_hexFixed w c.toNat rest
  rw [Nat.mod_eq_of_lt hw] at hread
  have hunescape : unescape? q (92 :: letter :: (Bytes.ofString (hexFixed w c.toNat) ++ rest)) =
      (readDigits 4 (Bytes.ofString (hexFixed w c.toNat) ++ rest) w).bind fun p =>
        if p.1.isValidChar then some ⟨Char.ofNat p.1, true, p.2⟩ else none := by
    rcases hletter with ⟨rfl, rfl⟩ | ⟨rfl, rfl⟩ <;> rfl
  rw [hunescape, hread, Option.bind_some]
  dsimp only
  rw [if_pos (by exact c.valid), Char.ofNat_toNat]

theorem escape_control {c letter : Char} (h : (c.toNat, letter) ∈ controlLetters) :
    Escape q (Bytes.ofString (String.ofList ['\\', letter])) c false := by
  have hc := Char.ofNat_toNat c
  rw [ofString_backslash]
  simp only [controlLetters, List.mem_cons, Prod.mk.injEq, List.not_mem_nil, or_false] at h
  rcases h with ⟨hn, rfl⟩ | ⟨hn, rfl⟩ | ⟨hn, rfl⟩ | ⟨hn, rfl⟩ | ⟨hn, rfl⟩ | ⟨hn, rfl⟩ | ⟨hn, rfl⟩ <;>
    rw [hn] at hc <;> rw [← hc] <;>
    exact Escape.ofBackslash hq.ne_backslash (by simp) fun rest => rfl

theorem escape_self {c : Char} (h : c = quote ∨ c = '\\') :
    Escape q (Bytes.ofString (String.ofList ['\\', c])) c false := by
  rw [ofString_backslash]
  cases hq <;> rcases h with rfl | rfl <;>
    exact Escape.ofBackslash (by decide) (by simp) fun rest => rfl

/-- A printable character stands for itself. -/
theorem escape_printable {c : Char} (hc : isPrintable c.toNat = true) (hquote : c ≠ quote)
    (hbackslash : c ≠ '\\') : ∃ wide, Escape q (String.utf8EncodeChar c) c wide ∧
      (wide = true ∨ c.toNat < 0x80) := by
  have hnewline : c ≠ '\n' := by
    rintro rfl
    rw [isPrintable, ← Array.any_toList] at hc
    revert hc
    decide +kernel
  by_cases hlt : c.toNat < 0x80
  · have hbyte := Utf8.toNat_ofNat (by omega : c.toNat < 256)
    have hne : ∀ (d : Char) (b : UInt8), b.toNat = d.toNat → c ≠ d → UInt8.ofNat c.toNat ≠ b := by
      intro d b hd hcd heq
      rw [← heq, hbyte] at hd
      exact hcd (Char.toNat_inj.mp hd)
    have hplain : Unquoted q (UInt8.ofNat c.toNat) := by
      refine ⟨?_, hne '\n' 10 rfl hnewline, hne '\\' 92 rfl hbackslash⟩
      cases hq with
      | single => exact hne _ 39 rfl hquote
      | double => exact hne _ 34 rfl hquote
    rw [Utf8.encode_of_lt hlt]
    refine ⟨false, ⟨⟨_, _, rfl, hplain.1, hplain.2.1⟩, fun rest => ?_, quotedLength_append ?_⟩,
      .inr hlt⟩
    · rw [List.singleton_append, unescape?_ascii hplain (by omega), hbyte, Char.ofNat_toNat]
    · simpa using hplain
  · have hhigh : ∀ b ∈ String.utf8EncodeChar c, 0x80 ≤ b.toNat := fun b hb =>
      Utf8.le_of_mem_encode (by omega) hb
    have hplain : ∀ b ∈ String.utf8EncodeChar c, Unquoted q b := by
      intro b hb
      have hle := hhigh b hb
      refine ⟨?_, ?_, ?_⟩
      · rintro rfl
        cases hq <;> exact absurd hle (by decide)
      · rintro rfl
        exact absurd hle (by decide)
      · rintro rfl
        exact absurd hle (by decide)
    obtain ⟨b, more, henc, hdecode⟩ := Utf8.decode?_encode c
    rw [henc] at hplain hhigh ⊢
    have hb := hplain b List.mem_cons_self
    refine ⟨true, ⟨⟨b, more, rfl, hb.1, hb.2.1⟩, fun rest => ?_, quotedLength_append hplain⟩,
      .inl rfl⟩
    rw [List.cons_append, unescape?_high hb (hhigh b List.mem_cons_self) (hdecode rest),
      List.drop_left]

/-- A character as it is written between quotes is read as that character. -/
theorem escape_char (c : Char) : ∃ wide, Escape q (Bytes.ofString (escapeChar quote c)) c wide ∧
    (wide = true ∨ c.toNat < 0x80) := by
  unfold escapeChar
  split
  next hself =>
    refine ⟨false, hq.escape_self hself, .inr ?_⟩
    cases hq <;> rcases hself with rfl | rfl <;> decide
  next hself =>
    obtain ⟨hquote, hbackslash⟩ := not_or.mp hself
    split
    next hprintable =>
      rw [Bytes.ofString_eq, String.toList_singleton, List.flatMap_singleton]
      exact hq.escape_printable hprintable hquote hbackslash
    · split
      next letter hletter =>
        have hmem : (c.toNat, letter) ∈ controlLetters := by
          obtain ⟨before, after, hsplit, -⟩ := List.lookup_eq_some_iff.mp hletter
          rw [hsplit]
          simp
        refine ⟨false, hq.escape_control hmem, .inr ?_⟩
        have hall : ∀ l ∈ controlLetters, l.1 < 0x80 := by decide
        exact hall _ hmem
      · have hlt := Utf8.toNat_lt c
        split
        next hsmall =>
          have hescape := hq.escape_hex (by omega : c.toNat < 256)
          rw [Char.ofNat_toNat] at hescape
          exact ⟨false, hescape, .inr (by omega)⟩
        · split
          next hmiddle =>
            refine ⟨true, hq.escape_wide hmiddle (.inl ⟨rfl, rfl⟩) ?_, .inl rfl⟩
            rw [Bytes.ofString_eq]
            rfl
          · refine ⟨true, hq.escape_wide (by omega) (.inr ⟨rfl, rfl⟩) ?_, .inl rfl⟩
            rw [Bytes.ofString_eq]
            rfl

end IsQuote

def Unescaped.bytes (u : Char) (wide : Bool) : Bytes :=
  if wide && 0x80 ≤ u.toNat then String.utf8EncodeChar u else [u.toNat.toUInt8]

theorem unquoteBody_escape {q : UInt8} {piece : Bytes} {u : Char} {wide : Bool}
    (h : Escape q piece u wide) (rest : Bytes) :
    unquoteBody q (piece ++ rest) = (unquoteBody q rest).map (Unescaped.bytes u wide ++ ·) := by
  obtain ⟨b, more, rfl, hb, hnewline⟩ := h.head
  have hread := h.read rest
  rw [List.cons_append] at hread ⊢
  rw [unquoteBody, if_neg hb, if_neg hnewline]
  split
  next hnone =>
    rw [hread] at hnone
    cases hnone
  next v hsome =>
    rw [hread] at hsome
    cases hsome
    congr 1
    funext tail
    dsimp only [Unescaped.bytes]
    split <;> rfl

def quotePiece : UInt8 × Option Char → Bytes
  | (_, some c) => Bytes.ofString (escapeChar '"' c)
  | (b, none) => Bytes.ofString ("\\x" ++ hexFixed 2 b.toNat)

def spelledBytes : UInt8 × Option Char → Bytes
  | (_, some c) => String.utf8EncodeChar c
  | (b, none) => [b]

theorem bytes_eq_encode {c : Char} {wide : Bool} (h : wide = true ∨ c.toNat < 0x80) :
    Unescaped.bytes c wide = String.utf8EncodeChar c := by
  unfold Unescaped.bytes
  split
  · rfl
  next hnarrow =>
    have hlt : c.toNat < 0x80 := by
      rcases h with rfl | h
      · simpa using hnarrow
      · exact h
    exact (Utf8.encode_of_lt hlt).symm

theorem escape_quotePiece (p : UInt8 × Option Char) :
    ∃ u wide, Escape 34 (quotePiece p) u wide ∧ Unescaped.bytes u wide = spelledBytes p := by
  obtain ⟨b, _ | c⟩ := p
  · have hlt := b.toNat_lt
    refine ⟨_, _, IsQuote.double.escape_hex hlt, ?_⟩
    rw [Unescaped.bytes, Utf8.toNat_ofNat_of_valid (by omega)]
    simp [spelledBytes]
  · obtain ⟨wide, hescape, hwide⟩ := IsQuote.double.escape_char c
    exact ⟨c, wide, hescape, bytes_eq_encode hwide⟩

theorem flatMap_spelledBytes (bs : Bytes) : (Bytes.chars bs).flatMap spelledBytes = bs := by
  induction bs using Bytes.chars.induct with
  | case1 => simp [Bytes.chars]
  | case2 b rest c n hdecode ih =>
    rw [Bytes.chars, hdecode]
    dsimp only
    rw [List.flatMap_cons, ih, spelledBytes, Utf8.encode_of_decode? hdecode, List.cons_append,
      List.take_append_drop]
  | case3 b rest hdecode ih =>
    rw [Bytes.chars, hdecode]
    dsimp only
    rw [List.flatMap_cons, ih]
    rfl

theorem unquoteBody_pieces (ps : List (UInt8 × Option Char)) :
    unquoteBody 34 (ps.flatMap quotePiece ++ [34]) = some (ps.flatMap spelledBytes) := by
  induction ps with
  | nil =>
    rw [List.flatMap_nil, List.nil_append, unquoteBody]
    rfl
  | cons p ps ih =>
    obtain ⟨u, wide, hescape, hbytes⟩ := escape_quotePiece p
    rw [List.flatMap_cons, List.append_assoc, unquoteBody_escape hescape, ih, hbytes,
      List.flatMap_cons]
    rfl

theorem quotedLength_pieces (ps : List (UInt8 × Option Char)) (rest : Bytes) :
    quotedLength 34 (ps.flatMap quotePiece ++ 34 :: rest) = (ps.flatMap quotePiece).length + 1 := by
  induction ps with
  | nil =>
    rw [List.flatMap_nil, List.nil_append, quotedLength]
    · rfl
    · rintro _ _ h
      cases h
  | cons p ps ih =>
    obtain ⟨u, wide, hescape, -⟩ := escape_quotePiece p
    rw [List.flatMap_cons, List.append_assoc, hescape.length, ih, List.length_append]
    omega

theorem ofString_quoteBytes (bs : Bytes) :
    Bytes.ofString (quoteBytes bs) = 34 :: ((Bytes.chars bs).flatMap quotePiece ++ [34]) := by
  have hquote : Bytes.ofString "\"" = [34] := by
    rw [Bytes.ofString_eq]
    rfl
  have hjoin : ∀ f : UInt8 × Option Char → String, (∀ p, Bytes.ofString (f p) = quotePiece p) →
      ∀ ps : List (UInt8 × Option Char),
        Bytes.ofString (String.join (ps.map f)) = ps.flatMap quotePiece := by
    intro f hf ps
    rw [Bytes.ofString_eq, String.toList_join, List.flatMap_map, List.flatMap_assoc]
    congr 1
    funext p
    rw [← hf, Bytes.ofString_eq]
  rw [quoteBytes, Bytes.ofString_append, Bytes.ofString_append, hquote, hjoin]
  · rfl
  · rintro ⟨b, _ | c⟩ <;> rfl

theorem read_of_quote {b : UInt8} (h : b = 34 ∨ b = 39) (rest : Bytes) :
    Lexeme.read b rest =
      (if b = 34 then stringToken (b :: rest.take (quotedLength b rest))
        else charToken (b :: rest.take (quotedLength b rest)), quotedLength b rest) := by
  have hpair : rest.head? >>= punct₂? b = none := by
    rcases h with rfl | rfl <;> cases rest <;> rfl
  have hsingle : punct₁? b = none := by
    rcases h with rfl | rfl <;> rfl
  rw [Lexeme.read, hpair, hsingle]
  dsimp only
  rw [if_pos h]

/-- Text in double quotes is read back, whatever follows it. -/
theorem read_quoteBytes (bs rest : Bytes) : ∃ more, Bytes.ofString (quoteBytes bs) = 34 :: more ∧
    Lexeme.read 34 (more ++ rest) = (.string bs, more.length) := by
  refine ⟨_, ofString_quoteBytes bs, ?_⟩
  have hlength := quotedLength_pieces (Bytes.chars bs) rest
  have hunquote := unquoteBody_pieces (Bytes.chars bs)
  rw [flatMap_spelledBytes] at hunquote
  generalize (Bytes.chars bs).flatMap quotePiece = body at hlength hunquote
  have htake : (body ++ [34] ++ rest).take (body.length + 1) = body ++ [34] :=
    List.take_left' (by simp)
  rw [read_of_quote (.inl rfl), List.append_assoc, List.singleton_append, hlength,
    List.append_cons, htake, if_pos rfl, stringToken, unquote?, hunquote, List.length_append]
  rfl

/-- A character in single quotes is read back, whatever follows it. -/
theorem read_quoteChar (c : Char) (rest : Bytes) : ∃ more,
    Bytes.ofString (quoteChar c.toNat) = 39 :: more ∧
      Lexeme.read 39 (more ++ rest) = (.char c, more.length) := by
  obtain ⟨wide, hescape, -⟩ := IsQuote.single.escape_char c
  have hchar : quoteChar c.toNat = "'" ++ escapeChar '\'' c ++ "'" := by
    have hvalid : (c.toNat : Int).toNat.isValidChar ∧ 0 ≤ (c.toNat : Int) :=
      ⟨c.valid, Int.natCast_nonneg _⟩
    rw [quoteChar, dif_pos hvalid]
    rfl
  have hquote : Bytes.ofString "'" = [39] := by
    rw [Bytes.ofString_eq]
    rfl
  refine ⟨Bytes.ofString (escapeChar '\'' c) ++ [39], ?_, ?_⟩
  · rw [hchar, Bytes.ofString_append, Bytes.ofString_append, hquote]
    rfl
  · have hread := hescape.read []
    have hlength := hescape.length (39 :: rest)
    have hhead := hescape.head
    generalize Bytes.ofString (escapeChar '\'' c) = piece at hread hlength hhead
    rw [List.append_nil] at hread
    have hend : quotedLength 39 (39 :: rest) = 1 := by
      rw [quotedLength]
      · rfl
      · rintro _ _ h
        cases h
    have htake : (piece ++ [39] ++ rest).take (1 + piece.length) = piece ++ [39] :=
      List.take_left' (by simp [Nat.add_comm])
    have htoken : charToken (39 :: (piece ++ [39])) = .char c := by
      obtain ⟨b, more, rfl, -⟩ := hhead
      have hlong : ¬ (39 :: (b :: more ++ [39])).length < 3 := by simp
      have hlast : (39 :: (b :: more ++ [39])).getLast? = some 39 := by
        rw [← List.cons_append, List.getLast?_concat]
      rw [charToken, if_neg (not_or.mpr ⟨hlong, not_not.mpr hlast⟩), List.drop_one, List.tail_cons,
        List.dropLast_concat, hread]
    rw [read_of_quote (.inr rfl), List.append_assoc, List.singleton_append, hlength, hend,
      List.append_cons, htake, if_neg (by decide), htoken, List.length_append, Nat.add_comm]
    rfl

end

end RegisterLang.Text
