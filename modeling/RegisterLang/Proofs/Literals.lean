import RegisterLang.Proofs.Numerals
import RegisterLang.Proofs.Plain
import RegisterLang.Tree.Printer

/-!
# Literals read back

The text of a literal is a number token, with a minus before it if the literal is negative. The token is
read as the literal without its sign, and the minus gives the sign back.
-/
namespace RegisterLang
open Text Number

def IsNumeral (bs : Bytes) : Prop :=
  ∃ b more, bs = b :: more ∧ Lexeme.isDigit b = true ∧ ∀ c ∈ more, Lexeme.isNumberByte c = true

namespace Number

theorem isDigit_byte {c : Char} (h : 48 ≤ c.toNat ∧ c.toNat ≤ 57) :
    Lexeme.isDigit (UInt8.ofNat c.toNat) = true := by
  have hbyte : (UInt8.ofNat c.toNat).toNat = c.toNat := Utf8.toNat_ofNat (by omega)
  simp only [Lexeme.isDigit, Bool.and_eq_true, decide_eq_true_eq, UInt8.le_iff_toNat_le, hbyte]
  exact h

theorem isNumberByte_digit {b : UInt8} (h : Lexeme.isDigit b = true) :
    Lexeme.isNumberByte b = true := by
  rw [Lexeme.isNumberByte, Lexeme.isIdentByte, h]
  simp

theorem toNat_of_isDigit {b : UInt8} (h : Lexeme.isDigit b = true) : 48 ≤ b.toNat ∧ b.toNat ≤ 57 := by
  simp only [Lexeme.isDigit, Bool.and_eq_true, decide_eq_true_eq, UInt8.le_iff_toNat_le] at h
  exact h

def IsPlace (b : UInt8) : Prop := Lexeme.isDigit b = true ∨ b = 46

theorem IsPlace.isNumberByte {b : UInt8} (h : IsPlace b) : Lexeme.isNumberByte b = true := by
  rcases h with h | rfl
  · exact isNumberByte_digit h
  · rfl

theorem IsPlace.lower_lt {b : UInt8} (h : IsPlace b) : (lower b).toNat < 58 := by
  have hlt : b.toNat < 58 := by
    rcases h with h | rfl
    · have := toNat_of_isDigit h
      omega
    · decide
  have hlower : lower b = b := by
    rw [lower, if_neg]
    rintro ⟨hle, _⟩
    rw [UInt8.le_iff_toNat_le] at hle
    change 65 ≤ b.toNat at hle
    omega
  rwa [hlower]

theorem isPlace_digits {cs : List Char} (h : Digits cs) : ∀ b ∈ digitBytes cs, IsPlace b := by
  intro b hb
  obtain ⟨c, hc, rfl⟩ := List.mem_map.mp hb
  exact .inl (isDigit_byte (h c hc))

section
variable {ws fs : List Char} (hws : Digits ws) (hfs : Digits fs)
include hws hfs

theorem isPlace_numeral : ∀ b ∈ digitBytes (numeral ws fs), IsPlace b := by
  unfold numeral
  split
  · exact isPlace_digits hws
  · intro b hb
    rw [digitBytes, List.map_append, List.map_cons] at hb
    rcases List.mem_append.mp hb with hb | hb
    · exact isPlace_digits hws b hb
    · rcases List.mem_cons.mp hb with rfl | hb
      · exact .inr rfl
      · exact isPlace_digits hfs b hb

theorem isNumeral_numeral (hne : ws ≠ []) {ending : Bytes}
    (hending : ∀ b ∈ ending, Lexeme.isNumberByte b = true) :
    IsNumeral (digitBytes (numeral ws fs) ++ ending) := by
  have hplaces := isPlace_numeral hws hfs
  obtain ⟨c, cs, rfl⟩ := List.exists_cons_of_ne_nil hne
  obtain ⟨more, hmore⟩ : ∃ more, digitBytes (numeral (c :: cs) fs) =
      UInt8.ofNat c.toNat :: more := by
    unfold numeral
    split <;> exact ⟨_, rfl⟩
  rw [hmore] at hplaces ⊢
  refine ⟨_, more ++ ending, rfl, isDigit_byte (hws c List.mem_cons_self), fun b hb => ?_⟩
  rcases List.mem_append.mp hb with hb | hb
  · exact (hplaces b (List.mem_cons_of_mem _ hb)).isNumberByte
  · exact hending b hb

end

end Number

namespace Parser
open Number
variable (pos : Pos)

theorem not_hexadecimal {bs : Bytes} (h : ∀ b ∈ bs, lower b ≠ 120) :
    (bs.take 2).map lower ≠ [48, 120] := by
  intro heq
  have hmem : (120 : UInt8) ∈ (bs.take 2).map lower := by
    rw [heq]
    decide
  obtain ⟨b, hb, hlower⟩ := List.mem_map.mp hmem
  exact h b (List.mem_of_mem_take hb) hlower

theorem lower_ne {b : UInt8} (h : IsPlace b) {n : UInt8} (hn : 58 ≤ n.toNat) : lower b ≠ n := by
  rintro rfl
  have := h.lower_lt
  omega

/-- What the last byte of a number says if it is a digit or a point. -/
theorem lower_last_ne {bs : Bytes} (h : ∀ b ∈ bs, IsPlace b) {n : UInt8} (hn : 58 ≤ n.toNat) :
    (bs.getLast?.map lower).getD 0 ≠ n := by
  cases hlast : bs.getLast? with
  | none =>
    rintro rfl
    exact absurd hn (by decide)
  | some b => exact lower_ne (h b (List.mem_of_getLast? hlast)) hn

theorem readNumber_int (v : UInt64) :
    readNumber pos (digitBytes (Nat.toDigits 10 v.toNat)) = .ok (.int pos none v false) := by
  have hdigits := Digits.toDigits v.toNat
  have hplaces := isPlace_digits hdigits
  have hany : (digitBytes (Nat.toDigits 10 v.toNat)).any (fun b => b = 46 || lower b = 101) =
      false := by
    rw [List.any_eq_false]
    intro b hb
    obtain ⟨c, hc, rfl⟩ := List.mem_map.mp hb
    have hdigit := toNat_of_isDigit (isDigit_byte (hdigits c hc))
    have hpoint : UInt8.ofNat c.toNat ≠ 46 := by
      intro heq
      rw [heq] at hdigit
      exact absurd hdigit (by decide)
    simp [hpoint, lower_ne (hplaces _ hb) (n := 101) (by decide)]
  rw [readNumber]
  dsimp only
  rw [if_neg (not_hexadecimal fun b hb => lower_ne (hplaces b hb) (by decide)),
    if_neg (lower_last_ne hplaces (by decide)), if_neg (lower_last_ne hplaces (by decide)), hany,
    if_neg (by decide), readUInt64_toDigits v.toNat_lt]
  simp

theorem readNumber_float {bits : ℕ} {ws fs : List Char} (h : Format.single.ReadAs bits ws fs) :
    readNumber pos (digitBytes (numeral ws fs) ++ [102]) = .ok (.float pos none bits.toUInt32) := by
  have hplaces := isPlace_numeral h.whole h.fraction
  have hhex : ∀ b ∈ digitBytes (numeral ws fs) ++ [102], lower b ≠ 120 := by
    intro b hb
    rcases List.mem_append.mp hb with hb | hb
    · exact lower_ne (hplaces b hb) (by decide)
    · obtain rfl := List.mem_singleton.mp hb
      decide
  rw [readNumber]
  dsimp only
  rw [if_neg (not_hexadecimal hhex), List.getLast?_append, List.dropLast_concat, h.read]
  rfl

theorem readNumber_double {bits : ℕ} {ws fs : List Char} (h : Format.double.ReadAs bits ws fs)
    (hne : fs ≠ []) :
    readNumber pos (digitBytes (numeral ws fs)) = .ok (.double pos none bits.toUInt64) := by
  have hplaces := isPlace_numeral h.whole h.fraction
  have hpoint : '.' ∈ numeral ws fs := by
    rw [numeral, if_neg (by simpa using hne)]
    simp
  have hany : (digitBytes (numeral ws fs)).any (fun b => b = 46 || lower b = 101) = true :=
    List.any_eq_true.mpr ⟨46, List.mem_map_of_mem hpoint, rfl⟩
  rw [readNumber]
  dsimp only
  rw [if_neg (not_hexadecimal fun b hb => lower_ne (hplaces b hb) (by decide)),
    if_neg (lower_last_ne hplaces (by decide)), if_neg (lower_last_ne hplaces (by decide)), hany,
    if_pos rfl, h.read]

end Parser

namespace Number.Format
variable {f : Format} {bits : ℕ}

/-- A number is written as its sign and its magnitude. -/
theorem text_magnitude (h : f.IsFinite bits) :
    f.text bits = (if f.negative bits then "-" else "") ++ f.text (f.magnitude bits) := by
  have hbiased := decide_eq_false (isFinite_iff.mp h)
  rw [text_of_lt h, text, isNaN, isInfinite, hbiased, parts_magnitude, neighbourhood_magnitude]
  simp only [Bool.false_and, Bool.false_eq_true, if_false]
  split
  · rfl
  · rfl

def sign (f : Format) (bits : ℕ) : String := if f.negative bits then "-" else ""

/-- The digits of a number that is written without an exponent. -/
theorem exists_text (h : f.IsFinite bits) (htext : 'e' ∉ (f.text bits).toList) :
    ∃ ws fs, f.text bits = f.sign bits ++ String.ofList (numeral ws fs) ∧
      f.ReadAs (f.magnitude bits) ws fs ∧ (fs = [] → f.ReadAs (f.magnitude bits) ws ['0']) := by
  rw [text_magnitude h, String.toList_append, List.mem_append, not_or] at htext
  obtain ⟨ws, fs, heq, hread⟩ := exists_readAs h htext.2
  exact ⟨ws, fs, by rw [text_magnitude h, heq, sign], hread⟩

end Number.Format

namespace Printer
open Number

theorem any_digits {cs : List Char} (h : Digits cs) : cs.any showsDouble = false := by
  rw [List.any_eq_false]
  intro c hc
  have hdigit := h c hc
  have hne : ∀ d : Char, d.toNat < 48 ∨ 57 < d.toNat → c ≠ d := by
    rintro d hd rfl
    omega
  simp [showsDouble, hne '.' (by decide), hne 'e' (by decide), hne 'I' (by decide),
    hne 'N' (by decide)]

/-- A double has digits after the point. -/
theorem exists_doubleText {bits : UInt64} (h : Format.double.IsFinite bits.toNat)
    (htext : 'e' ∉ (Format.double.text bits.toNat).toList) :
    ∃ ws fs, fs ≠ [] ∧ Format.double.ReadAs (Format.double.magnitude bits.toNat) ws fs ∧
      doubleText bits = Format.double.sign bits.toNat ++ String.ofList (numeral ws fs) := by
  obtain ⟨ws, fs, heq, hread, hzero⟩ := Format.exists_text h htext
  rw [doubleText, heq, String.toList_append, List.any_append, String.toList_ofList]
  cases fs with
  | nil =>
    have hsign : (Format.double.sign bits.toNat).toList.any showsDouble = false := by
      unfold Format.sign
      split <;> rfl
    have hdigits : (numeral ws []).any showsDouble = false := any_digits hread.whole
    refine ⟨ws, ['0'], List.cons_ne_nil _ _, hzero rfl, ?_⟩
    rw [hsign, hdigits]
    apply String.toList_injective
    simp [numeral]
  | cons c cs =>
    have hpoint : (numeral ws (c :: cs)).any showsDouble = true := by simp [numeral, showsDouble]
    exact ⟨ws, c :: cs, List.cons_ne_nil _ _, hread, by rw [hpoint, Bool.or_true, if_pos rfl]⟩

end Printer

/-- A text that is a number, with a minus before it if the number is negative. -/
inductive Numeric (pos : Pos) : String → Expr → Prop
  | plain {s : String} {x : Expr} : IsNumeral (Bytes.ofString s) →
      Parser.readNumber pos (Bytes.ofString s) = .ok x → Numeric pos s x
  | minus {s : String} {x : Expr} : IsNumeral (Bytes.ofString s) →
      Parser.readNumber pos (Bytes.ofString s) = .ok x → Numeric pos ("-" ++ s) (Parser.negate pos x)

namespace Numeric
open Number
variable (pos : Pos)

theorem ofString_numeral {ws fs : List Char} (hws : Digits ws) (hfs : Digits fs) :
    Bytes.ofString (String.ofList (numeral ws fs)) = digitBytes (numeral ws fs) := by
  apply ofString_ascii
  unfold numeral
  intro c hc
  split at hc
  · have := hws c hc
    omega
  · rcases List.mem_append.mp hc with hc | hc
    · have := hws c hc
      omega
    · rcases List.mem_cons.mp hc with rfl | hc
      · decide
      · have := hfs c hc
        omega

theorem isNumberByte_nil : ∀ b ∈ ([] : Bytes), Lexeme.isNumberByte b = true := nofun

theorem int (v : UInt64) (negative : Bool) :
    Numeric pos ((if negative then "-" else "") ++ toString v) (.int pos none v negative) := by
  have hdigits := Digits.toDigits v.toNat
  have htext : Bytes.ofString (toString v) = digitBytes (Nat.toDigits 10 v.toNat) :=
    ofString_numeral hdigits (nofun : Digits [])
  have hnumeral := isNumeral_numeral hdigits (nofun : Digits []) Nat.toDigits_ne_nil isNumberByte_nil
  have hread := Parser.readNumber_int pos v
  rw [List.append_nil, numeral, List.isEmpty_nil, if_pos rfl, ← htext] at hnumeral
  rw [← htext] at hread
  cases negative with
  | false =>
    rw [if_neg (by decide), String.empty_append]
    exact .plain hnumeral hread
  | true => exact .minus hnumeral hread

theorem float {bits : UInt32} (h : Format.single.IsFinite bits.toNat)
    (htext : 'e' ∉ (Format.single.text bits.toNat).toList) :
    Numeric pos (Format.single.text bits.toNat ++ "f") (.float pos none bits) := by
  obtain ⟨ws, fs, heq, hread, _⟩ := Format.exists_text h htext
  have hbytes : Bytes.ofString (String.ofList (numeral ws fs) ++ "f") =
      digitBytes (numeral ws fs) ++ [102] := by
    rw [Bytes.ofString_append, ofString_numeral hread.whole hread.fraction, Bytes.ofString_eq "f"]
    rfl
  have hnumeral := isNumeral_numeral hread.whole hread.fraction hread.nonempty
    (List.forall_mem_singleton.mpr (by decide : Lexeme.isNumberByte 102 = true))
  have hnumber := Parser.readNumber_float pos hread
  have hlt : bits.toNat < Format.single.signBit * 2 := bits.toNat_lt
  rw [← hbytes] at hnumeral hnumber
  rw [heq, Format.sign, String.append_assoc]
  cases hnegative : Format.single.negative bits.toNat with
  | false =>
    rw [Format.magnitude_of_positive hlt hnegative, Nat.toUInt32, UInt32.ofNat_toNat] at hnumber
    rw [if_neg (by decide), String.empty_append]
    exact .plain hnumeral hnumber
  | true =>
    have hmagnitude : Format.single.magnitude bits.toNat = (bits ^^^ 0x80000000).toNat := by
      rw [← Format.xor_signBit hlt hnegative, UInt32.toNat_xor]
      rfl
    rw [hmagnitude, Nat.toUInt32, UInt32.ofNat_toNat] at hnumber
    have hminus := Numeric.minus hnumeral hnumber
    rw [Parser.negate, UInt32.xor_assoc, UInt32.xor_self, UInt32.xor_zero] at hminus
    exact hminus

theorem double {bits : UInt64} (h : Format.double.IsFinite bits.toNat)
    (htext : 'e' ∉ (Format.double.text bits.toNat).toList) :
    Numeric pos (Printer.doubleText bits) (.double pos none bits) := by
  obtain ⟨ws, fs, hne, hread, heq⟩ := Printer.exists_doubleText h htext
  have hbytes := ofString_numeral hread.whole hread.fraction
  have hnumeral := isNumeral_numeral hread.whole hread.fraction hread.nonempty isNumberByte_nil
  have hnumber := Parser.readNumber_double pos hread hne
  have hlt : bits.toNat < Format.double.signBit * 2 := bits.toNat_lt
  rw [List.append_nil, ← hbytes] at hnumeral
  rw [← hbytes] at hnumber
  rw [heq, Format.sign]
  cases hnegative : Format.double.negative bits.toNat with
  | false =>
    rw [Format.magnitude_of_positive hlt hnegative, Nat.toUInt64, UInt64.ofNat_toNat] at hnumber
    rw [if_neg (by decide), String.empty_append]
    exact .plain hnumeral hnumber
  | true =>
    have hmagnitude : Format.double.magnitude bits.toNat = (bits ^^^ 0x8000000000000000).toNat := by
      rw [← Format.xor_signBit hlt hnegative, UInt64.toNat_xor]
      rfl
    rw [hmagnitude, Nat.toUInt64, UInt64.ofNat_toNat] at hnumber
    have hminus := Numeric.minus hnumeral hnumber
    rw [Parser.negate, UInt64.xor_assoc, UInt64.xor_self, UInt64.xor_zero] at hminus
    exact hminus

end Numeric

end RegisterLang
