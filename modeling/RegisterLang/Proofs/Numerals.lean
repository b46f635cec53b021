import RegisterLang.Proofs.Quoting
import RegisterLang.Proofs.Widening

/-!
# Numbers read back

A number is read as the literal that it was written for. A whole number is written in base ten. A float
that is written without an exponent has digits before the point and, if there is one, after it; they
spell its shortest decimal, which is rounded to it.
-/
namespace RegisterLang.Number
open Text

def digitBytes (cs : List Char) : Bytes := cs.map fun c => UInt8.ofNat c.toNat

theorem ofString_ascii {cs : List Char} (h : ∀ c ∈ cs, c.toNat < 0x80) :
    Bytes.ofString (String.ofList cs) = digitBytes cs := by
  rw [Bytes.ofString_eq, String.toList_ofList]
  induction cs with
  | nil => rfl
  | cons c cs ih =>
    rw [List.forall_mem_cons] at h
    rw [List.flatMap_cons, ih h.2, Utf8.encode_of_lt h.1]
    rfl

def Digits (cs : List Char) : Prop := ∀ c ∈ cs, 48 ≤ c.toNat ∧ c.toNat ≤ 57

namespace Digits

theorem toDigits (n : ℕ) : Digits (Nat.toDigits 10 n) := by
  intro c hc
  have hdigit := Nat.isDigit_of_mem_toDigits (by decide) (by decide) hc
  simp only [Char.isDigit, Bool.and_eq_true, decide_eq_true_iff] at hdigit
  exact hdigit

theorem replicate_zero (n : ℕ) : Digits (List.replicate n '0') := by
  intro c hc
  rw [List.eq_of_mem_replicate hc]
  decide

variable {cs ds : List Char}

theorem append (h : Digits cs) (h' : Digits ds) : Digits (cs ++ ds) := by
  intro c hc
  rcases List.mem_append.mp hc with hc | hc
  · exact h c hc
  · exact h' c hc

theorem byte {c : Char} (h : Digits (c :: ds)) : (UInt8.ofNat c.toNat).toNat = c.toNat := by
  have hc := h c List.mem_cons_self
  exact Utf8.toNat_ofNat (by omega)

end Digits

theorem digitValue?_digit {b : UInt8} (h : 48 ≤ b.toNat ∧ b.toNat ≤ 57) :
    digitValue? b = some (b.toNat - 48) := by
  rw [digitValue?, if_pos]
  exact h

theorem ofDigitChars_ten (c : Char) (cs : List Char) (n : ℕ) :
    Nat.ofDigitChars 10 (c :: cs) n = Nat.ofDigitChars 10 cs (n * 10 + (c.toNat - 48)) := by
  rw [Nat.ofDigitChars_cons, Nat.mul_comm]
  rfl

theorem le_ofDigitChars (n : ℕ) (cs : List Char) : n ≤ Nat.ofDigitChars 10 cs n := by
  induction cs generalizing n with
  | nil => simp
  | cons c cs ih =>
    rw [ofDigitChars_ten]
    exact Nat.le_trans (by omega) (ih _)

theorem readMagnitude_digits {cs : List Char} (hcs : Digits cs) {n : ℕ}
    (h : Nat.ofDigitChars 10 cs n < 2 ^ 64) :
    readMagnitude 10 n (digitBytes cs) = .ok (Nat.ofDigitChars 10 cs n) := by
  induction cs generalizing n with
  | nil => simp [digitBytes, readMagnitude]
  | cons c cs ih =>
    have hbyte := hcs.byte
    have hc := hcs c List.mem_cons_self
    rw [ofDigitChars_ten] at h ⊢
    have hle := le_ofDigitChars (n * 10 + (c.toNat - 48)) cs
    change readMagnitude 10 n (UInt8.ofNat c.toNat :: digitBytes cs) = _
    have hne : UInt8.ofNat c.toNat ≠ 95 := by
      intro heq
      rw [heq] at hbyte
      change 95 = c.toNat at hbyte
      omega
    rw [readMagnitude, if_neg hne, digitValue?_digit (by omega), hbyte]
    dsimp only
    rw [if_neg (by omega), if_neg (Nat.not_le.mpr (Nat.lt_of_le_of_lt hle h))]
    exact ih (fun d hd => hcs d (List.mem_cons_of_mem _ hd)) h

/-- A number does not begin with a zero unless it is zero. -/
theorem head_toDigits {n : ℕ} (hn : n ≠ 0) : ∃ c cs, Nat.toDigits 10 n = c :: cs ∧ c ≠ '0' := by
  induction n using Nat.strongRecOn with
  | ind n ih =>
    by_cases hlt : n < 10
    · refine ⟨n.digitChar, [], Nat.toDigits_of_lt_base hlt, ?_⟩
      have hall : ∀ n : ℕ, n < 10 → n ≠ 0 → n.digitChar ≠ '0' := by decide
      exact hall n hlt hn
    · obtain ⟨c, cs, hcs, hc⟩ := ih (n / 10) (by omega) (by omega)
      refine ⟨c, cs ++ [(n % 10).digitChar], ?_, hc⟩
      rw [Nat.toDigits_of_base_le (by decide) (by omega), hcs, List.cons_append]

theorem splitBase_of_head {b : UInt8} {rest : Bytes} (h : b ≠ 48) :
    splitBase (b :: rest) = (10, b :: rest) := by
  unfold splitBase
  split
  next heq =>
    cases heq
    exact absurd rfl h
  next heq =>
    cases heq
    exact absurd rfl h
  · rfl

theorem not_mem_digitBytes {cs : List Char} (h : Digits cs) : (95 : UInt8) ∉ digitBytes cs := by
  intro hmem
  obtain ⟨c, hc, heq⟩ := List.mem_map.mp hmem
  have hdigit := h c hc
  have hbyte := congrArg UInt8.toNat heq
  rw [Utf8.toNat_ofNat (by omega)] at hbyte
  change c.toNat = 95 at hbyte
  omega

/-- A whole number in base ten is read back. -/
theorem readUInt64_toDigits {n : ℕ} (hn : n < 2 ^ 64) :
    readUInt64 (digitBytes (Nat.toDigits 10 n)) = .ok n.toUInt64 := by
  by_cases hzero : n = 0
  · subst hzero
    rfl
  · obtain ⟨c, cs, hcs, hc⟩ := head_toDigits hzero
    have hdigits := Digits.toDigits n
    have hvalue : Nat.ofDigitChars 10 (Nat.toDigits 10 n) 0 = n := Nat.ofDigitChars_ten_toDigits
    have hsplit : splitBase (digitBytes (Nat.toDigits 10 n)) =
        (10, digitBytes (Nat.toDigits 10 n)) := by
      rw [hcs] at hdigits ⊢
      apply splitBase_of_head
      intro heq
      have hbyte := hdigits.byte
      dsimp only at heq
      rw [heq] at hbyte
      exact hc (Char.toNat_inj.mp hbyte.symm)
    have hnonempty : (digitBytes (Nat.toDigits 10 n)).isEmpty = false := by
      rw [hcs]
      rfl
    have hseparator : (digitBytes (Nat.toDigits 10 n)).contains 95 = false := by
      simpa using not_mem_digitBytes hdigits
    have hread := readMagnitude_digits hdigits (by rwa [hvalue])
    rw [hvalue] at hread
    rw [readUInt64, hnonempty, hsplit, if_neg (by decide)]
    dsimp only
    rw [hread]
    dsimp only
    rw [hseparator, Bool.false_and, if_neg (by decide)]

namespace Mantissa

/-- Digits are read one after the other. -/
theorem read_digits {cs : List Char} (hcs : Digits cs) (m : Mantissa) (rest : Bytes) :
    m.read (digitBytes cs ++ rest) = Mantissa.read
      { value := Nat.ofDigitChars 10 cs m.value
        places := if m.point then m.places + cs.length else m.places
        point := m.point
        digit := m.digit || !cs.isEmpty } rest := by
  induction cs generalizing m with
  | nil =>
    obtain ⟨value, places, point, digit⟩ := m
    simp [digitBytes]
  | cons c cs ih =>
    have hc := hcs c List.mem_cons_self
    have hbyte := hcs.byte
    have hne : ∀ b : UInt8, b.toNat < 48 ∨ 57 < b.toNat → UInt8.ofNat c.toNat ≠ b := by
      intro b hb heq
      rw [heq] at hbyte
      omega
    have hdigit : 48 ≤ UInt8.ofNat c.toNat ∧ UInt8.ofNat c.toNat ≤ 57 := by
      rw [UInt8.le_iff_toNat_le, UInt8.le_iff_toNat_le, hbyte]
      exact hc
    change m.read (UInt8.ofNat c.toNat :: (digitBytes cs ++ rest)) = _
    rw [read, if_neg (hne 95 (by decide)), if_neg (hne 46 (by decide)), if_pos hdigit,
      ih (fun d hd => hcs d (List.mem_cons_of_mem _ hd)), hbyte, ofDigitChars_ten]
    cases m.point <;> simp [Nat.add_comm, Nat.add_left_comm]

theorem read_point {m : Mantissa} (h : m.point = false) (rest : Bytes) :
    m.read (46 :: rest) = Mantissa.read { m with point := true } rest := by
  rw [read, if_neg (by decide), if_pos rfl, h]
  rfl

end Mantissa

/-- What a decimal without an exponent is read as, by its digits and how many stand after the
point. -/
def Format.ofPlaces (f : Format) (value places : ℕ) : Except NumberError ℕ :=
  if value = 0 then .ok 0
  else
    let exponent : ℤ := 0 - places
    let first := exponent + (Nat.toDigits 10 value).length
    if 310 < first then .error .outOfRange
    else if first < -330 then .ok 0
    else
      let pattern := if exponent < 0 then f.ofRatio? false value (10 ^ exponent.natAbs)
        else f.ofRatio? false (value * 10 ^ exponent.toNat) 1
      match pattern with
      | some bits => .ok bits
      | none => .error .outOfRange

namespace Format
variable {f : Format} {whole fraction : List Char}

theorem read_of_mantissa {s : Bytes} {m : Mantissa} (hm : Mantissa.read {} s = (m, []))
    (hdigit : m.digit = true) (hseparator : (95 : UInt8) ∉ s) :
    f.read s = f.ofPlaces m.value m.places := by
  have hcontains : s.contains 95 = false := by simpa using hseparator
  rw [read, hm]
  dsimp only
  rw [hdigit, Bool.not_true, if_neg (by decide), readScale]
  dsimp only
  rw [hcontains, Bool.false_and, if_neg (by decide)]
  rfl

theorem read_whole (hwhole : Digits whole) (hne : whole ≠ []) :
    f.read (digitBytes whole) = f.ofPlaces (Nat.ofDigitChars 10 whole 0) 0 := by
  have hread := Mantissa.read_digits hwhole {} []
  rw [List.append_nil, Mantissa.read] at hread
  exact read_of_mantissa hread (by simp [hne]) (not_mem_digitBytes hwhole)

theorem read_fraction (hwhole : Digits whole) (hfraction : Digits fraction) (hne : whole ≠ []) :
    f.read (digitBytes whole ++ 46 :: digitBytes fraction) =
      f.ofPlaces (Nat.ofDigitChars 10 (whole ++ fraction) 0) fraction.length := by
  have hread := Mantissa.read_digits hfraction
    { value := Nat.ofDigitChars 10 whole 0, point := true, digit := !whole.isEmpty } []
  rw [List.append_nil, Mantissa.read] at hread
  have hread' : Mantissa.read {} (digitBytes whole ++ 46 :: digitBytes fraction) =
      ({ value := Nat.ofDigitChars 10 (whole ++ fraction) 0
         places := fraction.length, point := true, digit := true }, []) := by
    rw [Mantissa.read_digits hwhole, Mantissa.read_point rfl, Nat.ofDigitChars_append]
    dsimp only
    rw [Bool.false_or, if_neg (by decide), hread]
    simp [hne]
  apply read_of_mantissa hread' rfl
  rw [List.mem_append, List.mem_cons]
  rintro (hmem | hmem | hmem)
  · exact not_mem_digitBytes hwhole hmem
  · cases hmem
  · exact not_mem_digitBytes hfraction hmem

end Format

/-- Digits before and after the point that spell a number of a common size. -/
structure Spelling (v : ℚ) (ws fs : List Char) : Prop where
  whole : Digits ws
  fraction : Digits fs
  nonempty : ws ≠ []
  value : (Nat.ofDigitChars 10 (ws ++ fs) 0 : ℚ) / 10 ^ fs.length = v
  small : (Nat.toDigits 10 (Nat.ofDigitChars 10 (ws ++ fs) 0)).length ≤ fs.length + 310
  large : fs.length ≤ (Nat.toDigits 10 (Nat.ofDigitChars 10 (ws ++ fs) 0)).length + 330

def numeral (ws fs : List Char) : List Char := if fs.isEmpty then ws else ws ++ '.' :: fs

section
variable (d : Decimal)

/-- A decimal whose digits all stand after the point, after `n` zeros. -/
theorem spelling_below {n : ℕ} (hn : n ≤ 330)
    (hexponent : d.exponent = -((n + (Nat.toDigits 10 d.digits).length : ℕ) : ℤ)) :
    Spelling d.value ['0'] (List.replicate n '0' ++ Nat.toDigits 10 d.digits) := by
  have hvalue : Nat.ofDigitChars 10 (['0'] ++ (List.replicate n '0' ++ Nat.toDigits 10 d.digits)) 0 =
      d.digits := by
    rw [Nat.ofDigitChars_append, Nat.ofDigitChars_append, Nat.ofDigitChars_replicate_zero,
      ofDigitChars_ten, Nat.ofDigitChars_nil]
    simp
  have hlength : (List.replicate n '0' ++ Nat.toDigits 10 d.digits).length =
      n + (Nat.toDigits 10 d.digits).length := by simp
  refine ⟨Digits.replicate_zero 1, (Digits.replicate_zero n).append (Digits.toDigits _), by simp,
    ?_, ?_, ?_⟩
  · rw [hvalue, hlength, Decimal.value, hexponent, zpow_neg, zpow_natCast, div_eq_mul_inv]
  · rw [hvalue, hlength]
    omega
  · rw [hvalue, hlength]
    omega

/-- A decimal whose digits all stand before the point, before `n` zeros. -/
theorem spelling_whole {n : ℕ} (hn : (Nat.toDigits 10 d.digits).length + n ≤ 310)
    (hexponent : d.exponent = (n : ℤ)) :
    Spelling d.value (Nat.toDigits 10 d.digits ++ List.replicate n '0') [] := by
  have hvalue : Nat.ofDigitChars 10 (Nat.toDigits 10 d.digits ++ List.replicate n '0' ++ []) 0 =
      10 ^ n * d.digits := by
    rw [List.append_nil, Nat.ofDigitChars_append, Nat.ofDigitChars_replicate_zero,
      Nat.ofDigitChars_ten_toDigits]
  have hpos : 0 < (Nat.toDigits 10 d.digits).length := Nat.length_toDigits_pos
  have hlt : d.digits < 10 ^ (Nat.toDigits 10 d.digits).length :=
    (Nat.length_toDigits_le_iff (by decide) hpos).mp (Nat.le_refl _)
  have hlength : (Nat.toDigits 10 (10 ^ n * d.digits)).length ≤
      n + (Nat.toDigits 10 d.digits).length := by
    rw [Nat.length_toDigits_le_iff (by decide) (by omega), Nat.pow_add]
    exact Nat.mul_lt_mul_of_pos_left hlt (Nat.pow_pos (by decide))
  refine ⟨(Digits.toDigits _).append (Digits.replicate_zero n), nofun, by simp, ?_, ?_, ?_⟩
  · rw [hvalue, Decimal.value, hexponent, zpow_natCast]
    push_cast
    simp [mul_comm]
  · rw [hvalue, List.length_nil]
    omega
  · simp

/-- A decimal with a point between its digits, of which `n` stand before it. -/
theorem spelling_between {n : ℕ} (hn : 0 < n) (hn' : n ≤ 310)
    (hlength : n ≤ (Nat.toDigits 10 d.digits).length)
    (hexponent : d.exponent = -(((Nat.toDigits 10 d.digits).length - n : ℕ) : ℤ)) :
    Spelling d.value ((Nat.toDigits 10 d.digits).take n) ((Nat.toDigits 10 d.digits).drop n) := by
  have hdigits := Digits.toDigits d.digits
  have hvalue : Nat.ofDigitChars 10
      ((Nat.toDigits 10 d.digits).take n ++ (Nat.toDigits 10 d.digits).drop n) 0 = d.digits := by
    rw [List.take_append_drop, Nat.ofDigitChars_ten_toDigits]
  refine ⟨fun c hc => hdigits c (List.mem_of_mem_take hc),
    fun c hc => hdigits c (List.mem_of_mem_drop hc), ?_, ?_, ?_, ?_⟩
  · intro hnil
    rcases List.take_eq_nil_iff.mp hnil with h | h
    · omega
    · exact Nat.toDigits_ne_nil h
  · rw [hvalue, List.length_drop, Decimal.value, hexponent, zpow_neg, zpow_natCast, div_eq_mul_inv]
  · rw [hvalue, List.length_drop]
    omega
  · rw [hvalue, List.length_drop]
    omega

/-- A decimal without an exponent has its digits around the point. -/
theorem exists_positional (hlow : -3 ≤ d.exponent + (Nat.toDigits 10 d.digits).length)
    (hhigh : d.exponent + (Nat.toDigits 10 d.digits).length ≤ 6) :
    ∃ ws fs, Spelling d.value ws fs ∧
      positional (Nat.toDigits 10 d.digits) (d.exponent + (Nat.toDigits 10 d.digits).length) =
        String.ofList (numeral ws fs) := by
  have hne : Nat.toDigits 10 d.digits ≠ [] := Nat.toDigits_ne_nil
  generalize hpoint : d.exponent + ((Nat.toDigits 10 d.digits).length : ℤ) = point at hlow hhigh ⊢
  unfold positional
  split
  next hzero =>
    refine ⟨_, _, spelling_below d (by omega : point.natAbs ≤ 330) (by omega), ?_⟩
    rw [numeral, if_neg (by simp [hne])]
    apply String.toList_injective
    simp
  next hzero =>
    dsimp only
    split
    next hlong =>
      refine ⟨_, _, spelling_whole d (n := point.toNat - (Nat.toDigits 10 d.digits).length) (by omega)
        (by omega), ?_⟩
      rfl
    next hlong =>
      refine ⟨_, _, spelling_between d (by omega : 0 < point.toNat) (by omega) (by omega) (by omega),
        ?_⟩
      rw [numeral, if_neg]
      rw [List.isEmpty_iff, List.drop_eq_nil_iff]
      omega

end

/-- Digits that end with the point get a zero after it. -/
theorem Spelling.point {v : ℚ} {ws : List Char} (h : Spelling v ws []) : Spelling v ws ['0'] := by
  have hvalue : Nat.ofDigitChars 10 (ws ++ ['0']) 0 = Nat.ofDigitChars 10 (ws ++ []) 0 * 10 := by
    rw [Nat.ofDigitChars_append, List.append_nil, ofDigitChars_ten, Nat.ofDigitChars_nil]
    rfl
  have hsmall := h.small
  have hv := h.value
  generalize Nat.ofDigitChars 10 (ws ++ []) 0 = n at *
  refine ⟨h.whole, Digits.replicate_zero 1, h.nonempty, ?_, ?_, ?_⟩
  · rw [hvalue, ← hv]
    push_cast
    simp
  · rw [hvalue]
    have hpos : 0 < (Nat.toDigits 10 n).length := Nat.length_toDigits_pos
    have hlt : n < 10 ^ (Nat.toDigits 10 n).length :=
      (Nat.length_toDigits_le_iff (by decide) hpos).mp (Nat.le_refl _)
    have hlength : (Nat.toDigits 10 (n * 10)).length ≤ (Nat.toDigits 10 n).length + 1 := by
      rw [Nat.length_toDigits_le_iff (by decide) (by omega), Nat.pow_succ]
      omega
    rw [List.length_nil] at hsmall
    rw [List.length_singleton]
    omega
  · rw [List.length_singleton]
    omega

namespace Format
variable {f : Format}

theorem ofPlaces_eq {bits : ℕ} (hbits : bits < f.top * 2 ^ f.fraction)
    (hpos : (f.parts bits).1 ≠ 0) {ws fs : List Char}
    (h : Spelling (f.neighbourhood bits).shortest.value ws fs) :
    f.ofPlaces (Nat.ofDigitChars 10 (ws ++ fs) 0) fs.length = .ok bits := by
  have hsmall := h.small
  have hlarge := h.large
  have hvalue := h.value
  have hpositive := shortest_pos hpos
  generalize Nat.ofDigitChars 10 (ws ++ fs) 0 = n at *
  have hn : n ≠ 0 := by
    rintro rfl
    rw [← hvalue] at hpositive
    simp at hpositive
  have hpattern : (if (0 - fs.length : ℤ) < 0 then
      f.ofRatio? false n (10 ^ (0 - fs.length : ℤ).natAbs)
      else f.ofRatio? false (n * 10 ^ (0 - fs.length : ℤ).toNat) 1) = some bits := by
    split
    next hneg =>
      apply ofRatio?_shortest hbits hpos (pow_ne_zero _ (by decide))
      rw [← hvalue, show (0 - fs.length : ℤ).natAbs = fs.length by omega]
      push_cast
      rfl
    next hneg =>
      apply ofRatio?_shortest hbits hpos one_ne_zero
      rw [← hvalue, show fs.length = 0 by omega]
      simp
  rw [ofPlaces, if_neg hn]
  dsimp only
  rw [if_neg (by omega), if_neg (by omega), hpattern]

structure ReadAs (f : Format) (bits : ℕ) (ws fs : List Char) : Prop where
  whole : Digits ws
  fraction : Digits fs
  nonempty : ws ≠ []
  places : f.ofPlaces (Nat.ofDigitChars 10 (ws ++ fs) 0) fs.length = .ok bits

theorem ReadAs.ofSpelling {bits : ℕ} (hbits : bits < f.top * 2 ^ f.fraction)
    (hpos : (f.parts bits).1 ≠ 0) {ws fs : List Char}
    (h : Spelling (f.neighbourhood bits).shortest.value ws fs) : f.ReadAs bits ws fs :=
  ⟨h.whole, h.fraction, h.nonempty, ofPlaces_eq hbits hpos h⟩

theorem ReadAs.read {bits : ℕ} {ws fs : List Char} (h : f.ReadAs bits ws fs) :
    f.read (digitBytes (numeral ws fs)) = .ok bits := by
  have hplaces := h.places
  unfold numeral
  cases fs with
  | nil =>
    rw [List.append_nil] at hplaces
    rw [List.isEmpty_nil, if_pos rfl, read_whole h.whole h.nonempty]
    exact hplaces
  | cons c cs =>
    rw [List.isEmpty_cons, if_neg (by decide), digitBytes, List.map_append, List.map_cons]
    exact (read_fraction h.whole h.fraction h.nonempty).trans hplaces

end Format

theorem mem_scientific (digits : List Char) (exponent : ℤ) :
    'e' ∈ (scientific digits exponent).toList := by
  unfold scientific
  simp

/-- Without an exponent the point is near the first digit. -/
theorem Decimal.text_positional {d : Decimal} (h : 'e' ∉ d.text.toList) :
    ∃ ws fs, Spelling d.value ws fs ∧ d.text = String.ofList (numeral ws fs) := by
  unfold text at h ⊢
  dsimp only at h ⊢
  split at h
  next hfar => exact absurd (mem_scientific _ _) h
  next hnear =>
    rw [if_neg hnear]
    exact exists_positional d (by omega) (by omega)

namespace Format
variable {f : Format} {bits : ℕ}

theorem text_of_lt (h : bits < f.top * 2 ^ f.fraction) :
    f.text bits = if (f.parts bits).1 = 0 then "0" else (f.neighbourhood bits).shortest.text := by
  have hbiased : decide (f.biased bits = f.top) = false :=
    decide_eq_false (Nat.ne_of_lt (biased_lt_top h))
  rw [text, isNaN, isInfinite, hbiased, negative_of_lt h]
  simp

/-- A finite pattern that is written without an exponent is read back, also with a zero after the
point. -/
theorem exists_readAs (h : bits < f.top * 2 ^ f.fraction) (htext : 'e' ∉ (f.text bits).toList) :
    ∃ ws fs, f.text bits = String.ofList (numeral ws fs) ∧ f.ReadAs bits ws fs ∧
      (fs = [] → f.ReadAs bits ws ['0']) := by
  rw [text_of_lt h] at htext ⊢
  by_cases hzero : (f.parts bits).1 = 0
  · obtain rfl := eq_zero_of_parts h hzero
    rw [if_pos hzero]
    refine ⟨['0'], [], rfl, ?_, fun _ => ?_⟩
    · exact ⟨Digits.replicate_zero 1, nofun, nofun, rfl⟩
    · exact ⟨Digits.replicate_zero 1, Digits.replicate_zero 1, nofun, rfl⟩
  · rw [if_neg hzero] at htext ⊢
    obtain ⟨ws, fs, hspelling, heq⟩ := Decimal.text_positional htext
    refine ⟨ws, fs, heq, .ofSpelling h hzero hspelling, ?_⟩
    rintro rfl
    exact .ofSpelling h hzero hspelling.point

end Format

end RegisterLang.Number
