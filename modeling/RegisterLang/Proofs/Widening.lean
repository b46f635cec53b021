import RegisterLang.Proofs.Rounding

/-!
# Floats in a wider format

A finite pattern is a sign and a magnitude. A number that a format has is rounded to its own pattern,
so a single float that was widened to a double and is rounded back is what it was.
-/
namespace RegisterLang.Number.Format

section
variable (f : Format) (bits : ℕ)

def magnitude : ℕ := bits % f.signBit

def IsFinite : Prop := f.magnitude bits < f.top * 2 ^ f.fraction

instance : Decidable (f.IsFinite bits) := inferInstanceAs (Decidable (_ < _))

theorem magnitude_xor : f.magnitude (bits ^^^ f.signBit) = f.magnitude bits := by
  simp [magnitude, signBit, Nat.xor_mod_two_pow]

theorem isFinite_xor : f.IsFinite (bits ^^^ f.signBit) ↔ f.IsFinite bits := by
  unfold IsFinite
  rw [magnitude_xor]

theorem biased_magnitude : f.biased (f.magnitude bits) = f.biased bits := by
  rw [biased, biased, magnitude, signBit, Nat.pow_add, Nat.mod_mul_right_div_self, Nat.mod_mod]

theorem mantissa_magnitude : f.mantissa (f.magnitude bits) = f.mantissa bits := by
  rw [mantissa, mantissa, magnitude, signBit, Nat.pow_add, Nat.mod_mul_right_mod]

theorem parts_magnitude : f.parts (f.magnitude bits) = f.parts bits := by
  rw [parts, parts, biased_magnitude, mantissa_magnitude]

theorem neighbourhood_magnitude : f.neighbourhood (f.magnitude bits) = f.neighbourhood bits := by
  rw [neighbourhood, neighbourhood, parts_magnitude, biased_magnitude, mantissa_magnitude]

end

section
variable {f : Format} {bits : ℕ}

theorem biased_lt_top (h : bits < f.top * 2 ^ f.fraction) : f.biased bits < f.top := by
  have hlt : bits / 2 ^ f.fraction < f.top := Nat.div_lt_of_lt_mul (by rwa [Nat.mul_comm] at h)
  exact Nat.lt_of_le_of_lt (Nat.mod_le _ _) hlt

theorem signBit_pos : 0 < f.signBit := Nat.two_pow_pos _

theorem isFinite_iff : f.IsFinite bits ↔ f.biased bits ≠ f.top := by
  rw [← biased_magnitude]
  refine ⟨fun h => Nat.ne_of_lt (biased_lt_top h), fun h => ?_⟩
  have hlt : f.magnitude bits < 2 ^ f.fraction * 2 ^ f.exponent := by
    rw [← Nat.pow_add]
    exact Nat.mod_lt _ signBit_pos
  have hle : f.magnitude bits / 2 ^ f.fraction < 2 ^ f.exponent := Nat.div_lt_of_lt_mul hlt
  have htop : f.top = 2 ^ f.exponent - 1 := rfl
  rw [biased, Nat.mod_eq_of_lt hle] at h
  exact (Nat.div_lt_iff_lt_mul (Nat.two_pow_pos _)).mp (by omega)

theorem lt_signBit (h : bits < f.top * 2 ^ f.fraction) : bits < f.signBit := by
  refine Nat.lt_of_lt_of_le h ?_
  rw [signBit, Nat.pow_add, Nat.mul_comm]
  exact Nat.mul_le_mul_left _ (Nat.sub_le _ _)

theorem negative_of_lt (h : bits < f.top * 2 ^ f.fraction) : f.negative bits = false := by
  have hlt : bits < 2 ^ (f.fraction + f.exponent) := lt_signBit h
  rw [negative, Nat.div_eq_of_lt hlt]
  rfl

theorem eq_zero_of_parts (h : bits < f.top * 2 ^ f.fraction) (hzero : (f.parts bits).1 = 0) :
    bits = 0 := by
  have hpattern := parts_pattern h
  rw [hzero] at hpattern
  by_cases hbiased : f.biased bits = 0
  · rw [parts_subnormal hbiased] at hpattern
    simpa using hpattern.symm
  · rw [parts_normal hbiased] at hzero
    have hfraction := Nat.two_pow_pos f.fraction
    dsimp only at hzero
    omega

theorem div_signBit (h : bits < f.signBit * 2) :
    bits / f.signBit = if f.negative bits then 1 else 0 := by
  have hlt : bits / f.signBit < 2 := Nat.div_lt_of_lt_mul h
  have hnegative : f.negative bits = decide (bits / f.signBit % 2 = 1) := rfl
  rw [hnegative]
  generalize bits / f.signBit = sign at hlt
  by_cases hsign : sign = 1
  · simp [hsign]
  · obtain rfl : sign = 0 := by omega
    rfl

/-- A pattern by its sign and its magnitude. -/
theorem sign_add_magnitude (h : bits < f.signBit * 2) :
    (if f.negative bits then f.signBit else 0) + f.magnitude bits = bits := by
  have hsplit := Nat.div_add_mod bits f.signBit
  rw [div_signBit h, mul_ite, Nat.mul_one, Nat.mul_zero] at hsplit
  exact hsplit

theorem xor_signBit (h : bits < f.signBit * 2) (hnegative : f.negative bits = true) :
    bits ^^^ f.signBit = f.magnitude bits := by
  have hone : bits / f.signBit = 1 := by rw [div_signBit h, hnegative, if_pos rfl]
  have hquotient : (bits ^^^ f.signBit) / f.signBit = 0 := by
    have hsplit : (bits ^^^ f.signBit) / f.signBit = bits / f.signBit ^^^ f.signBit / f.signBit :=
      Nat.xor_div_two_pow
    rw [hsplit, hone, Nat.div_self signBit_pos, Nat.xor_self]
  have hlt : bits ^^^ f.signBit < f.signBit := (Nat.div_eq_zero_iff_lt signBit_pos).mp hquotient
  rw [← magnitude_xor, magnitude, Nat.mod_eq_of_lt hlt]

theorem magnitude_of_positive (h : bits < f.signBit * 2) (hpositive : f.negative bits = false) :
    f.magnitude bits = bits := by
  have hsplit := sign_add_magnitude h
  rwa [hpositive, if_neg (by decide), Nat.zero_add] at hsplit

def signed (f : Format) (negative : Bool) (size : ℕ) : ℕ :=
  (if negative then f.signBit else 0) + size

theorem magnitude_signed (negative : Bool) (h : bits < f.signBit) :
    f.magnitude (f.signed negative bits) = bits := by
  cases negative with
  | false => rw [signed, if_neg (by decide), Nat.zero_add, magnitude, Nat.mod_eq_of_lt h]
  | true => rw [signed, if_pos rfl, magnitude, Nat.add_mod_left, Nat.mod_eq_of_lt h]

theorem negative_signed (negative : Bool) (h : bits < f.signBit) :
    f.negative (f.signed negative bits) = negative := by
  have hnegative : f.negative (f.signed negative bits) =
    decide (f.signed negative bits / f.signBit % 2 = 1) := rfl
  rw [hnegative]
  cases negative with
  | false => simp [signed, Nat.div_eq_of_lt h]
  | true => simp [signed, Nat.add_div_left _ signBit_pos, Nat.div_eq_of_lt h]

end

section
variable {f : Format}

/-- The size of the number of a finite pattern. -/
def size (f : Format) (bits : ℕ) : ℚ := (f.parts bits).1 * 2 ^ (f.parts bits).2

/-- A number lies in its own interval. -/
theorem contains_size {bits : ℕ} (h : (f.parts bits).1 ≠ 0) :
    (f.neighbourhood bits).Contains (f.size bits) := by
  have hq := two_zpow_pos (f.parts bits).2
  have hunit : (f.neighbourhood bits).unit = (f.parts bits).2 - 2 := rfl
  have hvalue : f.size bits = (f.neighbourhood bits).value * 2 ^ (f.neighbourhood bits).unit := by
    rw [hunit, zpow_sub₀ (by norm_num), size]
    change _ = ((4 * (f.parts bits).1 : ℕ) : ℚ) * _
    push_cast
    ring
  obtain ⟨-, hlow, hhigh⟩ := neighbourhood_ordered h
  have hlow' : ((f.neighbourhood bits).low : ℚ) < (f.neighbourhood bits).value := by
    exact_mod_cast hlow
  have hhigh' : ((f.neighbourhood bits).value : ℚ) < (f.neighbourhood bits).high := by
    exact_mod_cast hhigh
  have hpos := two_zpow_pos (f.neighbourhood bits).unit
  rw [hvalue]
  exact ⟨by gcongr, by gcongr, fun _ => ⟨by gcongr, by gcongr⟩⟩

theorem ofRatio?_signed {negative : Bool} {num den bits : ℕ}
    (h : f.ofRatio? false num den = some bits) :
    f.ofRatio? negative num den = some (f.signed negative bits) := by
  unfold ofRatio? at h ⊢
  simp only [Bool.false_eq_true, if_false, Nat.zero_add] at h
  split at h
  next hnum =>
    rw [if_pos hnum, signed, ← Option.some.inj h, Nat.add_zero]
  next hnum =>
    rw [if_neg hnum]
    obtain ⟨hpattern, hbits⟩ := Option.ite_none_left_eq_some.mp h
    rw [if_neg hpattern, Option.some.inj hbits, signed]

/-- What has the size of a finite pattern is rounded to it. -/
theorem ofScaled_eq {negative : Bool} {m : ℕ} {q : ℤ} {bits : ℕ}
    (hbits : bits < f.top * 2 ^ f.fraction) (h : (m : ℚ) * 2 ^ q = f.size bits) :
    f.ofScaled negative m q = f.signed negative bits := by
  have hratio : ∀ num den : ℕ, den ≠ 0 → (num : ℚ) / den = f.size bits →
      f.ofRatio negative num den = f.signed negative bits := by
    intro num den hden hsize
    have hden' : (den : ℚ) ≠ 0 := by exact_mod_cast hden
    have hround : f.ofRatio? false num den = some bits := by
      by_cases hzero : (f.parts bits).1 = 0
      · rw [size, hzero, Nat.cast_zero, zero_mul, div_eq_zero_iff, or_iff_left hden',
          Nat.cast_eq_zero] at hsize
        rw [eq_zero_of_parts hbits hzero, hsize]
        rfl
      · refine ofRatio?_eq_some hbits hzero ?_ hden (hsize ▸ contains_size hzero)
        rintro rfl
        rw [Nat.cast_zero, zero_div] at hsize
        have hpos := two_zpow_pos (f.parts bits).2
        exact (mul_ne_zero (by exact_mod_cast hzero) hpos.ne') hsize.symm
    rw [ofRatio, ofRatio?_signed hround, Option.getD_some]
  have hpow : (2 : ℚ) ^ q = _ := zpow_eq_div (b := 2) (by decide) q
  rw [hpow] at h
  unfold ofScaled
  split
  next hq =>
    refine hratio _ _ (Nat.two_pow_pos _).ne' ?_
    rw [← h, show q.toNat = 0 by omega, show (-q).toNat = q.natAbs by omega]
    simp [div_eq_mul_inv]
  next hq =>
    refine hratio _ _ (by decide) ?_
    rw [← h, show (-q).toNat = 0 by omega]
    simp

/-- A conversion of a number rounds its size. -/
theorem convert_of_isFinite {source target : Format} {bits : ℕ} (h : source.IsFinite bits) :
    source.convert target bits =
      target.ofScaled (source.negative bits) (source.parts bits).1 (source.parts bits).2 := by
  have hbiased := decide_eq_false (isFinite_iff.mp h)
  rw [convert, isNaN, isInfinite, hbiased]
  rfl

/-- A number whose mantissa and exponent are within a format has a pattern there. -/
theorem exists_size_eq {m : ℕ} {q : ℤ} (hm : m < 2 ^ (f.fraction + 1))
    (hlow : f.least + f.fraction ≤ q) (hhigh : q < f.least + f.top - 1) :
    ∃ bits, bits < f.top * 2 ^ f.fraction ∧ f.size bits = (m : ℚ) * 2 ^ q := by
  have hpow := Nat.two_pow_pos f.fraction
  by_cases hzero : m = 0
  · refine ⟨0, Nat.mul_pos (by omega) hpow, ?_⟩
    simp [hzero, size, parts, biased, mantissa]
  · -- the mantissa is moved up until it has all its digits
    have hlog : m.log2 ≤ f.fraction := Nat.lt_succ_iff.mp ((Nat.log2_lt hzero).mpr hm)
    obtain ⟨shift, hshift⟩ := Nat.exists_eq_add_of_le hlog
    have hself : 2 ^ m.log2 ≤ m := Nat.log2_self_le hzero
    have hnext : m < 2 ^ (m.log2 + 1) := Nat.lt_log2_self
    have hmin : 2 ^ f.fraction ≤ m * 2 ^ shift := by
      rw [hshift, Nat.pow_add]
      exact Nat.mul_le_mul_right _ hself
    have hmax : m * 2 ^ shift < 2 ^ f.fraction * 2 := by
      rw [hshift, ← Nat.pow_succ, Nat.succ_eq_add_one, Nat.add_right_comm, Nat.pow_add]
      exact Nat.mul_lt_mul_of_pos_right hnext (Nat.two_pow_pos _)
    obtain ⟨e, he⟩ : ∃ e : ℕ, q - shift = f.least + e := ⟨(q - shift - f.least).toNat, by omega⟩
    have hbiased : f.biased ((e + 1) * 2 ^ f.fraction + (m * 2 ^ shift - 2 ^ f.fraction)) = e + 1 := by
      have htop : e + 1 < 2 ^ f.exponent := by
        have : f.top = 2 ^ f.exponent - 1 := rfl
        omega
      rw [biased, Nat.add_comm, Nat.add_mul_div_right _ _ hpow, Nat.div_eq_of_lt (by omega),
        Nat.zero_add, Nat.mod_eq_of_lt htop]
    have hmantissa : f.mantissa ((e + 1) * 2 ^ f.fraction + (m * 2 ^ shift - 2 ^ f.fraction)) =
        m * 2 ^ shift - 2 ^ f.fraction := by
      rw [mantissa, Nat.add_comm, Nat.add_mul_mod_self_right, Nat.mod_eq_of_lt (by omega)]
    refine ⟨(e + 1) * 2 ^ f.fraction + (m * 2 ^ shift - 2 ^ f.fraction), ?_, ?_⟩
    · calc
        _ < (e + 1) * 2 ^ f.fraction + 2 ^ f.fraction := by omega
        _ = (e + 2) * 2 ^ f.fraction := by ring
        _ ≤ f.top * 2 ^ f.fraction := Nat.mul_le_mul_right _ (by omega)
    · rw [size, parts_normal (by omega), hbiased, hmantissa]
      dsimp only
      rw [Nat.add_sub_cancel' hmin, Nat.add_sub_cancel, ← he, zpow_sub₀ (by norm_num), zpow_natCast]
      push_cast
      field_simp

end

theorem size_magnitude (f : Format) (bits : ℕ) : f.size (f.magnitude bits) = f.size bits := by
  rw [size, size, parts_magnitude]

theorem parts_single_bounds {bits : ℕ} (h : single.IsFinite bits) :
    (single.parts bits).1 < 2 ^ 24 ∧ -149 ≤ (single.parts bits).2 ∧ (single.parts bits).2 ≤ 104 := by
  have hm := single.parts_le bits
  have hbiased : single.biased bits < 255 := by
    rw [← biased_magnitude]
    exact biased_lt_top h
  refine ⟨hm, ?_⟩
  by_cases hsubnormal : single.biased bits = 0
  · rw [parts_subnormal hsubnormal]
    change -149 ≤ (-149 : ℤ) ∧ (-149 : ℤ) ≤ 104
    decide
  · rw [parts_normal hsubnormal]
    change -149 ≤ (-149 : ℤ) + _ ∧ (-149 : ℤ) + _ ≤ 104
    omega

/-- A single float is what it was when it is widened and rounded back. -/
theorem convert_convert {bits : ℕ} (h : single.IsFinite bits) (hbits : bits < 2 ^ 32) :
    double.convert single (single.convert double bits) = bits := by
  obtain ⟨hm, hlow, hhigh⟩ := parts_single_bounds h
  obtain ⟨wide, hwide, hsize⟩ := double.exists_size_eq (m := (single.parts bits).1)
    (q := (single.parts bits).2) (Nat.lt_trans hm (by decide))
    (Int.le_trans (show _ ≤ -149 by decide) hlow) (Int.lt_of_le_of_lt hhigh (by decide))
  have hfinite : double.IsFinite (double.signed (single.negative bits) wide) := by
    rw [IsFinite, magnitude_signed _ (lt_signBit hwide)]
    exact hwide
  have hback : ((double.parts wide).1 : ℚ) * 2 ^ (double.parts wide).2 =
      single.size (single.magnitude bits) := hsize.trans (single.size_magnitude bits).symm
  rw [convert_of_isFinite h, ofScaled_eq hwide hsize.symm, convert_of_isFinite hfinite,
    ← parts_magnitude, magnitude_signed _ (lt_signBit hwide), negative_signed _ (lt_signBit hwide),
    ofScaled_eq h hback]
  exact sign_add_magnitude hbits

end RegisterLang.Number.Format
