import Mathlib.Algebra.Order.Field.Power
import Mathlib.Data.Rat.Cast.Order
import Mathlib.Tactic.FieldSimp
import Mathlib.Tactic.Linarith
import Mathlib.Tactic.Ring
import RegisterLang.Number.FloatText

/-!
# Decimals that round to a float

The neighbourhood of a finite float holds the numbers that round to it: a quotient that lies there is
read as the pattern that the neighbourhood was made for. The shortest decimal of a float lies in its
neighbourhood.
-/
namespace RegisterLang.Number

/-- The nearest whole number of `x` is `k`, which is even if another one is as near. -/
def Rounds (x : ℚ) (k : ℕ) : Prop :=
  (k : ℚ) - 1 / 2 ≤ x ∧ x ≤ k + 1 / 2 ∧ (k % 2 = 1 → (k : ℚ) - 1 / 2 < x ∧ x < k + 1 / 2)

theorem roundQuotient_eq {num den k : ℕ} (hden : 0 < den) (h : Rounds ((num : ℚ) / den) k) :
    roundQuotient num den = k := by
  have hden' : (0 : ℚ) < den := by exact_mod_cast hden
  obtain ⟨hlow, hhigh, htie⟩ := h
  rw [div_le_iff₀ hden'] at hhigh
  rw [le_div_iff₀ hden'] at hlow
  rw [div_lt_iff₀ hden', lt_div_iff₀ hden'] at htie
  have hlow' : 2 * (k * den) ≤ 2 * num + den := by
    have : (2 * (k * den) : ℚ) ≤ 2 * num + den := by linarith
    exact_mod_cast this
  have hhigh' : 2 * num ≤ 2 * (k * den) + den := by
    have : (2 * num : ℚ) ≤ 2 * (k * den) + den := by linarith
    exact_mod_cast this
  have htie' : k % 2 = 1 → 2 * (k * den) < 2 * num + den ∧ 2 * num < 2 * (k * den) + den := by
    intro hodd
    obtain ⟨h₁, h₂⟩ := htie hodd
    have h₁' : (2 * (k * den) : ℚ) < 2 * num + den := by linarith
    have h₂' : (2 * num : ℚ) < 2 * (k * den) + den := by linarith
    exact ⟨by exact_mod_cast h₁', by exact_mod_cast h₂'⟩
  have hmod := Nat.mod_lt num hden
  have hdiv := Nat.div_add_mod num den
  rw [Nat.mul_comm] at hdiv
  unfold roundQuotient
  dsimp only
  generalize num / den = q at *
  generalize num % den = r at *
  have hle : q ≤ k := by
    by_contra hlt
    have : (k + 1) * den ≤ q * den := Nat.mul_le_mul_right _ (by omega)
    rw [Nat.add_mul] at this
    omega
  have hle' : k ≤ q + 1 := by
    by_contra hlt
    have : (q + 2) * den ≤ k * den := Nat.mul_le_mul_right _ (by omega)
    rw [Nat.add_mul] at this
    omega
  rcases Nat.eq_or_lt_of_le hle with rfl | hlt
  · split
    · rfl
    · split
      · omega
      · split
        · rfl
        · omega
  · obtain rfl : k = q + 1 := by omega
    rw [Nat.add_mul] at hlow' hhigh' htie'
    split
    · omega
    · split
      · rfl
      · split
        · omega
        · rfl

/-- A whole power as a quotient of powers that are not negative. -/
theorem zpow_eq_div {b : ℕ} (hb : b ≠ 0) (a : ℤ) :
    (b : ℚ) ^ a = ((b ^ a.toNat : ℕ) : ℚ) / ((b ^ (-a).toNat : ℕ) : ℚ) := by
  have hb' : (b : ℚ) ≠ 0 := by exact_mod_cast hb
  rw [Nat.cast_pow, Nat.cast_pow, ← zpow_natCast, ← zpow_natCast, ← zpow_sub₀ hb']
  congr 1
  omega

theorem two_zpow_pos (a : ℤ) : (0 : ℚ) < 2 ^ a := zpow_pos (by norm_num) a

theorem two_zpow_lt {a b : ℤ} : (2 : ℚ) ^ a < 2 ^ b ↔ a < b := zpow_lt_zpow_iff_right₀ (by norm_num)

theorem two_zpow_succ (a : ℤ) : (2 : ℚ) ^ (a + 1) = 2 ^ a * 2 := zpow_add_one₀ (by norm_num) a

/-- A quotient lies below a power of two. -/
theorem div_lt_two_zpow {num den : ℕ} (hden : den ≠ 0) (a : ℤ) :
    (num : ℚ) / den < 2 ^ a ↔
      if a < 0 then num * 2 ^ a.natAbs < den else num < den * 2 ^ a.toNat := by
  have hden' : (0 : ℚ) < den := by exact_mod_cast Nat.pos_of_ne_zero hden
  have hpow : (2 : ℚ) ^ a = ((2 ^ a.toNat : ℕ) : ℚ) / ((2 ^ (-a).toNat : ℕ) : ℚ) :=
    zpow_eq_div (by decide) a
  have hpos : (0 : ℚ) < ((2 ^ (-a).toNat : ℕ) : ℚ) := by exact_mod_cast Nat.two_pow_pos _
  rw [hpow, div_lt_div_iff₀ hden' hpos]
  norm_cast
  split
  next ha =>
    rw [show a.toNat = 0 by omega, show (-a).toNat = a.natAbs by omega, Nat.pow_zero, Nat.one_mul]
  next ha =>
    rw [show (-a).toNat = 0 by omega, Nat.pow_zero, Nat.mul_one, Nat.mul_comm]

/-- The place of the first binary digit of a quotient. -/
theorem log_bounds {num den : ℕ} (hnum : num ≠ 0) (hden : den ≠ 0) :
    let guess : ℤ := (Nat.log2 num : ℤ) - Nat.log2 den
    let low := if guess < 0 then num * 2 ^ guess.natAbs < den else num < den * 2 ^ guess.toNat
    let log := if low then guess - 1 else guess
    (2 : ℚ) ^ log ≤ (num : ℚ) / den ∧ (num : ℚ) / den < 2 ^ (log + 1) := by
  intro guess low log
  have hden' : (0 : ℚ) < den := by exact_mod_cast Nat.pos_of_ne_zero hden
  have hlow : low ↔ (num : ℚ) / den < 2 ^ guess := (div_lt_two_zpow hden guess).symm
  have hguess : (2 : ℚ) ^ guess = 2 ^ Nat.log2 num / 2 ^ Nat.log2 den := by
    rw [zpow_sub₀ (by norm_num), zpow_natCast, zpow_natCast]
  have hn₁ : (2 ^ Nat.log2 num : ℚ) ≤ num := by exact_mod_cast Nat.log2_self_le hnum
  have hn₂ : (num : ℚ) < 2 ^ Nat.log2 num * 2 := by
    rw [← pow_succ]
    exact_mod_cast Nat.lt_log2_self
  have hd₁ : (2 ^ Nat.log2 den : ℚ) ≤ den := by exact_mod_cast Nat.log2_self_le hden
  have hd₂ : (den : ℚ) < 2 ^ Nat.log2 den * 2 := by
    rw [← pow_succ]
    exact_mod_cast Nat.lt_log2_self
  have hp : (0 : ℚ) < 2 ^ Nat.log2 den := by positivity
  by_cases h : low
  · have hlog : log = guess - 1 := if_pos h
    rw [hlog, sub_add_cancel]
    refine ⟨?_, hlow.mp h⟩
    rw [zpow_sub_one₀ (by norm_num), hguess, le_div_iff₀ hden', ← div_eq_mul_inv, div_div,
      div_mul_eq_mul_div, div_le_iff₀ (by positivity)]
    nlinarith
  · have hlog : log = guess := if_neg h
    rw [hlog]
    refine ⟨not_lt.mp fun hlt => h (hlow.mpr hlt), ?_⟩
    rw [two_zpow_succ, hguess, div_lt_iff₀ hden', div_mul_eq_mul_div, div_mul_eq_mul_div,
      lt_div_iff₀ hp]
    nlinarith

/-- The mantissa that a quotient is rounded to, counted in `2 ^ unit`. -/
theorem mantissa_eq {num den k : ℕ} (hden : den ≠ 0) (unit : ℤ)
    (h : Rounds ((num : ℚ) / den / 2 ^ unit) k) :
    (if unit < 0 then roundQuotient (num * 2 ^ unit.natAbs) den
      else roundQuotient num (den * 2 ^ unit.toNat)) = k := by
  have hpow : (2 : ℚ) ^ unit = ((2 ^ unit.toNat : ℕ) : ℚ) / ((2 ^ (-unit).toNat : ℕ) : ℚ) :=
    zpow_eq_div (by decide) unit
  split
  next hneg =>
    apply roundQuotient_eq (Nat.pos_of_ne_zero hden)
    rw [hpow, show unit.toNat = 0 by omega, show (-unit).toNat = unit.natAbs by omega] at h
    have hq : ((num * 2 ^ unit.natAbs : ℕ) : ℚ) / den =
        (num : ℚ) / den / (((2 ^ 0 : ℕ) : ℚ) / ((2 ^ unit.natAbs : ℕ) : ℚ)) := by
      push_cast
      field_simp
    rw [hq]
    exact h
  next hneg =>
    apply roundQuotient_eq (Nat.mul_pos (Nat.pos_of_ne_zero hden) (Nat.two_pow_pos _))
    rw [hpow, show (-unit).toNat = 0 by omega] at h
    have hq : (num : ℚ) / ((den * 2 ^ unit.toNat : ℕ) : ℚ) =
        (num : ℚ) / den / (((2 ^ unit.toNat : ℕ) : ℚ) / ((2 ^ 0 : ℕ) : ℚ)) := by
      push_cast
      field_simp
    rw [hq]
    exact h

def Neighbourhood.Contains (v : Neighbourhood) (r : ℚ) : Prop :=
  (v.low : ℚ) * 2 ^ v.unit ≤ r ∧ r ≤ v.high * 2 ^ v.unit ∧
    (v.closed = false → (v.low : ℚ) * 2 ^ v.unit < r ∧ r < v.high * 2 ^ v.unit)

namespace Format
variable {f : Format}

/-- The pattern of a quotient by the place of its first digit and its rounded mantissa. -/
theorem exists_ofRatio? {num den : ℕ} (hnum : num ≠ 0) (hden : den ≠ 0) :
    ∃ log : ℤ, (2 : ℚ) ^ log ≤ (num : ℚ) / den ∧ (num : ℚ) / den < 2 ^ (log + 1) ∧
      ∀ (unit : ℤ) (k : ℕ), unit = max (log - f.fraction) f.least →
        Rounds ((num : ℚ) / den / 2 ^ unit) k →
        (unit - f.least).toNat * 2 ^ f.fraction + k < f.top * 2 ^ f.fraction →
        f.ofRatio? false num den = some ((unit - f.least).toNat * 2 ^ f.fraction + k) := by
  obtain ⟨hlow, hhigh⟩ := log_bounds hnum hden
  refine ⟨_, hlow, hhigh, ?_⟩
  rintro unit k rfl hround hfinite
  have hm := mantissa_eq hden _ hround
  unfold ofRatio?
  dsimp only
  rw [if_neg hnum, hm, if_neg (Nat.not_le.mpr hfinite)]
  simp

/-- The interval of a float counted in its last place: it ends half a place above the mantissa, and
half a place below it or, just above a power of two, a quarter. -/
theorem neighbourhood_scaled {bits : ℕ} {r : ℚ} (h : (f.neighbourhood bits).Contains r)
    (hpos : (f.parts bits).1 ≠ 0) :
    Rounds (r / 2 ^ (f.parts bits).2) (f.parts bits).1 ∧
      (f.mantissa bits = 0 → 1 < f.biased bits →
        ((f.parts bits).1 : ℚ) - 1 / 4 ≤ r / 2 ^ (f.parts bits).2) := by
  obtain ⟨hlow, hhigh, hopen⟩ := h
  unfold neighbourhood at hlow hhigh hopen
  generalize f.parts bits = parts at *
  obtain ⟨m, q⟩ := parts
  dsimp only at *
  have hq := two_zpow_pos q
  have hunit : (2 : ℚ) ^ (q - 2) = 2 ^ q / 4 := by
    rw [zpow_sub₀ (by norm_num)]
    norm_num
  rw [hunit] at hlow hhigh hopen
  generalize hside : (if f.mantissa bits = 0 ∧ 1 < f.biased bits then 1 else 2) = side at hlow hopen
  have hle : side ≤ 2 := by
    rw [← hside]
    split <;> omega
  have hle' : (side : ℚ) ≤ 2 := by exact_mod_cast hle
  have hcast : ((4 * m - side : ℕ) : ℚ) = 4 * m - side := by
    rw [Nat.cast_sub (by omega)]
    push_cast
    rfl
  rw [hcast] at hlow hopen
  push_cast at hhigh hopen
  refine ⟨⟨?_, ?_, fun hodd => ?_⟩, fun hfraction hbiased => ?_⟩
  · rw [le_div_iff₀ hq]
    nlinarith
  · rw [div_le_iff₀ hq]
    linarith
  · obtain ⟨hlow', hhigh'⟩ := hopen (by simp [hodd])
    rw [lt_div_iff₀ hq, div_lt_iff₀ hq]
    constructor
    · nlinarith
    · linarith
  · rw [if_pos ⟨hfraction, hbiased⟩] at hside
    rw [le_div_iff₀ hq]
    rw [← hside] at hlow
    push_cast at hlow
    linarith

theorem parts_subnormal {bits : ℕ} (h : f.biased bits = 0) :
    f.parts bits = (f.mantissa bits, f.least) := if_pos h

theorem parts_normal {bits : ℕ} (h : f.biased bits ≠ 0) :
    f.parts bits = (2 ^ f.fraction + f.mantissa bits, f.least + (f.biased bits - 1 : ℕ)) := if_neg h

/-- A finite pattern by its exponent and its fraction. -/
theorem biased_mul_add {bits : ℕ} (h : bits < f.top * 2 ^ f.fraction) :
    f.biased bits * 2 ^ f.fraction + f.mantissa bits = bits := by
  have hlt : bits / 2 ^ f.fraction < f.top := Nat.div_lt_of_lt_mul (by rwa [Nat.mul_comm] at h)
  rw [biased, Nat.mod_eq_of_lt (Nat.lt_of_lt_of_le hlt (Nat.sub_le _ _)), mantissa,
    Nat.div_add_mod']

/-- A finite pattern by its parts. -/
theorem parts_pattern {bits : ℕ} (h : bits < f.top * 2 ^ f.fraction) :
    ((f.parts bits).2 - f.least).toNat * 2 ^ f.fraction + (f.parts bits).1 = bits := by
  have hsplit := biased_mul_add h
  by_cases hsubnormal : f.biased bits = 0
  · rw [parts_subnormal hsubnormal]
    rw [hsubnormal] at hsplit
    simpa using hsplit
  · rw [parts_normal hsubnormal]
    dsimp only
    rw [add_sub_cancel_left, Int.toNat_natCast, ← Nat.add_assoc, ← Nat.succ_mul,
      Nat.succ_eq_add_one, Nat.sub_add_cancel (by omega)]
    exact hsplit

theorem parts_le (f : Format) (bits : ℕ) : (f.parts bits).1 + 1 ≤ 2 ^ f.fraction * 2 := by
  have hlt : f.mantissa bits < 2 ^ f.fraction := Nat.mod_lt _ (Nat.two_pow_pos _)
  by_cases hsubnormal : f.biased bits = 0
  · rw [parts_subnormal hsubnormal]
    dsimp only
    omega
  · rw [parts_normal hsubnormal]
    dsimp only
    omega

theorem two_zpow_fraction (f : Format) (a : ℤ) :
    (2 : ℚ) ^ (f.fraction + a) = 2 ^ f.fraction * 2 ^ a := by
  rw [zpow_add₀ (by norm_num), zpow_natCast]

section
variable {r : ℚ} {log : ℤ} (hlog : (2 : ℚ) ^ log ≤ r) (hlog' : r < 2 ^ (log + 1))
include hlog

/-- The least numbers are counted in the least unit. -/
theorem unit_eq_least (h : r < 2 ^ (f.fraction + (f.least + 1))) :
    f.least = max (log - f.fraction) f.least := by
  have hlt := two_zpow_lt.mp (lt_of_le_of_lt hlog h)
  omega

include hlog'

/-- Other numbers are counted in the unit that gives their mantissa its length. -/
theorem unit_eq {q : ℤ} (hq : f.least ≤ q) (hlow : (2 : ℚ) ^ (f.fraction + q) ≤ r)
    (hhigh : r < 2 ^ (f.fraction + (q + 1))) : q = max (log - f.fraction) f.least := by
  have hlt := two_zpow_lt.mp (lt_of_le_of_lt hlog hhigh)
  have hlt' := two_zpow_lt.mp (lt_of_le_of_lt hlow hlog')
  omega

end

/-- Just below a power of two the mantissa is twice as long, and it is rounded up. -/
theorem rounds_carry {q : ℤ} {r : ℚ} (hlow : (2 : ℚ) ^ f.fraction - 1 / 4 ≤ r / 2 ^ q)
    (hhigh : r < 2 ^ (f.fraction + q)) : Rounds (r / 2 ^ (q - 1)) (2 ^ (f.fraction + 1)) := by
  have hpred : (2 : ℚ) ^ q = 2 ^ (q - 1) * 2 := by
    rw [← two_zpow_succ, sub_add_cancel]
  have hdouble : r / 2 ^ (q - 1) = 2 * (r / 2 ^ q) := by
    rw [hpred]
    field_simp
  have hless : r / 2 ^ q < 2 ^ f.fraction := by
    rwa [div_lt_iff₀ (two_zpow_pos q), ← two_zpow_fraction]
  rw [hdouble]
  refine ⟨?_, ?_, fun hodd => ?_⟩
  · push_cast
    rw [pow_succ]
    linarith
  · push_cast
    rw [pow_succ]
    linarith
  · rw [Nat.pow_succ] at hodd
    omega

/-- What lies in the interval of a finite float is rounded to it. -/
theorem ofRatio?_eq_some {bits num den : ℕ} (hbits : bits < f.top * 2 ^ f.fraction)
    (hpos : (f.parts bits).1 ≠ 0) (hnum : num ≠ 0) (hden : den ≠ 0)
    (h : (f.neighbourhood bits).Contains ((num : ℚ) / den)) :
    f.ofRatio? false num den = some bits := by
  obtain ⟨hround, hnarrow⟩ := neighbourhood_scaled h hpos
  obtain ⟨log, hlog, hlog', hratio⟩ := f.exists_ofRatio? hnum hden
  have hpattern := parts_pattern hbits
  generalize (num : ℚ) / den = r at *
  have hq := two_zpow_pos (f.parts bits).2
  have hhigh : r < 2 ^ (f.fraction + ((f.parts bits).2 + 1)) := by
    have hle := (div_le_iff₀ hq).mp hround.2.1
    have hlength : ((f.parts bits).1 : ℚ) + 1 ≤ 2 ^ f.fraction * 2 := by
      exact_mod_cast f.parts_le bits
    rw [two_zpow_fraction, two_zpow_succ]
    nlinarith
  by_cases hcarry : 1 < f.biased bits ∧ r < 2 ^ (f.fraction + (f.parts bits).2)
  · obtain ⟨hbiased, hsmall⟩ := hcarry
    rw [parts_normal (by omega)] at *
    dsimp only at *
    generalize hexponent : f.least + ((f.biased bits - 1 : ℕ) : ℤ) = q at *
    have hzero : f.mantissa bits = 0 := by
      have hge := (le_div_iff₀ hq).mp hround.1
      rw [two_zpow_fraction] at hsmall
      push_cast at hge
      have hlt : (f.mantissa bits : ℚ) < 1 := by nlinarith
      exact Nat.lt_one_iff.mp (by exact_mod_cast hlt)
    have hquarter := hnarrow hzero hbiased
    rw [hzero] at hquarter hpattern
    push_cast at hquarter
    rw [add_zero] at hquarter
    have hbelow : (2 : ℚ) ^ (f.fraction + (q - 1)) ≤ r := by
      have hone : (1 : ℚ) ≤ 2 ^ f.fraction := one_le_pow₀ (by norm_num)
      have hpred : (2 : ℚ) ^ q = 2 ^ (q - 1) * 2 := by
        rw [← two_zpow_succ, sub_add_cancel]
      rw [le_div_iff₀ hq, hpred] at hquarter
      rw [two_zpow_fraction]
      nlinarith [two_zpow_pos (q - 1)]
    have hunit : q - 1 = max (log - f.fraction) f.least :=
      unit_eq hlog hlog' (by omega) hbelow (by rwa [sub_add_cancel])
    have hvalue : (q - 1 - f.least).toNat * 2 ^ f.fraction + 2 ^ (f.fraction + 1) = bits := by
      rw [← hpattern, Nat.add_zero, show (q - f.least).toNat = (q - 1 - f.least).toNat + 1 by omega,
        Nat.add_mul, Nat.pow_succ]
      omega
    rw [hratio (q - 1) _ hunit (rounds_carry hquarter hsmall) (by rwa [hvalue]), hvalue]
  · have hunit : (f.parts bits).2 = max (log - f.fraction) f.least := by
      by_cases hleast : f.biased bits ≤ 1
      · have heq : (f.parts bits).2 = f.least := by
          rw [parts]
          split
          · rfl
          · dsimp only
            omega
        rw [heq] at hhigh ⊢
        exact unit_eq_least hlog hhigh
      · refine unit_eq hlog hlog' ?_ (not_lt.mp fun hlt => hcarry ⟨by omega, hlt⟩) hhigh
        rw [parts_normal (by omega)]
        dsimp only
        omega
    rw [hratio _ _ hunit hround (by rwa [hpattern]), hpattern]

end Format

def Decimal.value (d : Decimal) : ℚ := d.digits * 10 ^ d.exponent

theorem Decimal.value_strip (fuel : ℕ) (d : Decimal) : (d.strip fuel).value = d.value := by
  induction fuel generalizing d with
  | zero => rfl
  | succ fuel ih =>
    rw [strip]
    split
    next hzero =>
      have hdigits : (d.digits : ℚ) = (d.digits / 10 : ℕ) * 10 := by
        exact_mod_cast (Nat.div_mul_cancel (Nat.dvd_of_mod_eq_zero hzero)).symm
      rw [ih, value, value, hdigits, zpow_add_one₀ (by norm_num)]
      ring
    · rfl

namespace Neighbourhood

/-- The fractions of a grid are the numbers that they stand for on one scale. -/
theorem ratio_scaled (unit grid : ℤ) : ∃ scale : ℚ, 0 < scale ∧ ∀ x c : ℕ,
    ((ratio unit grid x).1 : ℚ) = x * 2 ^ unit * scale ∧
      ((c * (ratio unit grid x).2 : ℕ) : ℚ) = c * 10 ^ grid * scale := by
  have htwo : (2 : ℚ) ^ unit = ((2 ^ unit.toNat : ℕ) : ℚ) / ((2 ^ (-unit).toNat : ℕ) : ℚ) :=
    zpow_eq_div (by decide) unit
  have hten : (10 : ℚ) ^ grid = ((10 ^ grid.toNat : ℕ) : ℚ) / ((10 ^ (-grid).toNat : ℕ) : ℚ) :=
    zpow_eq_div (by decide) grid
  refine ⟨((2 ^ (-unit).toNat : ℕ) : ℚ) * ((10 ^ (-grid).toNat : ℕ) : ℚ), ?_, fun x c => ⟨?_, ?_⟩⟩
  · exact_mod_cast Nat.mul_pos (Nat.two_pow_pos _) (Nat.pow_pos (by decide))
  · rw [ratio, htwo]
    push_cast
    field_simp
  · rw [ratio, hten]
    push_cast
    field_simp

theorem contains_of_holds {v : Neighbourhood} {grid : ℤ} {c : ℕ} (h : v.holds grid c = true) :
    v.Contains (c * 10 ^ grid) := by
  obtain ⟨scale, hscale, hratio⟩ := ratio_scaled v.unit grid
  obtain ⟨hlow, hc⟩ := hratio v.low c
  obtain ⟨hhigh, -⟩ := hratio v.high c
  change (if v.closed = true
    then decide ((ratio v.unit grid v.low).1 ≤ c * (ratio v.unit grid v.low).2) &&
      decide (c * (ratio v.unit grid v.low).2 ≤ (ratio v.unit grid v.high).1)
    else decide ((ratio v.unit grid v.low).1 < c * (ratio v.unit grid v.low).2) &&
      decide (c * (ratio v.unit grid v.low).2 < (ratio v.unit grid v.high).1)) = true at h
  split at h
  next hclosed =>
    rw [Bool.and_eq_true, decide_eq_true_iff, decide_eq_true_iff, ← Nat.cast_le (α := ℚ),
      ← Nat.cast_le (α := ℚ), hlow, hc, hhigh] at h
    refine ⟨le_of_mul_le_mul_right h.1 hscale, le_of_mul_le_mul_right h.2 hscale, fun hopen => ?_⟩
    rw [hclosed] at hopen
    cases hopen
  next =>
    rw [Bool.and_eq_true, decide_eq_true_iff, decide_eq_true_iff, ← Nat.cast_lt (α := ℚ),
      ← Nat.cast_lt (α := ℚ), hlow, hc, hhigh] at h
    have hlow' := lt_of_mul_lt_mul_right h.1 hscale.le
    have hhigh' := lt_of_mul_lt_mul_right h.2 hscale.le
    exact ⟨hlow'.le, hhigh'.le, fun _ => ⟨hlow', hhigh'⟩⟩

theorem roundQuotient_cases (num den : ℕ) :
    roundQuotient num den = num / den ∨ roundQuotient num den = num / den + 1 := by
  unfold roundQuotient
  dsimp only
  split
  · exact .inl rfl
  · split
    · exact .inr rfl
    · split
      · exact .inl rfl
      · exact .inr rfl

theorem contains_of_pick? {v : Neighbourhood} {grid : ℤ} {d : Decimal}
    (h : v.pick? grid = some d) : v.Contains d.value := by
  unfold pick? at h
  dsimp only at h
  split at h
  · cases h
  next hc _ =>
    cases h
    exact contains_of_holds hc
  next _ hc =>
    cases h
    exact contains_of_holds hc
  next hc hc' =>
    cases h
    rcases roundQuotient_cases (ratio v.unit grid v.value).1 (ratio v.unit grid v.value).2 with
      heq | heq
    · rw [Decimal.value, heq]
      exact contains_of_holds hc
    · rw [Decimal.value, heq]
      exact contains_of_holds hc'

/-- The shortest decimal of a neighbourhood lies in it. -/
theorem contains_shortest {v : Neighbourhood} (hlow : v.low < v.value) (hhigh : v.value < v.high) :
    v.Contains v.shortest.value := by
  have hexact : v.Contains (v.value * 2 ^ v.unit) := by
    have hunit := two_zpow_pos v.unit
    have hlow' : (v.low : ℚ) * 2 ^ v.unit < v.value * 2 ^ v.unit :=
      mul_lt_mul_of_pos_right (by exact_mod_cast hlow) hunit
    have hhigh' : (v.value : ℚ) * 2 ^ v.unit < v.high * 2 ^ v.unit :=
      mul_lt_mul_of_pos_right (by exact_mod_cast hhigh) hunit
    exact ⟨hlow'.le, hhigh'.le, fun _ => ⟨hlow', hhigh'⟩⟩
  unfold shortest
  dsimp only
  rw [Decimal.value_strip]
  cases hfound : (List.range 17).findSome? fun (n : ℕ) => v.pick? (v.scale - ((n : ℤ) + 1)) with
  | some d =>
    obtain ⟨n, -, hn⟩ := List.exists_of_findSome?_eq_some hfound
    exact contains_of_pick? hn
  | none =>
    rw [Option.getD_none]
    split
    next hneg =>
      have hvalue : Decimal.value ⟨v.value * 5 ^ v.unit.natAbs, v.unit⟩ = v.value * 2 ^ v.unit := by
        have hunit : v.unit = -(v.unit.natAbs : ℤ) := by omega
        generalize v.unit.natAbs = n at hunit
        rw [Decimal.value, hunit, zpow_neg, zpow_neg, zpow_natCast, zpow_natCast,
          show (10 : ℚ) = 5 * 2 by norm_num, mul_pow]
        push_cast
        field_simp
      rw [hvalue]
      exact hexact
    next hneg =>
      have hvalue : Decimal.value ⟨v.value * 2 ^ v.unit.toNat, 0⟩ = v.value * 2 ^ v.unit := by
        have hunit : v.unit = (v.unit.toNat : ℤ) := by omega
        generalize v.unit.toNat = n at hunit
        rw [Decimal.value, hunit, zpow_natCast]
        push_cast
        ring
      rw [hvalue]
      exact hexact

end Neighbourhood

namespace Format
variable {f : Format}

theorem neighbourhood_ordered {bits : ℕ} (hpos : (f.parts bits).1 ≠ 0) :
    0 < (f.neighbourhood bits).low ∧ (f.neighbourhood bits).low < (f.neighbourhood bits).value ∧
      (f.neighbourhood bits).value < (f.neighbourhood bits).high := by
  unfold neighbourhood
  dsimp only
  split <;> omega

theorem shortest_pos {bits : ℕ} (hpos : (f.parts bits).1 ≠ 0) :
    0 < (f.neighbourhood bits).shortest.value := by
  obtain ⟨hlow, hvalue, hhigh⟩ := neighbourhood_ordered hpos
  have hlow' : (0 : ℚ) < (f.neighbourhood bits).low := by exact_mod_cast hlow
  exact lt_of_lt_of_le (mul_pos hlow' (two_zpow_pos _))
    (Neighbourhood.contains_shortest hvalue hhigh).1

/-- A quotient that is the shortest decimal of a finite float is rounded to it. -/
theorem ofRatio?_shortest {bits num den : ℕ} (hbits : bits < f.top * 2 ^ f.fraction)
    (hpos : (f.parts bits).1 ≠ 0) (hden : den ≠ 0)
    (hvalue : (num : ℚ) / den = (f.neighbourhood bits).shortest.value) :
    f.ofRatio? false num den = some bits := by
  obtain ⟨-, hlow, hhigh⟩ := neighbourhood_ordered hpos
  have hcontains := Neighbourhood.contains_shortest hlow hhigh
  have hpositive := shortest_pos hpos
  rw [← hvalue] at hcontains hpositive
  refine ofRatio?_eq_some hbits hpos ?_ hden hcontains
  rintro rfl
  simp at hpositive

end Format

end RegisterLang.Number
