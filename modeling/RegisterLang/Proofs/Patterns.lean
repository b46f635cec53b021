import Mathlib.Algebra.Order.Ring.Int
import RegisterLang.Lowering.Emit
import RegisterLang.Machine.Operation
import RegisterLang.Proofs.Encoding
import RegisterLang.Proofs.Reference
import RegisterLang.Proofs.Widening

/-!
# Registers and the patterns that they hold

The low bytes of a register are the pattern of a value. What the machine computes and compares on
registers is what the reference arithmetic computes and compares on these patterns: every word type is
exact up to the multiples of two to its width.
-/
namespace RegisterLang
open Number Lowering

namespace Register

def low (r : Register) (t : RegType) : Nat := r.bits.toNat % 2 ^ (8 * t.size)

theorem toNat_mask (t : RegType) : (mask t).toNat = 2 ^ (8 * t.size) - 1 := by
  have hlt : 2 ^ (8 * t.size) - 1 < 2 ^ 64 := by
    cases t <;> simp [RegType.size]
  simp only [mask, Nat.toUInt64_eq, UInt64.toNat_ofNat']
  exact Nat.mod_eq_of_lt hlt

theorem testBit_mask (t : RegType) (i : Nat) :
    (mask t).toBitVec.getLsbD i = decide (i < 8 * t.size) := by
  rw [BitVec.getLsbD, UInt64.toNat_toBitVec, toNat_mask, Nat.testBit_two_pow_sub_one]

/-- A write of a type is read back by the same type. -/
theorem low_set (r : Register) (t : RegType) (v : UInt64) :
    (r.set t v).low t = v.toNat % 2 ^ (8 * t.size) := by
  apply Nat.eq_of_testBit_eq
  intro i
  simp only [low, set, Nat.testBit_mod_two_pow]
  by_cases hi : i < 8 * t.size
  · have hi' : i < 64 := by have := t.size_le; omega
    simp only [hi, decide_true, Bool.true_and, ← UInt64.toNat_toBitVec, BitVec.testBit_toNat,
      UInt64.toBitVec_or, UInt64.toBitVec_and, UInt64.toBitVec_not, BitVec.getLsbD_or,
      BitVec.getLsbD_and, BitVec.getLsbD_not, testBit_mask, hi']
    simp
  · simp [hi]

/-- A write looks at the low bytes of its value only. -/
theorem set_cut (r : Register) (t : RegType) (v : UInt64) :
    r.set t (v.toNat % 256 ^ t.size).toUInt64 = r.set t v := by
  have hpow : (256 : Nat) ^ t.size = 2 ^ (8 * t.size) := by
    rw [Nat.pow_mul]
  have hlt : v.toNat % 2 ^ (8 * t.size) < 2 ^ 64 := Nat.lt_of_le_of_lt (Nat.mod_le _ _) v.toNat_lt
  have hlow : (v.toNat % 256 ^ t.size).toUInt64 &&& mask t = v &&& mask t := by
    apply UInt64.toNat.inj
    rw [UInt64.toNat_and, UInt64.toNat_and, toNat_mask, Nat.and_two_pow_sub_one_eq_mod,
      Nat.and_two_pow_sub_one_eq_mod, hpow, Nat.toUInt64_eq, UInt64.toNat_ofNat',
      Nat.mod_eq_of_lt hlt, Nat.mod_mod]
  rw [set, set, hlow]

end Register

namespace Reference

theorem named?_eq (functions : List Function) (name : String) :
    named? functions name = function? functions name := rfl

theorem isAbsent_eq (x : Expr) : isAbsent x = x.isMissing := by
  cases x <;> rfl

def kindOf (t : RegType) : Kind :=
  match t with
  | .float => .float .single
  | .double => .float .double
  | _ => .whole t.isSigned (8 * t.size)

theorem kind?_eq (ty : Option Ty) : kind? ty = (regType? ty).map kindOf := by
  cases ty with
  | none => rfl
  | some ty => cases ty <;> rfl

theorem width_kindOf (t : RegType) : (kindOf t).width = 8 * t.size := by
  cases t <;> rfl

theorem reduce_natCast (k : Kind) (n : Nat) : k.reduce n = n % 2 ^ k.width := by
  have hm : (2 ^ k.width : Int) = (2 ^ k.width : Nat) := by simp
  rw [Kind.reduce, hm, ← Int.natCast_emod, Int.toNat_natCast]

theorem reduce_kindOf (t : RegType) (n : Nat) : (kindOf t).reduce n = n % 2 ^ (8 * t.size) := by
  rw [reduce_natCast, width_kindOf]

/-- What is cut to sixty-four bits first is the same pattern. -/
theorem reduce_emod (t : RegType) (n : Int) : (kindOf t).reduce (n % 2 ^ 64) = (kindOf t).reduce n := by
  rw [Kind.reduce, Kind.reduce, width_kindOf, Int.emod_emod_of_dvd]
  apply pow_dvd_pow
  have := t.size_le
  omega

def outcomeOf (t : RegType) : Option UInt64 → Outcome Nat
  | some v => .value (v.toNat % 2 ^ (8 * t.size))
  | none => .divisionByZero

end Reference

namespace Operation
open Reference

/-- Exact arithmetic; quotients are cut off toward zero and remainders have the sign of the dividend.
Nothing is divided by zero. -/
def exactMath (op : Opcode) (x y : Int) : Option Int :=
  match op with
  | .add => some (x + y)
  | .sub => some (x - y)
  | .mul => some (x * y)
  | .div => if y = 0 then none else some (x.tdiv y)
  | _ => if y = 0 then none else some (x.tmod y)

theorem wholeMath_eq {op : Op} {code : Opcode} (hop : mathOp? op = some code) (x y : Int) :
    wholeMath op x y = (exactMath code x y).elim .divisionByZero .value := by
  cases op <;> cases hop
  case add | sub | mul => rfl
  case div | mod =>
    by_cases hy : y = 0 <;> simp [wholeMath, exactMath, hy]

section
variable {α : Type} [Add α] [Sub α] [Mul α] [Div α] [Mod α] [OfNat α 0] [LT α]

/-- How the words of a type stand for numbers: arithmetic is exact up to multiples of `m`, and words
compare like their numbers. -/
structure Exact (m : Int) (val : α → Int) : Prop where
  add : ∀ x y, val (x + y) % m = (val x + val y) % m
  sub : ∀ x y, val (x - y) % m = (val x - val y) % m
  mul : ∀ x y, val (x * y) % m = (val x * val y) % m
  div : ∀ x y, val (x / y) % m = (val x).tdiv (val y) % m
  mod : ∀ x y, val (x % y) % m = (val x).tmod (val y) % m
  zero : val 0 = 0
  inj : ∀ x y, val x = val y → x = y
  lt : ∀ x y, x < y ↔ val x < val y

/-- Words that are bit vectors with a sign. -/
theorem Exact.signed {w : Nat} {bits : α → BitVec w} (hadd : ∀ x y, bits (x + y) = bits x + bits y)
    (hsub : ∀ x y, bits (x - y) = bits x - bits y) (hmul : ∀ x y, bits (x * y) = bits x * bits y)
    (hdiv : ∀ x y, bits (x / y) = (bits x).sdiv (bits y))
    (hmod : ∀ x y, bits (x % y) = (bits x).srem (bits y)) (hzero : bits 0 = 0)
    (hinj : ∀ x y, bits x = bits y → x = y) (hlt : ∀ x y, x < y ↔ (bits x).slt (bits y)) :
    Exact (2 ^ w : Nat) fun x : α => (bits x).toInt where
  add x y := by rw [hadd, BitVec.toInt_add, Int.bmod_emod]
  sub x y := by rw [hsub, BitVec.toInt_sub, Int.bmod_emod]
  mul x y := by rw [hmul, BitVec.toInt_mul, Int.bmod_emod]
  div x y := by rw [hdiv, BitVec.toInt_sdiv, Int.bmod_emod]
  mod x y := by rw [hmod, BitVec.toInt_srem]
  zero := by rw [hzero]; exact BitVec.toInt_zero
  inj x y h := hinj x y (BitVec.toInt_inj.mp h)
  lt x y := by rw [hlt, BitVec.slt_iff_toInt_lt]

/-- Words that are bit vectors without a sign. -/
theorem Exact.unsigned {w : Nat} {bits : α → BitVec w}
    (hadd : ∀ x y, bits (x + y) = bits x + bits y)
    (hsub : ∀ x y, bits (x - y) = bits x - bits y) (hmul : ∀ x y, bits (x * y) = bits x * bits y)
    (hdiv : ∀ x y, bits (x / y) = bits x / bits y) (hmod : ∀ x y, bits (x % y) = bits x % bits y)
    (hzero : bits 0 = 0) (hinj : ∀ x y, bits x = bits y → x = y)
    (hlt : ∀ x y, x < y ↔ bits x < bits y) :
    Exact (2 ^ w : Nat) fun x : α => ((bits x).toNat : Int) where
  add x y := by rw [hadd, BitVec.toNat_add, Int.natCast_emod, Int.emod_emod, Int.natCast_add]
  sub x y := by
    have hy := (bits y).isLt
    rw [hsub, BitVec.toNat_sub, Int.natCast_emod, Int.emod_emod, Int.natCast_add,
      Int.natCast_sub (Nat.le_of_lt hy)]
    rw [show ((2 ^ w : Nat) : Int) - (bits y).toNat + (bits x).toNat =
      (bits x).toNat - (bits y).toNat + (2 ^ w : Nat) by omega, Int.add_emod_right]
  mul x y := by rw [hmul, BitVec.toNat_mul, Int.natCast_emod, Int.emod_emod, Int.natCast_mul]
  div x y := by rw [hdiv, BitVec.toNat_udiv, Int.natCast_ediv, Int.tdiv_eq_ediv_of_nonneg (by simp)]
  mod x y := by rw [hmod, BitVec.toNat_umod, Int.natCast_emod, Int.tmod_eq_emod_of_nonneg (by simp)]
  zero := by simp [hzero]
  inj x y h := hinj x y (BitVec.eq_of_toNat_eq (by exact_mod_cast h))
  lt x y := by rw [hlt, BitVec.lt_def]; exact Int.ofNat_lt.symm

variable [DecidableEq α]

theorem whole_eq_exactMath {m : Int} {val : α → Int} (h : Exact m val) (op : Opcode) (x y : α) :
    (whole op x y).map (fun v => val v % m) = (exactMath op (val x) (val y)).map (· % m) := by
  have hzero : ∀ y, val y = 0 ↔ y = 0 :=
    fun y => ⟨fun hy => h.inj y 0 (hy.trans h.zero.symm), fun hy => hy ▸ h.zero⟩
  unfold whole exactMath
  cases op
  case add => simp [h.add]
  case sub => simp [h.sub]
  case mul => simp [h.mul]
  case div => by_cases hy : y = 0 <;> simp [hzero, hy, h.div]
  all_goals by_cases hy : y = 0 <;> simp [hzero, hy, h.mod]

/-- The machine computes what exact arithmetic gives, where `get` reads a register and `put` writes
the result. -/
theorem compute_whole {t : RegType} {val : α → Int} (h : Exact (2 ^ (8 * t.size) : Nat) val)
    (get : Register → α) (put : α → UInt64)
    (hget : ∀ r, val (get r) = wholeOf t.isSigned (8 * t.size) (r.low t))
    (hput : ∀ v, (put v).toNat % 2 ^ (8 * t.size) = (val v % (2 ^ (8 * t.size) : Nat)).toNat)
    (op : Opcode) (a b : Register) :
    ((whole op (get a) (get b)).map put).map (fun v => v.toNat % 2 ^ (8 * t.size)) =
      (exactMath op (wholeOf t.isSigned (8 * t.size) (a.low t))
        (wholeOf t.isSigned (8 * t.size) (b.low t))).map
          fun n : Int => (n % (2 ^ (8 * t.size) : Nat)).toNat := by
  have hw := congrArg (Option.map Int.toNat) (whole_eq_exactMath h op (get a) (get b))
  rw [hget, hget, Option.map_map, Option.map_map] at hw
  rw [Option.map_map]
  calc
    _ = (whole op (get a) (get b)).map (Int.toNat ∘ fun v => val v % (2 ^ (8 * t.size) : Nat)) := by
      congr 1
      funext v
      exact hput v
    _ = _ := hw

theorem compareWhole_eq [DecidableLT α] {m : Int} {val : α → Int} (h : Exact m val) (x y : α) :
    compareWhole x y = flagsOf (Ord.compare (val x) (val y)) := by
  unfold compareWhole
  by_cases heq : x = y
  · rw [if_pos heq, heq, Int.compare_eq_eq.mpr rfl]
  · have hne : val x ≠ val y := fun hv => heq (h.inj x y hv)
    rw [if_neg heq]
    by_cases hlt : y < x
    · rw [if_pos hlt, Int.compare_eq_gt.mpr ((h.lt y x).mp hlt)]
    · have : val x < val y := by
        have := mt (h.lt y x).mpr hlt
        omega
      rw [if_neg hlt, Int.compare_eq_lt.mpr this]

end

end Operation

namespace Reference

theorem reduce_toUInt64 (t : RegType) (n : Nat) :
    (kindOf t).reduce n.toUInt64.toNat = (kindOf t).reduce n := by
  rw [Nat.toUInt64_eq, UInt64.toNat_ofNat', Int.natCast_emod]
  exact reduce_emod t n

/-- The immediate of a float is the pattern of its number. It is made from the number as a double, which
`wide` is. -/
theorem ofFloat_eq (t : RegType) {f : Format} {bits wide : Nat}
    (hsingle : f.biased bits ≠ f.top →
      Format.double.convert .single wide = if f = .single then bits else f.convert .single bits)
    (hdouble : wide = if f = .double then bits else f.convert .double bits) :
    (kindOf t).ofFloat f bits = .illFormed ∨
      (kindOf t).ofFloat f bits = .value ((kindOf t).reduce (floatBits t wide).toNat) := by
  by_cases hfinite : f.biased bits = f.top
  · left
    cases t <;> simp [kindOf, Kind.ofFloat, hfinite]
  · cases t with
    | float =>
      right
      rw [floatBits, reduce_toUInt64, hsingle hfinite]
      simp [kindOf, Kind.ofFloat, hfinite]
    | double =>
      right
      rw [floatBits, reduce_toUInt64, hdouble]
      simp [kindOf, Kind.ofFloat, hfinite]
    | _ => exact .inl rfl

theorem ofWhole_eq (t : RegType) (v : UInt64) (negative : Bool) :
    (kindOf t).ofWhole negative v.toNat = (kindOf t).reduce (intBits t v negative).toNat := by
  cases hk : kindOf t with
  | float f =>
    have hb : intBits t v negative = (f.ofRatio negative v.toNat 1).toUInt64 := by
      cases t <;> cases hk <;> rfl
    rw [hb, ← hk, reduce_toUInt64, hk]
    rfl
  | whole signed width =>
    have hb : intBits t v negative = if negative then 0 - v else v := by
      cases t <;> first | rfl | cases hk
    rw [hb, Kind.ofWhole, ← hk]
    cases negative with
    | false => rfl
    | true =>
      have hv := v.toNat_lt
      rw [if_pos rfl, if_pos rfl, ← reduce_emod, ← reduce_emod t (0 - v).toNat, UInt64.toNat_sub]
      congr 1
      simp
      omega

/-- The immediate of a literal is its pattern. -/
theorem literal_of_literalBits? {t : RegType} {x : Expr} {bits : UInt64}
    (h : literalBits? t x = some bits) : literal (kindOf t) x = .illFormed ∨
      literal (kindOf t) x = .value ((kindOf t).reduce bits.toNat) := by
  cases x with
  | int pos ty v negative =>
    obtain rfl := Option.some.inj h
    exact .inr (congrArg Outcome.value (ofWhole_eq t v negative))
  | float pos ty b =>
    obtain rfl := Option.some.inj h
    refine ofFloat_eq t (fun hfinite => ?_) (if_neg (by decide)).symm
    exact Format.convert_convert (Format.isFinite_iff.mpr hfinite) b.toNat_lt
  | double pos ty b =>
    obtain rfl := Option.some.inj h
    exact ofFloat_eq t (fun _ => (if_neg (by decide)).symm) rfl
  | char pos ty v =>
    right
    obtain rfl := Option.some.inj h
    have hb : (v.toInt64.toUInt64.toNat : Int) = v.toInt % 2 ^ 64 := by
      have hlt := v.toInt64.toUInt64.toNat_lt
      rw [← Int32.toInt_toInt64, ← Int64.toInt_toBitVec, BitVec.toInt_eq_toNat_bmod,
        Int64.toNat_toBitVec]
      have := @Int.bmod_emod v.toInt64.toUInt64.toNat (2 ^ 64)
      omega
    rw [literal, hb, reduce_emod]
  | _ => cases h

theorem evalExpr_literal {functions : List Function} {call : Caller} {env : Env} {t : RegType}
    {x : Expr} {bits : UInt64} (h : literalBits? t x = some bits) :
    evalExpr functions call env x = Outcome.part (kind? x.type) >>= fun k => literal k x := by
  cases x <;> first | rfl | cases h

theorem low_set_cut (r : Register) (t : RegType) (imm : UInt64) :
    (r.set t (imm.toNat % 256 ^ t.size).toUInt64).low t = (kindOf t).reduce imm.toNat := by
  rw [Register.set_cut, Register.low_set, reduce_kindOf]

end Reference

namespace Operation
open Reference

section
variable {t : RegType}

theorem toInt_setWidth_bits (ht : t.isSigned) (r : Register) :
    (r.bits.toBitVec.setWidth (8 * t.size)).toInt = wholeOf t.isSigned (8 * t.size) (r.low t) := by
  rw [BitVec.toInt_eq_toNat_bmod, BitVec.toNat_setWidth, wholeOf, if_pos ht]
  rfl

theorem toNat_setWidth_bits (ht : t.isSigned = false) (r : Register) :
    ((r.bits.toBitVec.setWidth (8 * t.size)).toNat : Int) =
      wholeOf t.isSigned (8 * t.size) (r.low t) := by
  rw [BitVec.toNat_setWidth, wholeOf, if_neg (by simp [ht])]
  rfl

theorem toNat_setWidth_word (v : BitVec (8 * t.size)) : (v.setWidth 64).toNat % 2 ^ (8 * t.size) =
    ((v.toNat : Int) % (2 ^ (8 * t.size) : Nat)).toNat := by
  have hw : 8 * t.size ≤ 64 := by have := t.size_le; omega
  rw [BitVec.toNat_setWidth_of_le hw, ← Int.natCast_emod, Int.toNat_natCast]

theorem toInt_setWidth_word (v : BitVec (8 * t.size)) : (v.setWidth 64).toNat % 2 ^ (8 * t.size) =
    (v.toInt % (2 ^ (8 * t.size) : Nat)).toNat := by
  rw [toNat_setWidth_word, BitVec.toInt_eq_toNat_bmod, Int.bmod_emod]

end

theorem exact_s8 : Exact (2 ^ 8 : Nat) fun x : Int8 => x.toBitVec.toInt :=
  .signed (fun _ _ => rfl) (fun _ _ => rfl) (fun _ _ => rfl) (fun _ _ => rfl) (fun _ _ => rfl) rfl
    (fun _ _ => Int8.toBitVec.inj) (fun _ _ => Iff.rfl)

theorem exact_s16 : Exact (2 ^ 16 : Nat) fun x : Int16 => x.toBitVec.toInt :=
  .signed (fun _ _ => rfl) (fun _ _ => rfl) (fun _ _ => rfl) (fun _ _ => rfl) (fun _ _ => rfl) rfl
    (fun _ _ => Int16.toBitVec.inj) (fun _ _ => Iff.rfl)

theorem exact_s32 : Exact (2 ^ 32 : Nat) fun x : Int32 => x.toBitVec.toInt :=
  .signed (fun _ _ => rfl) (fun _ _ => rfl) (fun _ _ => rfl) (fun _ _ => rfl) (fun _ _ => rfl) rfl
    (fun _ _ => Int32.toBitVec.inj) (fun _ _ => Iff.rfl)

theorem exact_s64 : Exact (2 ^ 64 : Nat) fun x : Int64 => x.toBitVec.toInt :=
  .signed (fun _ _ => rfl) (fun _ _ => rfl) (fun _ _ => rfl) (fun _ _ => rfl) (fun _ _ => rfl) rfl
    (fun _ _ => Int64.toBitVec.inj) (fun _ _ => Iff.rfl)

theorem exact_u8 : Exact (2 ^ 8 : Nat) fun x : UInt8 => (x.toBitVec.toNat : Int) :=
  .unsigned (fun _ _ => rfl) (fun _ _ => rfl) (fun _ _ => rfl) (fun _ _ => rfl) (fun _ _ => rfl) rfl
    (fun _ _ => UInt8.toBitVec_inj.mp) (fun _ _ => Iff.rfl)

theorem exact_u16 : Exact (2 ^ 16 : Nat) fun x : UInt16 => (x.toBitVec.toNat : Int) :=
  .unsigned (fun _ _ => rfl) (fun _ _ => rfl) (fun _ _ => rfl) (fun _ _ => rfl) (fun _ _ => rfl) rfl
    (fun _ _ => UInt16.toBitVec_inj.mp) (fun _ _ => Iff.rfl)

theorem exact_u32 : Exact (2 ^ 32 : Nat) fun x : UInt32 => (x.toBitVec.toNat : Int) :=
  .unsigned (fun _ _ => rfl) (fun _ _ => rfl) (fun _ _ => rfl) (fun _ _ => rfl) (fun _ _ => rfl) rfl
    (fun _ _ => UInt32.toBitVec_inj.mp) (fun _ _ => Iff.rfl)

theorem exact_u64 : Exact (2 ^ 64 : Nat) fun x : UInt64 => (x.toBitVec.toNat : Int) :=
  .unsigned (fun _ _ => rfl) (fun _ _ => rfl) (fun _ _ => rfl) (fun _ _ => rfl) (fun _ _ => rfl) rfl
    (fun _ _ => UInt64.toBitVec_inj.mp) (fun _ _ => Iff.rfl)

theorem compute_whole_type (op : Opcode) {t : RegType} (hknown : t.isKnown)
    (ht : t.isFloat = false) (a b : Register) :
    (compute op t a b).map (fun v => v.toNat % 2 ^ (8 * t.size)) =
      (exactMath op (wholeOf t.isSigned (8 * t.size) (a.low t))
        (wholeOf t.isSigned (8 * t.size) (b.low t))).map
          fun n : Int => (n % (2 ^ (8 * t.size) : Nat)).toNat := by
  cases t with
  | s8 =>
    exact compute_whole (t := .s8) exact_s8 Register.s8 _ (toInt_setWidth_bits (t := .s8) rfl)
      (fun v => toInt_setWidth_word (t := .s8) v.toBitVec) op a b
  | s16 =>
    exact compute_whole (t := .s16) exact_s16 Register.s16 _ (toInt_setWidth_bits (t := .s16) rfl)
      (fun v => toInt_setWidth_word (t := .s16) v.toBitVec) op a b
  | s32 =>
    exact compute_whole (t := .s32) exact_s32 Register.s32 _ (toInt_setWidth_bits (t := .s32) rfl)
      (fun v => toInt_setWidth_word (t := .s32) v.toBitVec) op a b
  | s64 =>
    exact compute_whole (t := .s64) exact_s64 Register.s64 _ (toInt_setWidth_bits (t := .s64) rfl)
      (fun v => toInt_setWidth_word (t := .s64) v.toBitVec) op a b
  | u8 =>
    exact compute_whole (t := .u8) exact_u8 Register.u8 _ (toNat_setWidth_bits (t := .u8) rfl)
      (fun v => toNat_setWidth_word (t := .u8) v.toBitVec) op a b
  | u16 =>
    exact compute_whole (t := .u16) exact_u16 Register.u16 _ (toNat_setWidth_bits (t := .u16) rfl)
      (fun v => toNat_setWidth_word (t := .u16) v.toBitVec) op a b
  | u32 =>
    exact compute_whole (t := .u32) exact_u32 Register.u32 _ (toNat_setWidth_bits (t := .u32) rfl)
      (fun v => toNat_setWidth_word (t := .u32) v.toBitVec) op a b
  | pointer =>
    exact compute_whole (t := .pointer) exact_u32 Register.u32 _ (toNat_setWidth_bits (t := .pointer) rfl)
      (fun v => toNat_setWidth_word (t := .pointer) v.toBitVec) op a b
  | u64 =>
    have h := compute_whole (t := .u64) exact_u64 Register.u64 id (toNat_setWidth_bits (t := .u64) rfl)
      (fun v => toNat_setWidth_word (t := .u64) v.toBitVec) op a b
    rwa [Option.map_id] at h
  | float => cases ht
  | double => cases ht
  | unknown c h => cases hknown

theorem float_eq_low (r : Register) : r.float = r.low .float := by
  simp [Register.float, Register.u32, Register.low, RegType.size]

theorem double_eq_low (r : Register) : r.double = r.low .double := by
  have hlt := r.bits.toNat_lt
  rw [Register.low, RegType.size, Nat.mod_eq_of_lt hlt]
  rfl

/-- The machine computes what the operation means. -/
theorem math_of_compute {op : Op} {code : Opcode} (hop : mathOp? op = some code) {t : RegType}
    (hknown : t.isKnown) (a b : Register) :
    math op (kindOf t) (a.low t) (b.low t) = outcomeOf t (compute code t a b) := by
  cases ht : t.isFloat with
  | false =>
    have hkind : kindOf t = .whole t.isSigned (8 * t.size) := by
      cases t <;> first | rfl | cases ht
    have h := compute_whole_type code hknown ht a b
    rw [hkind, math, wholeMath_eq hop]
    cases hc : compute code t a b with
    | none =>
      rw [hc, Option.map_none, eq_comm, Option.map_eq_none_iff] at h
      rw [h]
      rfl
    | some v =>
      rw [hc, Option.map_some, eq_comm, Option.map_eq_some_iff] at h
      obtain ⟨n, hn, hv⟩ := h
      rw [hn, outcomeOf, ← hv]
      exact congrArg (fun m : Int => Outcome.value (n % m).toNat) (by simp [Kind.width])
  | true =>
    have hmath : ∀ f x y, floatMath f op x y = .value (float f code x y) := by
      intro f x y
      cases op <;> cases hop <;> rfl
    have hfloat : ∀ f x y, kindOf t = .float f →
        math op (kindOf t) x y = outcomeOf t (some (float f code x y).toUInt64) := by
      intro f x y hkind
      rw [hkind, math, hmath, outcomeOf, ← reduce_kindOf, reduce_toUInt64, hkind]
      rfl
    cases t with
    | float =>
      rw [compute, float_eq_low, float_eq_low]
      exact hfloat .single _ _ rfl
    | double =>
      rw [compute, double_eq_low, double_eq_low]
      exact hfloat .double _ _ rfl
    | _ => cases ht

def flagsOf? : Option Ordering → Flags
  | some o => flagsOf o
  | none => {}

theorem compareWhole_order {α : Type} [Add α] [Sub α] [Mul α] [Div α] [Mod α] [OfNat α 0] [LT α]
    [DecidableEq α] [DecidableLT α] {t : RegType} {m : Int} {val : α → Int} (h : Exact m val)
    (get : Register → α) (hget : ∀ r, val (get r) = wholeOf t.isSigned (8 * t.size) (r.low t))
    (a b : Register) : compareWhole (get a) (get b) =
      flagsOf? (order? (.whole t.isSigned (8 * t.size)) (a.low t) (b.low t)) := by
  rw [compareWhole_eq h, hget, hget]
  rfl

/-- A comparison leaves the flags of the order of the patterns. -/
theorem compare_eq_flagsOf? {t : RegType} (ht : t.isKnown) (a b : Register) :
    compare t a b = flagsOf? (order? (kindOf t) (a.low t) (b.low t)) := by
  cases t with
  | s8 =>
    exact compareWhole_order (t := .s8) exact_s8 Register.s8
      (toInt_setWidth_bits (t := .s8) rfl) a b
  | s16 =>
    exact compareWhole_order (t := .s16) exact_s16 Register.s16
      (toInt_setWidth_bits (t := .s16) rfl) a b
  | s32 =>
    exact compareWhole_order (t := .s32) exact_s32 Register.s32
      (toInt_setWidth_bits (t := .s32) rfl) a b
  | s64 =>
    exact compareWhole_order (t := .s64) exact_s64 Register.s64
      (toInt_setWidth_bits (t := .s64) rfl) a b
  | u8 =>
    exact compareWhole_order (t := .u8) exact_u8 Register.u8
      (toNat_setWidth_bits (t := .u8) rfl) a b
  | u16 =>
    exact compareWhole_order (t := .u16) exact_u16 Register.u16
      (toNat_setWidth_bits (t := .u16) rfl) a b
  | u32 =>
    exact compareWhole_order (t := .u32) exact_u32 Register.u32
      (toNat_setWidth_bits (t := .u32) rfl) a b
  | pointer =>
    exact compareWhole_order (t := .pointer) exact_u32 Register.u32
      (toNat_setWidth_bits (t := .pointer) rfl) a b
  | u64 =>
    exact compareWhole_order (t := .u64) exact_u64 Register.u64
      (toNat_setWidth_bits (t := .u64) rfl) a b
  | float =>
    change compareFloat .single a.float b.float =
      compareFloat .single (a.low .float) (b.low .float)
    rw [float_eq_low, float_eq_low]
  | double =>
    change compareFloat .double a.double b.double =
      compareFloat .double (a.low .double) (b.low .double)
    rw [double_eq_low, double_eq_low]
  | unknown c h => cases ht

theorem taken_jumps {op : Op} {js : List Opcode} (h : jumps? op = some js)
    (o : Option Ordering) :
    compares op o = .value (js.any fun j => taken j (flagsOf? o)) := by
  cases op <;> cases h <;> cases o with
  | none => decide
  | some o => cases o <;> decide

end Operation
end RegisterLang
