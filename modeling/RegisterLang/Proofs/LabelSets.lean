import Mathlib.Data.Nat.Bitwise
import RegisterLang.Bitmap

/-!
# Numbers in a set

What the words of a set say about its numbers: an added number is in the set, with those that were
there before, and where all numbers below a bound are in the set none of them is found missing.
-/
namespace RegisterLang.Bitmap

theorem toNat_bit {j : Nat} (hj : j < wordSize) : (1 <<< j.toUInt64 : UInt64).toNat = 2 ^ j := by
  unfold wordSize at hj
  have hmod : j % 2 ^ 64 % 64 = j := by omega
  have hpow : 2 ^ j < 2 ^ 64 := Nat.pow_lt_pow_right (by decide) hj
  rw [UInt64.toNat_shiftLeft]
  simp only [UInt64.toNat_one, Nat.toUInt64, UInt64.toNat_ofNat', hmod, Nat.shiftLeft_eq,
    Nat.one_mul]
  exact Nat.mod_eq_of_lt hpow

theorem testBit_eq (w : UInt64) {j : Nat} (hj : j < wordSize) : testBit w j = w.toNat.testBit j := by
  have hzero : w &&& (1 <<< j.toUInt64) = 0 ↔ w.toNat.testBit j = false := by
    rw [← UInt64.toNat_inj, UInt64.toNat_and, toNat_bit hj, Nat.and_two_pow]
    cases w.toNat.testBit j <;> simp
  unfold testBit
  cases hw : w.toNat.testBit j with
  | true => simp [hzero, hw]
  | false => simp [hzero, hw]

theorem testBit_or (v w : UInt64) {j : Nat} (hj : j < wordSize) :
    testBit (v ||| w) j = (testBit v j || testBit w j) := by
  rw [testBit_eq _ hj, testBit_eq _ hj, testBit_eq _ hj, UInt64.toNat_or, Nat.testBit_or]

theorem testBit_one_shiftLeft {j k : Nat} (hj : j < wordSize) (hk : k < wordSize) :
    testBit (1 <<< k.toUInt64) j = decide (j = k) := by
  rw [testBit_eq _ hj, toNat_bit hk, Nat.testBit_two_pow]
  exact decide_eq_decide.mpr eq_comm

theorem getD_grow (s : Bitmap) (i : Int) (j : Nat) :
    (s.grow i).words.getD j 0 = s.words.getD j 0 := by
  unfold grow
  by_cases hj : j < s.words.size
  · rw [Array.getD_eq_getD_getElem?, Array.getElem?_append_left hj, Array.getD_eq_getD_getElem?]
  · have hle : s.words.size ≤ j := Nat.le_of_not_lt hj
    rw [Array.getD_eq_getD_getElem?, Array.getElem?_append_right hle, Array.getElem?_replicate,
      Array.getD_eq_getD_getElem?, Array.getElem?_eq_none hle]
    split <;> rfl

theorem size_grow (s : Bitmap) (i : Nat) : i < (s.grow i).words.size := by
  unfold grow
  rw [Array.size_append, Array.size_replicate, Int.toNat_natCast]
  omega

theorem getD_insert (s : Bitmap) (n j : Nat) :
    (s.insert n).words.getD j 0 =
      if j = n / wordSize then s.words.getD j 0 ||| 1 <<< (n % wordSize).toUInt64
      else s.words.getD j 0 := by
  have hsize := s.size_grow (n / wordSize)
  have hword := s.getD_grow (n / wordSize : Nat) j
  unfold insert
  dsimp only
  rw [Array.getD_eq_getD_getElem?, Array.getElem?_modify]
  by_cases hj : n / wordSize = j
  · subst hj
    rw [if_pos rfl, if_pos rfl, ← hword, Array.getD_eq_getD_getElem?,
      Array.getElem?_eq_getElem hsize]
    rfl
  · rw [if_neg hj, if_neg (Ne.symm hj), ← hword, Array.getD_eq_getD_getElem?]

@[simp] theorem contains_empty (n : Nat) : ({} : Bitmap).contains n = false := by
  have hlt : n % wordSize < wordSize := Nat.mod_lt _ (by decide)
  unfold contains
  rw [testBit_eq _ hlt]
  simp

theorem eq_iff_word_bit {m n : Nat} :
    m = n ↔ m / wordSize = n / wordSize ∧ m % wordSize = n % wordSize := by
  unfold wordSize
  omega

/-- A set contains what was added to it last and what it contained before. -/
theorem contains_insert (s : Bitmap) (n m : Nat) :
    (s.insert n).contains m = (decide (m = n) || s.contains m) := by
  have hm : m % wordSize < wordSize := Nat.mod_lt _ (by decide)
  have hn : n % wordSize < wordSize := Nat.mod_lt _ (by decide)
  unfold contains
  rw [getD_insert]
  by_cases hword : m / wordSize = n / wordSize
  · rw [if_pos hword, testBit_or _ _ hm, testBit_one_shiftLeft hm hn, Bool.or_comm]
    simp only [eq_iff_word_bit (m := m), hword, true_and]
  · rw [if_neg hword]
    simp only [eq_iff_word_bit (m := m), hword, false_and, decide_false, Bool.false_or]

theorem grow_grow (s : Bitmap) (i : Int) : (s.grow i).grow i = s.grow i := by
  unfold grow
  have hzero : i.toNat + 1 - (s.words ++ Array.replicate (i.toNat + 1 - s.words.size) 0).size = 0 := by
    rw [Array.size_append, Array.size_replicate]
    omega
  dsimp only
  rw [hzero, Array.replicate_zero, Array.append_empty]

theorem isSet_natCast (s : Bitmap) (n : Nat) : s.isSet n = .ok (s.contains n) := by
  simp [isSet, fault?]

theorem set_natCast (s : Bitmap) (n : Nat) : s.set n = (s.insert n, none) := by
  have hword : wordIndex n = (n / wordSize : Nat) := rfl
  have hnonneg : ¬ ((n / wordSize : Nat) : Int) < 0 := Int.not_lt.mpr (Int.natCast_nonneg _)
  unfold set
  rw [hword, if_neg hnonneg]
  simp only [fault?, Int.natCast_nonneg, if_true, Int.toNat_natCast, insert, grow_grow]

/-- Testing and adding a number that is not below zero never fails. -/
theorem testAndSet_natCast (s : Bitmap) (n : Nat) :
    s.testAndSet n = (s.insert n, .ok (s.contains n)) := by
  unfold testAndSet
  rw [isSet_natCast, set_natCast]

/-- Whether a number is in the set, by its word and its bit. -/
theorem contains_word (s : Bitmap) (i : Nat) {j : Nat} (hj : j < wordSize) :
    s.contains (i * wordSize + j) = testBit (s.words.getD i 0) j := by
  have hdiv : (i * wordSize + j) / wordSize = i := by
    unfold wordSize at hj ⊢
    omega
  have hmod : (i * wordSize + j) % wordSize = j := by
    unfold wordSize at hj ⊢
    omega
  unfold contains
  rw [hdiv, hmod]

/-- The bit that is found to be the first one missing, and those before it. -/
theorem firstZero_spec (w : UInt64) :
    (∀ j < firstZero w, testBit w j = true) ∧
      (firstZero w < wordSize ∧ testBit w (firstZero w) = false ∨ firstZero w = wordSize) := by
  unfold firstZero
  cases hfind : (List.range wordSize).find? fun j => !testBit w j with
  | none =>
    rw [List.find?_range_eq_none] at hfind
    exact ⟨fun j hj => by simpa using hfind j hj, .inr rfl⟩
  | some k =>
    obtain ⟨hout, hmem, hin⟩ := List.find?_range_eq_some.mp hfind
    exact ⟨fun j hj => by simpa using hin j hj, .inl ⟨List.mem_range.mp hmem, by simpa using hout⟩⟩

/-- Where all numbers below a bound are in the set none is found missing. -/
theorem firstUnsetFrom_eq_none {s : Bitmap} {n : Nat} (h : ∀ m, m < n → s.contains m = true)
    (left i : Nat) : s.firstUnsetFrom n left i = none := by
  induction left generalizing i with
  | zero => rfl
  | succ left ih =>
    have hword : ¬ (firstZero (s.words.getD i 0) < wordSize ∧
        i * wordSize + firstZero (s.words.getD i 0) < n) := by
      rintro ⟨hj, hlt⟩
      obtain ⟨-, hout⟩ | heq := (firstZero_spec (s.words.getD i 0)).2
      · rw [← contains_word _ _ hj, h _ hlt] at hout
        cases hout
      · exact hj.ne heq
    unfold firstUnsetFrom
    dsimp only
    rw [if_neg hword]
    exact ih (i + 1)

theorem firstUnset_eq_none {s : Bitmap} {n : Nat} (h : ∀ m, m < n → s.contains m = true) :
    s.firstUnset n = none :=
  firstUnsetFrom_eq_none h _ 0

end RegisterLang.Bitmap
