import Mathlib.Data.Finset.Sort
import RegisterLang.Proofs.LabelSets

/-!
# Words of bits as finite sets of numbers

A set that is made of words answers like the finite set of the numbers that were added to it and not
taken out since. The answers are also those of loops over the words which look at the lowest bit of
a word, clear it and go on, and which skip the words of which all bits are set.
-/
namespace RegisterLang.Bitmap

/-! ### Changes -/

theorem testBit_and (v w : UInt64) {j : Nat} (hj : j < wordSize) :
    testBit (v &&& w) j = (testBit v j && testBit w j) := by
  rw [testBit_eq _ hj, testBit_eq _ hj, testBit_eq _ hj, UInt64.toNat_and, Nat.testBit_and]

theorem testBit_not (w : UInt64) {j : Nat} (hj : j < wordSize) :
    testBit (~~~w) j = !testBit w j := by
  rw [testBit_eq _ hj, testBit_eq _ hj, ← UInt64.toNat_toBitVec, UInt64.toBitVec_not,
    BitVec.testBit_toNat, BitVec.getLsbD_not, decide_eq_true (by exact hj : j < 64), Bool.true_and]
  rfl

@[simp] theorem testBit_zero (j : Nat) : testBit 0 j = false := by
  simp [testBit]

theorem getD_erase (s : Bitmap) (n j : Nat) :
    (s.erase n).words.getD j 0 =
      if j = n / wordSize then s.words.getD j 0 &&& ~~~(1 <<< (n % wordSize).toUInt64)
      else s.words.getD j 0 := by
  unfold erase
  rw [Array.getD_eq_getD_getElem?, Array.getElem?_modify, Array.getD_eq_getD_getElem?]
  by_cases hj : n / wordSize = j
  · rw [if_pos hj, if_pos hj.symm]
    cases s.words[j]? with
    | none => simp
    | some w => rfl
  · rw [if_neg hj, if_neg (Ne.symm hj)]

/-- A number that is taken out is no longer in the set, and all others stay. -/
theorem contains_erase (s : Bitmap) (n m : Nat) :
    (s.erase n).contains m = (decide (m ≠ n) && s.contains m) := by
  have hm : m % wordSize < wordSize := Nat.mod_lt _ (by decide)
  have hn : n % wordSize < wordSize := Nat.mod_lt _ (by decide)
  unfold contains
  rw [getD_erase]
  by_cases hword : m / wordSize = n / wordSize
  · rw [if_pos hword, testBit_and _ _ hm, testBit_not _ hm, testBit_one_shiftLeft hm hn,
      Bool.and_comm]
    simp only [ne_eq, eq_iff_word_bit (m := m), hword, true_and, decide_not]
  · rw [if_neg hword]
    simp [eq_iff_word_bit (m := m), hword]

theorem contains_reset (s : Bitmap) (m : Nat) : s.reset.contains m = false := by
  unfold contains reset
  rw [Array.getD_eq_getD_getElem?, Array.getElem?_map]
  cases s.words[m / wordSize]? <;> simp

theorem contains_make (n : Int) (m : Nat) : (make n).contains m = false := by
  unfold contains make
  rw [Array.getD_eq_getD_getElem?, Array.getElem?_replicate]
  split <;> simp

theorem clear_natCast (s : Bitmap) (n : Nat) : s.clear n = (s.erase n, none) := by
  simp [clear, fault?]

/-! ### The numbers in ascending order -/

theorem mem_wordElements {w : UInt64} {j : Nat} :
    j ∈ wordElements w ↔ j < wordSize ∧ testBit w j = true := by
  simp [wordElements]

theorem wordElements_ascending (w : UInt64) : (wordElements w).Pairwise (· < ·) :=
  List.pairwise_lt_range.filter _

def numbersFrom (i : Nat) (ws : List UInt64) : List Nat :=
  (ws.zipIdx i).flatMap fun (w, i) => (wordElements w).map (i * wordSize + ·)

@[simp] theorem numbersFrom_nil (i : Nat) : numbersFrom i [] = [] := rfl

theorem numbersFrom_cons (i : Nat) (w : UInt64) (ws : List UInt64) :
    numbersFrom i (w :: ws) = (wordElements w).map (i * wordSize + ·) ++ numbersFrom (i + 1) ws :=
  rfl

theorem le_of_mem_numbersFrom {i n : Nat} {ws : List UInt64} (h : n ∈ numbersFrom i ws) :
    i * wordSize ≤ n := by
  induction ws generalizing i with
  | nil => simp at h
  | cons w ws ih =>
    rw [numbersFrom_cons, List.mem_append, List.mem_map] at h
    obtain ⟨j, -, rfl⟩ | h := h
    · exact Nat.le_add_right _ _
    · exact Nat.le_trans (Nat.mul_le_mul_right _ (Nat.le_succ i)) (ih h)

theorem numbersFrom_ascending (i : Nat) (ws : List UInt64) :
    (numbersFrom i ws).Pairwise (· < ·) := by
  induction ws generalizing i with
  | nil => exact .nil
  | cons w ws ih =>
    rw [numbersFrom_cons, List.pairwise_append]
    refine ⟨(wordElements_ascending w).map _ fun _ _ hlt => Nat.add_lt_add_left hlt _, ih (i + 1), ?_⟩
    intro a ha b hb
    obtain ⟨j, hj, rfl⟩ := List.mem_map.mp ha
    have hlt := (mem_wordElements.mp hj).1
    have hle := le_of_mem_numbersFrom hb
    rw [Nat.succ_mul] at hle
    omega

theorem length_numbersFrom (i : Nat) (ws : List UInt64) :
    (numbersFrom i ws).length = (ws.map fun w => (wordElements w).length).sum := by
  induction ws generalizing i with
  | nil => rfl
  | cons w ws ih =>
    rw [numbersFrom_cons, List.length_append, List.length_map, ih, List.map_cons, List.sum_cons]

theorem elements_eq (s : Bitmap) : s.elements = numbersFrom 0 s.words.toList := rfl

theorem mem_elements {s : Bitmap} {n : Nat} : n ∈ s.elements ↔ s.contains n = true := by
  unfold elements
  simp only [List.mem_flatMap, Prod.exists, List.mk_mem_zipIdx_iff_getElem?, List.mem_map,
    mem_wordElements, Array.getElem?_toList]
  constructor
  · rintro ⟨w, i, hw, j, ⟨hj, hbit⟩, rfl⟩
    rw [contains_word _ _ hj, Array.getD_eq_getD_getElem?, hw]
    exact hbit
  · intro h
    have hj : n % wordSize < wordSize := Nat.mod_lt _ (by decide)
    unfold contains at h
    rw [Array.getD_eq_getD_getElem?] at h
    cases hw : s.words[n / wordSize]? with
    | none =>
      rw [hw, Option.getD_none, testBit_zero] at h
      cases h
    | some w =>
      rw [hw] at h
      exact ⟨w, n / wordSize, hw, n % wordSize, ⟨hj, h⟩, Nat.div_add_mod' n wordSize⟩

def StandsFor (s : Bitmap) (A : Finset Nat) : Prop := ∀ n, s.contains n = true ↔ n ∈ A

section
variable {s : Bitmap} {A : Finset Nat} (h : s.StandsFor A)
include h

theorem StandsFor.contains_eq (n : Nat) : s.contains n = decide (n ∈ A) := by
  rw [Bool.eq_iff_iff, h n, decide_eq_true_iff]

theorem StandsFor.elements_eq_sort : s.elements = A.sort (· ≤ ·) := by
  apply (numbersFrom_ascending 0 s.words.toList).eq_of_mem_iff A.sortedLT_sort.pairwise
  intro n
  rw [← elements_eq, mem_elements, h n, Finset.mem_sort]

theorem StandsFor.size_eq_card : s.size = A.card := by
  rw [← A.length_sort (· ≤ ·), ← h.elements_eq_sort, elements_eq, length_numbersFrom, size,
    ← Array.foldl_toList, ← List.foldl_map (g := fun n m => n + m), List.sum_eq_foldl]

end

/-! ### The least number that is missing -/

/-- What is found by a search of `left` words from word `i` on, before which nothing is missing. -/
theorem firstUnsetFrom_spec {s : Bitmap} {n i : Nat}
    (hbefore : ∀ m < n, m < i * wordSize → s.contains m = true) (left : Nat) :
    match s.firstUnsetFrom n left i with
    | some k => k < n ∧ s.contains k = false ∧ ∀ m < k, s.contains m = true
    | none => ∀ m < n, m < (i + left) * wordSize → s.contains m = true := by
  induction left generalizing i with
  | zero => exact hbefore
  | succ left ih =>
    obtain ⟨hset, hfirst⟩ := firstZero_spec (s.words.getD i 0)
    -- all numbers before the first bit of the word that is missing are in the set
    have hupTo : ∀ m < n, m < i * wordSize + firstZero (s.words.getD i 0) →
        s.contains m = true := by
      intro m hmn hm
      by_cases hword : m < i * wordSize
      · exact hbefore m hmn hword
      · obtain ⟨j, rfl⟩ := Nat.exists_eq_add_of_le (Nat.le_of_not_lt hword)
        have hj : j < firstZero (s.words.getD i 0) := by omega
        rw [contains_word _ _ (by omega)]
        exact hset j hj
    unfold firstUnsetFrom
    dsimp only
    by_cases hfound : firstZero (s.words.getD i 0) < wordSize ∧
        i * wordSize + firstZero (s.words.getD i 0) < n
    · rw [if_pos hfound]
      refine ⟨hfound.2, ?_, fun m hm => hupTo m (hm.trans hfound.2) hm⟩
      obtain ⟨-, hout⟩ | hfull := hfirst
      · rwa [contains_word _ _ hfound.1]
      · exact absurd hfull hfound.1.ne
    · rw [if_neg hfound, Nat.add_comm left, ← Nat.add_assoc]
      apply ih
      intro m hmn hm
      rw [Nat.succ_mul] at hm
      apply hupTo m hmn
      omega

section
variable {s : Bitmap} {A : Finset Nat} (h : s.StandsFor A)
include h

theorem StandsFor.firstUnset_spec (n : Int) :
    match s.firstUnset n with
    | some k => IsLeast {k : Nat | (k : Int) < n ∧ k ∉ A} k
    | none => ∀ k : Nat, (k : Int) < n → k ∈ A := by
  have hspec := firstUnsetFrom_spec (s := s) (n := n.toNat) (i := 0) (by simp)
    ((n.toNat + wordSize - 1) / wordSize)
  unfold firstUnset
  generalize s.firstUnsetFrom n.toNat ((n.toNat + wordSize - 1) / wordSize) 0 = r at hspec
  cases r with
  | none =>
    intro k hk
    rw [← h k]
    apply hspec k (by omega)
    unfold wordSize
    omega
  | some k =>
    obtain ⟨hlt, hout, hbefore⟩ := hspec
    refine ⟨⟨by omega, fun hk => ?_⟩, fun m hm => ?_⟩
    · rw [(h k).mpr hk] at hout
      cases hout
    · by_contra hmk
      exact hm.2 ((h m).mp (hbefore m (Nat.lt_of_not_le hmk)))

theorem StandsFor.firstUnset_eq_some_iff {n : Int} {k : Nat} :
    s.firstUnset n = some k ↔ IsLeast {k : Nat | (k : Int) < n ∧ k ∉ A} k := by
  have hspec := h.firstUnset_spec n
  constructor
  · intro hk
    rwa [hk] at hspec
  · intro hk
    cases hr : s.firstUnset n with
    | none =>
      rw [hr] at hspec
      exact absurd (hspec k hk.1.1) hk.1.2
    | some m =>
      rw [hr] at hspec
      rw [hspec.unique hk]

theorem StandsFor.firstUnset_eq_none_iff {n : Int} :
    s.firstUnset n = none ↔ ∀ k : Nat, (k : Int) < n → k ∈ A := by
  have hspec := h.firstUnset_spec n
  constructor
  · intro hnone
    rwa [hnone] at hspec
  · intro hall
    cases hr : s.firstUnset n with
    | none => rfl
    | some k =>
      rw [hr] at hspec
      exact absurd (hall k hspec.1.1) hspec.1.2

end

/-! ### Loops over the words -/

/-- The place of the lowest bit of a word, sixty-four if no bit is set. -/
def lowest (w : UInt64) : Nat := w.toBitVec.ctz.toNat

def clearLowest (w : UInt64) : UInt64 := w &&& ~~~(1 <<< (lowest w).toUInt64)

theorem testBit_of_lt_lowest {w : UInt64} {j : Nat} (hw : j < wordSize) (h : j < lowest w) :
    testBit w j = false := by
  rw [testBit_eq _ hw]
  exact BitVec.getLsbD_false_of_lt_ctz h

theorem lowest_lt {w : UInt64} (h : w ≠ 0) : lowest w < wordSize := by
  have hne : w.toBitVec ≠ 0#64 := fun heq => h (UInt64.eq_of_toBitVec_eq heq)
  exact BitVec.ctz_lt_iff_ne_zero.mpr hne

theorem testBit_lowest {w : UInt64} (h : w ≠ 0) : testBit w (lowest w) = true := by
  rw [testBit_eq _ (lowest_lt h)]
  exact BitVec.getLsbD_true_ctz_of_ne_zero fun heq => h (UInt64.eq_of_toBitVec_eq heq)

theorem testBit_clearLowest {w : UInt64} (h : w ≠ 0) {j : Nat} (hj : j < wordSize) :
    testBit (clearLowest w) j = (testBit w j && decide (j ≠ lowest w)) := by
  rw [clearLowest, testBit_and _ _ hj, testBit_not _ hj, testBit_one_shiftLeft hj (lowest_lt h),
    decide_not]

/-- The numbers of a word are its lowest one and those that are left without it. -/
theorem wordElements_eq_cons {w : UInt64} (h : w ≠ 0) :
    wordElements w = lowest w :: wordElements (clearLowest w) := by
  have hmem : ∀ j, j ∈ wordElements (clearLowest w) ↔ j ∈ wordElements w ∧ j ≠ lowest w := by
    intro j
    rw [mem_wordElements, mem_wordElements, and_assoc]
    refine and_congr_right fun hj => ?_
    rw [testBit_clearLowest h hj, Bool.and_eq_true, decide_eq_true_iff]
  have hlowest : lowest w ∈ wordElements w := mem_wordElements.mpr ⟨lowest_lt h, testBit_lowest h⟩
  apply (wordElements_ascending w).eq_of_mem_iff
  · refine List.pairwise_cons.mpr ⟨fun j hj => ?_, wordElements_ascending _⟩
    obtain ⟨hjw, hne⟩ := (hmem j).mp hj
    obtain ⟨hlt, hbit⟩ := mem_wordElements.mp hjw
    by_contra hnot
    rw [testBit_of_lt_lowest hlt (by omega)] at hbit
    cases hbit
  · intro j
    rw [List.mem_cons, hmem]
    by_cases hj : j = lowest w
    · simp [hj, hlowest]
    · simp [hj]

theorem wordElements_zero : wordElements 0 = [] := by
  simp [wordElements]

section
variable {σ : Type} (f : σ → Nat → σ × Bool)

def visitBits (base : Nat) (state : σ) (w : UInt64) : σ × Bool :=
  if w = 0 then (state, true)
  else
    match f state (base + lowest w) with
    | (state, true) => visitBits base state (clearLowest w)
    | (state, false) => (state, false)
termination_by (wordElements w).length
decreasing_by
  rw [wordElements_eq_cons ‹¬w = 0›]
  exact Nat.lt_succ_self _

def visitWords (state : σ) (i : Nat) : List UInt64 → σ
  | [] => state
  | w :: ws =>
    match visitBits f (i * wordSize) state w with
    | (state, true) => visitWords state (i + 1) ws
    | (state, false) => state

variable {f}

theorem visit_wordElements (base : Nat) (state : σ) (w : UInt64) (rest : List Nat) :
    visit f state ((wordElements w).map (base + ·) ++ rest) =
      match visitBits f base state w with
      | (state, true) => visit f state rest
      | (state, false) => state := by
  fun_induction visitBits f base state w with
  | case1 state => rw [wordElements_zero]; rfl
  | case2 state w hw state' hf ih =>
    rw [wordElements_eq_cons hw, List.map_cons, List.cons_append, visit, hf]
    exact ih
  | case3 state w hw state' hf =>
    rw [wordElements_eq_cons hw, List.map_cons, List.cons_append, visit, hf]
    rfl

theorem visit_numbersFrom (state : σ) (i : Nat) (ws : List UInt64) :
    visit f state (numbersFrom i ws) = visitWords f state i ws := by
  induction ws generalizing state i with
  | nil => rfl
  | cons w ws ih =>
    rw [numbersFrom_cons, visit_wordElements, visitWords]
    simp only [ih]

end

/-- The numbers are visited word by word and bit by bit. -/
theorem range_eq_visitWords {σ : Type} (s : Bitmap) (f : σ → Nat → σ × Bool) (start : σ) :
    s.range f start = visitWords f start 0 s.words.toList :=
  visit_numbersFrom start 0 s.words.toList

/-- The bits of a word that are set, counted. -/
theorem length_wordElements (w : UInt64) : (wordElements w).length = w.toBitVec.cpop.toNat := by
  have hcount : ∀ k ≤ wordSize,
      ((List.range k).filter (testBit w)).length = w.toBitVec.cpopNatRec k 0 := by
    intro k hk
    induction k with
    | zero => rfl
    | succ k ih =>
      have hbit : testBit w k = w.toBitVec.getLsbD k := testBit_eq w hk
      rw [List.range_succ, List.filter_append, List.length_append, ih (by omega),
        BitVec.cpopNatRec_succ, BitVec.cpopNatRec_eq (0 + _), Nat.zero_add, List.filter_singleton,
        hbit]
      cases w.toBitVec.getLsbD k <;> rfl
  rw [BitVec.toNat_cpop]
  exact hcount wordSize (Nat.le_refl _)

theorem size_eq_ones (s : Bitmap) :
    s.size = s.words.foldl (fun n w => n + w.toBitVec.cpop.toNat) 0 := by
  unfold size
  simp only [length_wordElements]

theorem lowest_zero : lowest 0 = wordSize := by
  have hreverse : (0#64).reverse = 0#64 := BitVec.reverse_eq_zero_iff.mpr rfl
  have hclz : (0#64).clz = 64#64 := BitVec.clz_eq_iff_eq_zero.mpr rfl
  have hctz : (0#64).ctz = 64#64 := by rw [BitVec.ctz, hreverse, hclz]
  exact congrArg BitVec.toNat hctz

/-- The first bit that is missing is the lowest one of the complement. -/
theorem firstZero_eq_lowest (w : UInt64) : firstZero w = lowest (~~~w) := by
  obtain ⟨hset, hfirst⟩ := firstZero_spec w
  by_cases hfull : ~~~w = 0
  · obtain ⟨hlt, hout⟩ | heq := hfirst
    · rw [← Bool.not_eq_true', ← testBit_not _ hlt, hfull, testBit_zero] at hout
      cases hout
    · rw [heq, hfull, lowest_zero]
  · have hlowest := testBit_lowest hfull
    rw [testBit_not _ (lowest_lt hfull), Bool.not_eq_true'] at hlowest
    apply Nat.le_antisymm
    · by_contra hlt
      rw [hset _ (Nat.lt_of_not_le hlt)] at hlowest
      cases hlowest
    · by_contra hlt
      have hbit := testBit_of_lt_lowest (by have := lowest_lt hfull; omega) (Nat.lt_of_not_le hlt)
      obtain ⟨hword, hout⟩ | heq := hfirst
      · rw [testBit_not _ hword, hout] at hbit
        cases hbit
      · have := lowest_lt hfull
        omega

def searchFrom (s : Bitmap) (n : Int) (i : Nat) : Int :=
  if (i : Int) < n then
    let j := lowest (~~~s.words.getD (i / wordSize) 0)
    if j < wordSize ∧ ((i + j : Nat) : Int) < n then (i + j : Nat)
    else searchFrom s n (i + wordSize)
  else -1
termination_by (n - i).toNat
decreasing_by
  unfold wordSize
  omega

theorem searchFrom_eq {s : Bitmap} {n : Int} {i left : Nat}
    (h : (n.toNat + wordSize - 1) / wordSize = i + left) :
    s.searchFrom n (i * wordSize) = ((s.firstUnsetFrom n.toNat left i).map (↑)).getD (-1) := by
  induction left generalizing i with
  | zero =>
    rw [searchFrom, if_neg]
    · rfl
    · unfold wordSize at h ⊢
      omega
  | succ left ih =>
    have hlt : ((i * wordSize : Nat) : Int) < n := by
      unfold wordSize at h ⊢
      omega
    have hword : i * wordSize / wordSize = i := Nat.mul_div_cancel _ (by decide)
    have hbound : ∀ k : Nat, (k : Int) < n ↔ k < n.toNat := by
      omega
    rw [searchFrom, if_pos hlt, hword, ← Nat.succ_mul, ih (by omega), firstUnsetFrom,
      firstZero_eq_lowest]
    simp only [hbound]
    split <;> rfl

theorem firstUnset_eq_searchFrom (s : Bitmap) (n : Int) :
    s.searchFrom n 0 = ((s.firstUnset n).map (↑)).getD (-1) := by
  have h := searchFrom_eq (s := s) (n := n) (i := 0) (Nat.zero_add _).symm
  rwa [Nat.zero_mul] at h

/-! ### Visitors that stop -/

section
variable {σ : Type} (f : σ → Nat → σ × Bool)

def stateAfter (start : σ) (seen : List Nat) : σ := seen.foldl (fun state n => (f state n).1) start

/-- Of all numbers those in `seen` are visited, which are the first ones: the visitor goes on after
each of them but the last, and where there are more it declines to go on after the last. -/
structure Visits (start : σ) (all seen : List Nat) (result : σ) : Prop where
  first : seen <+: all
  result : result = stateAfter f start seen
  goesOn : ∀ before n after, seen = before ++ n :: after → after ≠ [] →
    (f (stateAfter f start before) n).2 = true
  stops : seen ≠ all → ∃ before n, seen = before ++ [n] ∧ (f (stateAfter f start before) n).2 = false

theorem visits_visit (start : σ) (all : List Nat) :
    ∃ seen, Visits f start all seen (visit f start all) := by
  induction all generalizing start with
  | nil => exact ⟨[], List.prefix_rfl, rfl, by simp, by simp⟩
  | cons n rest ih =>
    rcases hf : f start n with ⟨state, goOn⟩
    rw [visit, hf]
    cases goOn with
    | true =>
      obtain ⟨seen, hseen⟩ := ih state
      have hcons : ∀ before, stateAfter f start (n :: before) = stateAfter f state before := by
        intro before
        rw [stateAfter, List.foldl_cons, hf, stateAfter]
      refine ⟨n :: seen, List.cons_prefix_cons.mpr ⟨rfl, hseen.first⟩, ?_, ?_, ?_⟩
      · rw [hcons]
        exact hseen.result
      · intro before m after heq hmore
        cases before with
        | nil =>
          obtain ⟨rfl, -⟩ := List.cons_eq_cons.mp heq
          exact congrArg Prod.snd hf
        | cons b before =>
          obtain ⟨rfl, htail⟩ := List.cons_eq_cons.mp heq
          rw [hcons]
          exact hseen.goesOn before m after htail hmore
      · intro hne
        obtain ⟨before, m, heq, hstop⟩ := hseen.stops fun heq => hne (heq ▸ rfl)
        exact ⟨n :: before, m, by rw [heq, List.cons_append], by rwa [hcons]⟩
    | false =>
      refine ⟨[n], by simp, ?_, ?_, fun _ => ⟨[], n, rfl, congrArg Prod.snd hf⟩⟩
      · simp [stateAfter, hf]
      · intro before m after heq hmore
        have hlength := congrArg List.length heq
        have hpos := List.length_pos_iff.mpr hmore
        simp only [List.length_append, List.length_cons, List.length_nil] at hlength
        omega

end

/-! ### Sequences of changes -/

/-- A change of a set that names no number below zero. -/
inductive Change where
  | set (n : Nat)
  | clear (n : Nat)
  | testAndSet (n : Nat)
  | reset

def Change.apply (s : Bitmap) : Change → Bitmap × Except BitmapFault (Option Bool)
  | set n => ((s.set n).1, (s.set n).2.elim (.ok none) .error)
  | clear n => ((s.clear n).1, (s.clear n).2.elim (.ok none) .error)
  | testAndSet n => ((s.testAndSet n).1, (s.testAndSet n).2.map some)
  | reset => (s.reset, .ok none)

def Change.on (A : Finset Nat) : Change → Finset Nat × Option Bool
  | set n => (A ∪ {n}, none)
  | clear n => (A.erase n, none)
  | testAndSet n => (A ∪ {n}, some (decide (n ∈ A)))
  | reset => (∅, none)

def changed (s : Bitmap) : List Change → Bitmap × List (Except BitmapFault (Option Bool))
  | [] => (s, [])
  | c :: rest => ((changed (c.apply s).1 rest).1, (c.apply s).2 :: (changed (c.apply s).1 rest).2)

def numbersAfter (A : Finset Nat) : List Change → Finset Nat × List (Option Bool)
  | [] => (A, [])
  | c :: rest => ((numbersAfter (c.on A).1 rest).1, (c.on A).2 :: (numbersAfter (c.on A).1 rest).2)

/-- A change of the words is the change of the numbers. -/
theorem StandsFor.apply {s : Bitmap} {A : Finset Nat} (h : s.StandsFor A) (c : Change) :
    (c.apply s).2 = .ok (c.on A).2 ∧ (c.apply s).1.StandsFor (c.on A).1 := by
  have hinsert : ∀ n, (s.insert n).StandsFor (A ∪ {n}) := by
    intro n m
    rw [contains_insert, Bool.or_eq_true, decide_eq_true_iff, h m, Finset.mem_union,
      Finset.mem_singleton, or_comm]
  cases c with
  | set n =>
    simp only [Change.apply, Change.on, set_natCast]
    exact ⟨rfl, hinsert n⟩
  | clear n =>
    simp only [Change.apply, Change.on, clear_natCast]
    refine ⟨rfl, fun m => ?_⟩
    rw [contains_erase, Bool.and_eq_true, decide_eq_true_iff, h m, Finset.mem_erase]
  | testAndSet n =>
    simp only [Change.apply, Change.on, testAndSet_natCast, h.contains_eq]
    exact ⟨rfl, hinsert n⟩
  | reset =>
    refine ⟨rfl, fun m => ?_⟩
    simp [Change.apply, Change.on, contains_reset]

theorem StandsFor.changed {s : Bitmap} {A : Finset Nat} (h : s.StandsFor A) (cs : List Change) :
    (s.changed cs).2 = (numbersAfter A cs).2.map .ok ∧
      (s.changed cs).1.StandsFor (numbersAfter A cs).1 := by
  induction cs generalizing s A with
  | nil => exact ⟨rfl, h⟩
  | cons c cs ih =>
    obtain ⟨hanswer, hnext⟩ := h.apply c
    obtain ⟨hanswers, hafter⟩ := ih hnext
    rw [Bitmap.changed, numbersAfter, hanswer, hanswers]
    exact ⟨rfl, hafter⟩

/-- What is asked of the words is answered as for the numbers of `A`, also by the loops. -/
structure Implements (s : Bitmap) (A : Finset Nat) : Prop where
  isSet : ∀ n : Nat, s.isSet n = .ok (decide (n ∈ A))
  size : s.size = A.card
  ones : s.words.foldl (fun n w => n + w.toBitVec.cpop.toNat) 0 = A.card
  range : ∀ {σ : Type} (f : σ → Nat → σ × Bool) (start : σ),
    ∃ seen, Visits f start (A.sort (· ≤ ·)) seen (s.range f start)
  bits : ∀ {σ : Type} (f : σ → Nat → σ × Bool) (start : σ),
    visitWords f start 0 s.words.toList = s.range f start
  least : ∀ (n : Int) (k : Nat),
    s.firstUnset n = some k ↔ IsLeast {k : Nat | (k : Int) < n ∧ k ∉ A} k
  full : ∀ n : Int, s.firstUnset n = none ↔ ∀ k : Nat, (k : Int) < n → k ∈ A
  search : ∀ n : Int, s.searchFrom n 0 = ((s.firstUnset n).map (↑)).getD (-1)

theorem StandsFor.implements {s : Bitmap} {A : Finset Nat} (h : s.StandsFor A) :
    s.Implements A where
  isSet n := by rw [isSet_natCast, h.contains_eq]
  size := h.size_eq_card
  ones := by rw [← size_eq_ones, h.size_eq_card]
  range f start := by
    rw [range, h.elements_eq_sort]
    exact visits_visit f start _
  bits f start := (s.range_eq_visitWords f start).symm
  least n k := h.firstUnset_eq_some_iff
  full n := h.firstUnset_eq_none_iff
  search n := s.firstUnset_eq_searchFrom n

def fresh (room : Option Int) : Bitmap := room.elim {} make

theorem standsFor_fresh (room : Option Int) : (fresh room).StandsFor ∅ := by
  intro n
  cases room with
  | none => simp [fresh]
  | some k => simp [fresh, contains_make]

/-- Changes of an empty set give the answers that they give on the finite set of its numbers, and what
is asked of the words afterwards is answered as for these numbers. -/
theorem changed_implements (room : Option Int) (cs : List Change) :
    ((fresh room).changed cs).2 = (numbersAfter ∅ cs).2.map .ok ∧
      ((fresh room).changed cs).1.Implements (numbersAfter ∅ cs).1 := by
  obtain ⟨hanswers, hafter⟩ := (standsFor_fresh room).changed cs
  exact ⟨hanswers, hafter.implements⟩

end RegisterLang.Bitmap
