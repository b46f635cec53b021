import Mathlib.Data.Int.ConditionallyCompleteOrder
import Mathlib.Data.List.Induction
import Mathlib.Data.Prod.Lex
import Mathlib.Order.ConditionallyCompleteLattice.Basic
import RegisterLang.Source.LineTable

/-!
# Positions of offsets

The position of an offset says how many newlines stand before it and how many bytes stand between the
last of them and the offset. The search in the table of lines finds this for every offset of the text
and for its end, so positions are in the order of their offsets and no two of them are the same.
-/
namespace RegisterLang

def Pos.key (p : Pos) : Int ×ₗ Int := toLex (p.line, p.col)

namespace Source
open Text

/-- The number of bytes after the last newline, of all bytes if there is none. -/
def sinceNewline (before : Bytes) : Nat := (before.reverse.takeWhile (· ≠ 10)).length

@[simp] theorem sinceNewline_newline (before : Bytes) : sinceNewline (before ++ [10]) = 0 := by
  simp [sinceNewline]

/-- Bytes without a newline stand on the line of the bytes before them. -/
theorem sinceNewline_append {more : Bytes} (h : 10 ∉ more) (before : Bytes) :
    sinceNewline (before ++ more) = sinceNewline before + more.length := by
  have hall : ∀ b ∈ more.reverse, (b ≠ 10 : Bool) = true := by
    intro b hb
    simp only [decide_eq_true_eq]
    rintro rfl
    exact h (List.mem_reverse.mp hb)
  unfold sinceNewline
  rw [List.reverse_append, List.takeWhile_append_of_pos hall, List.length_append,
    List.length_reverse, Nat.add_comm]

/-! ### The table -/

theorem lineStarts_append (acc : Array Nat) (offset : Nat) (text more : Bytes) :
    lineStarts acc offset (text ++ more) =
      lineStarts (lineStarts acc offset text) (offset + text.length) more := by
  induction text generalizing acc offset with
  | nil => rfl
  | cons b rest ih =>
    rw [List.cons_append, lineStarts, ih, lineStarts, List.length_cons, Nat.add_assoc,
      Nat.add_comm 1]

theorem size_lineStarts (acc : Array Nat) (offset : Nat) (text : Bytes) :
    acc.size ≤ (lineStarts acc offset text).size := by
  induction text generalizing acc offset with
  | nil => exact Nat.le_refl _
  | cons b rest ih =>
    rw [lineStarts]
    refine Nat.le_trans ?_ (ih _ _)
    split <;> simp

/-- The table of the lines that begin up to the end of a text: one for each newline and one more, of
which the last begins where the last newline ends. -/
structure LinesUpTo (before : Bytes) (starts : Array Nat) : Prop where
  size : starts.size = before.count 10 + 1
  last : starts.getD (before.count 10) 0 + sinceNewline before = before.length
  le : ∀ k < starts.size, starts.getD k 0 ≤ before.length

theorem linesUpTo_lineStarts (before : Bytes) : LinesUpTo before (lineStarts #[0] 0 before) := by
  induction before using List.reverseRecOn with
  | nil => exact ⟨rfl, rfl, fun k hk => by simp_all [lineStarts]⟩
  | append_singleton before b ih =>
    rw [lineStarts_append, lineStarts, lineStarts, Nat.zero_add]
    have hle : ∀ k < (lineStarts #[0] 0 before).size,
        (lineStarts #[0] 0 before).getD k 0 ≤ before.length + 1 := fun k hk =>
      Nat.le_succ_of_le (ih.le k hk)
    by_cases hb : b = 10
    · subst hb
      rw [if_pos rfl]
      have hcount : (before ++ [10]).count 10 = before.count 10 + 1 := by simp
      constructor
      · rw [Array.size_push, ih.size, hcount]
      · rw [hcount, ← ih.size, sinceNewline_newline]
        simp
      · intro k hk
        rw [Array.size_push] at hk
        rw [List.length_append, List.length_singleton, Array.getD_eq_getD_getElem?,
          Array.getElem?_push]
        split
        · exact Nat.le_refl _
        · rw [← Array.getD_eq_getD_getElem?]
          exact hle k (by omega)
    · rw [if_neg hb]
      have hcount : (before ++ [b]).count 10 = before.count 10 := by
        rw [List.count_append, List.count_singleton, if_neg (by simpa using hb), Nat.add_zero]
      have hlast := ih.last
      constructor
      · rw [hcount, ih.size]
      · rw [hcount, sinceNewline_append (by simpa using Ne.symm hb), List.length_append]
        omega
      · rw [List.length_append, List.length_singleton]
        exact hle

/-- The lines that begin further on are put behind those in the table. -/
theorem lineStarts_getD (acc : Array Nat) (offset : Nat) (text : Bytes) (k : Nat) :
    (k < acc.size → (lineStarts acc offset text).getD k 0 = acc.getD k 0) ∧
    (acc.size ≤ k → k < (lineStarts acc offset text).size →
      offset < (lineStarts acc offset text).getD k 0) := by
  induction text generalizing acc offset with
  | nil => exact ⟨fun _ => rfl, fun hle hlt => absurd hlt (Nat.not_lt.mpr hle)⟩
  | cons b rest ih =>
    rw [lineStarts]
    by_cases hb : b = 10
    · rw [if_pos hb]
      obtain ⟨hold, hnew⟩ := ih (acc.push (offset + 1)) (offset + 1)
      rw [Array.size_push] at hold hnew
      refine ⟨fun hk => ?_, fun hle hlt => ?_⟩
      · rw [hold (by omega), Array.getD_eq_getD_getElem?, Array.getElem?_push_lt hk,
          Array.getD_eq_getD_getElem?, Array.getElem?_eq_getElem hk]
      · obtain rfl | hlt' : k = acc.size ∨ acc.size + 1 ≤ k := by omega
        · rw [hold (by omega)]
          simp
        · exact Nat.lt_trans (Nat.lt_succ_self _) (hnew hlt' hlt)
    · rw [if_neg hb]
      obtain ⟨hold, hnew⟩ := ih acc (offset + 1)
      exact ⟨hold, fun hle hlt => Nat.lt_trans (Nat.lt_succ_self _) (hnew hle hlt)⟩

/-! ### The search -/

/-- The search finds where the entries begin that are greater than `i`. -/
theorem countUpTo_eq {table : Array Nat} {i : Int} {lo hi k : Nat} (hlo : lo ≤ k) (hhi : k ≤ hi)
    (hle : ∀ j < k, (table.getD j 0 : Int) ≤ i)
    (hlt : ∀ j, k ≤ j → j < hi → i < table.getD j 0) : countUpTo table i lo hi = k := by
  fun_induction countUpTo table i lo hi with
  | case1 lo hi hlohi mid hentry ih =>
    have hmid : k ≤ mid := by
      by_contra hnot
      have hentry' := hle mid (by omega)
      omega
    exact ih hlo hmid fun j hj hjmid => hlt j hj (by omega)
  | case2 lo hi hlohi mid hentry ih =>
    have hmid : mid + 1 ≤ k := by
      by_contra hnot
      exact hentry (hlt mid (by omega) (by omega))
    exact ih hmid hhi hlt
  | case3 lo hi hlohi => omega

/-- The number of newlines before an offset and the number of bytes since the last of them. -/
theorem locate_eq {text : Bytes} {i : Nat} (h : i ≤ text.length) :
    (LineTable.ofText text).locate i =
      ⟨(text.take i).count 10 + 1, sinceNewline (text.take i) + 1⟩ := by
  have hlength : (text.take i).length = i := List.length_take_of_le h
  -- the lines up to the offset are in the table before those that begin after it
  have hstarts : lineStarts #[0] 0 text =
      lineStarts (lineStarts #[0] 0 (text.take i)) i (text.drop i) := by
    have happend := lineStarts_append #[0] 0 (text.take i) (text.drop i)
    rwa [List.take_append_drop, hlength, Nat.zero_add] at happend
  have hlines := linesUpTo_lineStarts (text.take i)
  have hentries := lineStarts_getD (lineStarts #[0] 0 (text.take i)) i (text.drop i)
  have hsize := size_lineStarts (lineStarts #[0] 0 (text.take i)) i (text.drop i)
  rw [← hstarts] at hentries hsize
  rw [hlines.size] at hentries hsize
  have hcount : countUpTo (lineStarts #[0] 0 text) i 0 (lineStarts #[0] 0 text).size =
      (text.take i).count 10 + 1 := by
    apply countUpTo_eq (Nat.zero_le _) hsize
    · intro j hj
      have hle := hlines.le j (by rwa [hlines.size])
      rw [(hentries j).1 hj]
      omega
    · intro j hj hlt
      exact Int.ofNat_lt.mpr ((hentries j).2 hj hlt)
  have hlast := hlines.last
  simp only [LineTable.locate, LineTable.ofText, hcount, Nat.add_sub_cancel,
    (hentries _).1 (Nat.lt_succ_self _), Pos.mk.injEq, true_and]
  omega

/-- An offset further on is on a later line, or further to the right on the same one. -/
theorem key_locate_lt {text : Bytes} {i j : Nat} (hij : i < j) (hj : j ≤ text.length) :
    ((LineTable.ofText text).locate i).key < ((LineTable.ofText text).locate j).key := by
  have htake : text.take j = text.take i ++ (text.drop i).take (j - i) := by
    rw [← List.take_add, Nat.add_sub_cancel' hij.le]
  have hlength : ((text.drop i).take (j - i)).length = j - i := by
    rw [List.length_take, List.length_drop]
    omega
  rw [locate_eq (hij.le.trans hj), locate_eq hj, htake, Pos.key, Pos.key, Prod.Lex.toLex_lt_toLex,
    List.count_append]
  generalize (text.drop i).take (j - i) = between at hlength
  by_cases hnewline : 10 ∈ between
  · have hpos := List.count_pos_iff.mpr hnewline
    left
    dsimp only
    omega
  · right
    rw [List.count_eq_zero.mpr hnewline, sinceNewline_append hnewline, hlength]
    dsimp only
    omega

/-- The position of an offset in the text, or of its end, is the number of newlines before it and the
number of bytes since the last of them, both counted from one. Positions are in the order of their
offsets, and different offsets have different positions. -/
theorem locate_exact (text : Bytes) :
    (∀ i ≤ text.length, (LineTable.ofText text).locate i =
      ⟨(text.take i).count 10 + 1, sinceNewline (text.take i) + 1⟩) ∧
    StrictMonoOn (fun i : Nat => ((LineTable.ofText text).locate i).key) (Set.Iic text.length) ∧
    Set.InjOn (fun i : Nat => (LineTable.ofText text).locate i) (Set.Iic text.length) := by
  have hmono : StrictMonoOn (fun i : Nat => ((LineTable.ofText text).locate i).key)
      (Set.Iic text.length) := fun i _ j hj hij => key_locate_lt hij hj
  refine ⟨fun i hi => locate_eq hi, hmono, fun i hi j hj heq => ?_⟩
  exact hmono.injOn hi hj (congrArg Pos.key heq)

/-- An empty line, a newline at the offset itself and the end of a text that ends with a newline. -/
theorem locate_exact_blank_line :
    (LineTable.ofText [97, 10, 10, 98, 10]).locate 1 = ⟨1, 2⟩ ∧
    (LineTable.ofText [97, 10, 10, 98, 10]).locate 2 = ⟨2, 1⟩ ∧
    (LineTable.ofText [97, 10, 10, 98, 10]).locate 5 = ⟨4, 1⟩ ∧
    ((LineTable.ofText [97, 10, 10, 98, 10]).locate 1).key <
      ((LineTable.ofText [97, 10, 10, 98, 10]).locate 2).key ∧
    (LineTable.ofText [97, 10, 10, 98, 10]).locate 2 ≠
      (LineTable.ofText [97, 10, 10, 98, 10]).locate 5 := by
  obtain ⟨hlocate, hmono, hinj⟩ := locate_exact [97, 10, 10, 98, 10]
  refine ⟨hlocate 1 (by decide), hlocate 2 (by decide), hlocate 5 (by decide), ?_, fun heq => ?_⟩
  · exact hmono (by simp : 1 ∈ Set.Iic 5) (by simp : 2 ∈ Set.Iic 5) (by decide : 1 < 2)
  · exact absurd (hinj (by simp : 2 ∈ Set.Iic 5) (by simp : 5 ∈ Set.Iic 5) heq) (by decide)

end Source
end RegisterLang
