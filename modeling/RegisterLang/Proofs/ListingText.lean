import RegisterLang.Code.Listing
import RegisterLang.Proofs.Codec

/-!
# The text of a listing

A listing is read line by line. A line that begins with a semicolon is a comment, and what the other
lines say are their words. The words of a marker and of an instruction are written out here, and the
text of a listing says those of its lines, one after the other.
-/
namespace RegisterLang
open Text Number

namespace Listing

def isBreak (c : Char) : Bool := c = ' ' || c = ','

def words (line : List Char) : List String :=
  ((line.splitOnP isBreak).filter fun w => !w.isEmpty).map String.ofList

/-- What the lines of a text say that are neither empty nor comments. -/
def entries (text : List Char) : List (List String) :=
  (((text.splitOnP (· = '\n')).filter fun line => line.head? ≠ some ';').map words).filter
    fun ws => !ws.isEmpty

def numbered (name : String) (n : Nat) : String := name ++ toString n

def offsetWord (pc : Nat) : String := String.ofList ((Nat.toDigits 16 pc).leftpad 4 '0')

/-- The value of an immediate: a float in its format, a pointer in hexadecimal and any other number in
decimal, with its sign if the type has one. -/
def valueWord (t : RegType) (imm : UInt64) : String :=
  let pattern := BitVec.ofNat (8 * t.size) imm.toNat
  if t = .float then Format.single.text pattern.toNat
  else if t = .double then Format.double.text pattern.toNat
  else if t = .pointer then "0x" ++ String.ofList (Nat.toDigits 16 imm.toNat)
  else if t.isSigned then toString pattern.toInt
  else toString imm.toNat

def instrWords : Instr → List String
  | .func regs args => ["func", "regs", toString regs.toNat, "args", toString args.toNat]
  | .call f => ["call", numbered "func#" f.toNat]
  | .ret src => ["ret", numbered "r" src.toNat]
  | .set t dst imm => ["set", t.name, numbered "r" dst.toNat, valueWord t imm]
  | .mov dst src => ["mov", numbered "r" dst.toNat, numbered "r" src.toNat]
  | .math op t dst a b =>
    [op.name, t.name, numbered "r" dst.toNat, numbered "r" a.toNat, numbered "r" b.toNat]
  | .cmp t a b => ["cmp", t.name, numbered "r" a.toNat, numbered "r" b.toNat]
  | .jump op l => [op.name, numbered "L" l.toNat]
  | .push t src => ["push", t.name, numbered "r" src.toNat]
  | .pop t dst => ["pop", t.name, numbered "r" dst.toNat]

/-- The words of a line: a marker has one, and an instruction stands after its offset. -/
def Line.words : Line → List String
  | .marker m => [numbered (if m.label then "L" else "func#") m.index ++ ":"]
  | .instr pc x => offsetWord pc :: instrWords x

/-! ### Words -/

def Solid (cs : List Char) : Prop := ∀ c ∈ cs, isBreak c = false ∧ c ≠ '\n'

instance : DecidablePred Solid := fun cs =>
  List.decidableBAll (fun c => isBreak c = false ∧ c ≠ '\n') cs

theorem solid_append {a b : List Char} : Solid (a ++ b) ↔ Solid a ∧ Solid b := List.forall_mem_append

theorem solid_cons {c : Char} {cs : List Char} :
    Solid (c :: cs) ↔ (isBreak c = false ∧ c ≠ '\n') ∧ Solid cs := List.forall_mem_cons

def IsWord (s : String) : Prop := s.toList ≠ [] ∧ Solid s.toList

instance : DecidablePred IsWord := fun s => inferInstanceAs (Decidable (_ ∧ Solid s.toList))

theorem IsWord.append {a b : String} (ha : IsWord a) (hb : IsWord b) : IsWord (a ++ b) := by
  rw [IsWord, String.toList_append, solid_append]
  exact ⟨by simp [ha.1], ha.2, hb.2⟩

@[simp] theorem words_nil : words [] = [] := rfl

theorem words_of_isWord {s : String} (h : IsWord s) : words s.toList = [s] := by
  rw [words, List.splitOnP_eq_singleton fun c hc => (h.2 c hc).1]
  simp [h.1]

theorem words_append_cons (a b : List Char) {c : Char} (hc : isBreak c = true) :
    words (a ++ c :: b) = words a ++ words b := by
  rw [words, List.splitOnP_append_cons a b hc, List.filter_append, List.map_append]
  rfl

def IsGap (s : String) : Prop := s.toList ≠ [] ∧ ∀ c ∈ s.toList, isBreak c = true

instance : DecidablePred IsGap := fun s =>
  @instDecidableAnd _ _ _ (List.decidableBAll (fun c => isBreak c = true) s.toList)

theorem words_gap {gap : String} (h : IsGap gap) (a b : String) :
    words (a ++ gap ++ b).toList = words a.toList ++ words b.toList := by
  obtain ⟨hne, hgap⟩ := h
  rw [String.toList_append, String.toList_append]
  generalize gap.toList = cs, a.toList = as at *
  induction cs generalizing as with
  | nil => exact absurd rfl hne
  | cons c cs ih =>
    obtain ⟨hc, hgap⟩ := List.forall_mem_cons.mp hgap
    rw [List.append_assoc, List.cons_append, words_append_cons _ _ hc]
    cases cs with
    | nil => rfl
    | cons d cs => rw [← List.nil_append (d :: cs), ih [] (by simp) hgap, words_nil, List.nil_append]

/-- What ends no word stands in one. -/
theorem mem_words {line : List Char} {c : Char} (hc : c ∈ line) (hbreak : isBreak c = false) :
    ∃ w ∈ words line, c ∈ w.toList := by
  suffices h : ∃ w ∈ line.splitOnP isBreak, c ∈ w by
    obtain ⟨w, hw, hcw⟩ := h
    have hne : w.isEmpty = false := by
      rw [List.isEmpty_eq_false_iff]
      exact List.ne_nil_of_mem hcw
    exact ⟨String.ofList w, List.mem_map_of_mem (List.mem_filter.mpr ⟨hw, by simp [hne]⟩), by simpa⟩
  induction line with
  | nil => cases hc
  | cons d line ih =>
    rw [List.splitOnP_cons_eq_if_modifyHead]
    split
    next hd =>
      rcases List.mem_cons.mp hc with rfl | hc
      · cases hd.symm.trans hbreak
      · obtain ⟨w, hw, hcw⟩ := ih hc
        exact ⟨w, List.mem_cons_of_mem _ hw, hcw⟩
    next =>
      obtain ⟨first, rest, hsplit⟩ := List.exists_cons_of_ne_nil (List.splitOnP_ne_nil isBreak line)
      rw [hsplit] at ih ⊢
      rw [List.modifyHead_cons]
      rcases List.mem_cons.mp hc with rfl | hc
      · exact ⟨_, List.mem_cons_self, List.mem_cons_self⟩
      · obtain ⟨w, hw, hcw⟩ := ih hc
        rcases List.mem_cons.mp hw with rfl | hw
        · exact ⟨_, List.mem_cons_self, List.mem_cons_of_mem _ hcw⟩
        · exact ⟨w, List.mem_cons_of_mem _ hw, hcw⟩

/-! ### The words of an instruction -/

theorem mem_toDigits {b n : Nat} (hb : 1 < b) {c : Char} (hc : c ∈ Nat.toDigits b n) :
    ∃ d < b, c = d.digitChar := by
  induction n using Nat.strongRecOn with
  | ind n ih =>
    by_cases hn : n < b
    · rw [Nat.toDigits_of_lt_base hn, List.mem_singleton] at hc
      exact ⟨n, hn, hc⟩
    · rw [Nat.toDigits_of_base_le hb (by omega), List.mem_append, List.mem_singleton] at hc
      rcases hc with hc | hc
      · exact ih _ (Nat.div_lt_self (by omega) hb) hc
      · exact ⟨n % b, Nat.mod_lt _ (by omega), hc⟩

theorem solid_of_digitChar {d : Nat} (hd : d < 16) :
    (isBreak d.digitChar = false ∧ d.digitChar ≠ '\n') ∧ d.digitChar ≠ ';' := by
  have hall : ∀ d < 16, (isBreak d.digitChar = false ∧ d.digitChar ≠ '\n') ∧ d.digitChar ≠ ';' := by
    decide
  exact hall d hd

theorem solid_toDigits {b : Nat} (hb : 1 < b) (hle : b ≤ 16) (n : Nat) : Solid (Nat.toDigits b n) := by
  intro c hc
  obtain ⟨d, hd, rfl⟩ := mem_toDigits hb hc
  exact (solid_of_digitChar (Nat.lt_of_lt_of_le hd hle)).1

theorem solid_replicate (n : Nat) : Solid (List.replicate n '0') := by
  intro c hc
  obtain rfl := List.eq_of_mem_replicate hc
  decide

theorem toList_toString (n : Nat) : (toString n).toList = Nat.toDigits 10 n := by
  simp [toString, Nat.repr]

theorem isWord_toString (n : Nat) : IsWord (toString n) := by
  rw [IsWord, toList_toString]
  exact ⟨Nat.toDigits_ne_nil, solid_toDigits (by decide) (by decide) n⟩

theorem isWord_numbered {name : String} (h : IsWord name) (n : Nat) : IsWord (numbered name n) :=
  h.append (isWord_toString n)

theorem isWord_toString_int (n : Int) : IsWord (toString n) := by
  cases n with
  | ofNat n => exact isWord_toString n
  | negSucc n => exact IsWord.append (a := "-") (by decide) (isWord_toString (n + 1))

theorem isWord_scientific {digits : List Char} (hne : digits ≠ []) (h : Solid digits) (e : Int) :
    IsWord (scientific digits e) := by
  have hsize := isWord_toString e.natAbs
  have hexponent : IsWord (if (toString e.natAbs).length < 2 then "0" ++ toString e.natAbs
      else toString e.natAbs) := by
    split
    · exact IsWord.append (a := "0") (by decide) hsize
    · exact hsize
  have hsign : IsWord (if e < 0 then "-" else "+") := by split <;> decide
  have htail : ∀ {cs : List Char}, cs ≠ [] → Solid cs →
      IsWord (String.ofList cs ++ "e" ++ (if e < 0 then "-" else "+") ++ _) := fun hcs hsolid =>
    ((IsWord.append ⟨by simpa, by simpa⟩ (by decide : IsWord "e")).append hsign).append hexponent
  cases digits with
  | nil => exact absurd rfl hne
  | cons d rest =>
    cases rest with
    | nil => exact htail hne h
    | cons d' rest =>
      obtain ⟨hd, hrest⟩ := solid_cons.mp h
      exact htail (by simp) (solid_cons.mpr ⟨hd, solid_cons.mpr ⟨by decide, hrest⟩⟩)

theorem isWord_positional {digits : List Char} (hne : digits ≠ []) (h : Solid digits) (point : Int) :
    IsWord (positional digits point) := by
  rw [positional]
  split
  · exact IsWord.append (a := "0.") (by decide)
      ⟨by simp [hne], by rw [String.toList_ofList]; exact solid_append.mpr ⟨solid_replicate _, h⟩⟩
  · dsimp only
    rw [IsWord]
    split
    · rw [String.toList_ofList]
      exact ⟨by simp [hne], solid_append.mpr ⟨h, solid_replicate _⟩⟩
    · rw [String.toList_ofList]
      refine ⟨by simp, solid_append.mpr ⟨fun c hc => h c (List.mem_of_mem_take hc),
        solid_cons.mpr ⟨by decide, fun c hc => h c (List.mem_of_mem_drop hc)⟩⟩⟩

theorem isWord_text (f : Format) (bits : Nat) : IsWord (f.text bits) := by
  have hsigned : ∀ s : String, IsWord s → IsWord ((if f.negative bits then "-" else "") ++ s) := by
    intro s hs
    split
    · exact IsWord.append (a := "-") (by decide) hs
    · rwa [String.empty_append]
  rw [Format.text]
  split
  · decide
  dsimp only
  split
  · split <;> decide
  split
  · exact hsigned _ (by decide)
  · apply hsigned
    rw [Decimal.text]
    have hdigits := solid_toDigits (b := 10) (by decide) (by decide)
      (f.neighbourhood bits).shortest.digits
    split
    · exact isWord_scientific Nat.toDigits_ne_nil hdigits _
    · exact isWord_positional Nat.toDigits_ne_nil hdigits _

theorem isWord_valueWord (t : RegType) (imm : UInt64) : IsWord (valueWord t imm) := by
  rw [valueWord]
  split
  · exact isWord_text _ _
  split
  · exact isWord_text _ _
  split
  · exact IsWord.append (a := "0x") (by decide)
      ⟨by simp [Nat.toDigits_ne_nil], by
        rw [String.toList_ofList]
        exact solid_toDigits (by decide) (by decide) _⟩
  split
  · exact isWord_toString_int _
  · exact isWord_toString _

theorem immText_eq {t : RegType} (ht : t.isKnown = true) (imm : UInt64) :
    Instr.immText t imm = valueWord t imm := by
  -- the patterns of eight bytes are those of the whole register
  have hfull : BitVec.ofNat 64 imm.toNat = imm.toBitVec := by
    rw [← UInt64.toNat_toBitVec, BitVec.ofNat_toNat, BitVec.setWidth_eq]
  cases t with
  | unknown => cases ht
  | s64 => exact congrArg (fun b : BitVec 64 => toString b.toInt) hfull.symm
  | double => exact congrArg (fun b : BitVec 64 => Format.double.text b.toNat) hfull.symm
  | _ => rfl

theorem isWord_opcode {op : Opcode} (h : op.isKnown = true) : IsWord op.name ∧ op.name.length < 6 := by
  cases op with
  | unknown => cases h
  | _ => decide

theorem isWord_regType {t : RegType} (h : t.isKnown = true) : IsWord t.name := by
  cases t with
  | unknown => cases h
  | _ => decide

/-- A text has these words and no line ends in it. -/
structure Says (text : String) (ws : List String) : Prop where
  words_eq : words text.toList = ws
  isWord : ∀ w ∈ ws, IsWord w

namespace Says

theorem word {s : String} (h : IsWord s) : Says s [s] :=
  ⟨words_of_isWord h, by simpa⟩

theorem gap {a b s : String} {as bs : List String} (ha : Says a as) (hs : IsGap s) (hb : Says b bs) :
    Says (a ++ s ++ b) (as ++ bs) := by
  refine ⟨?_, List.forall_mem_append.mpr ⟨ha.isWord, hb.isWord⟩⟩
  rw [words_gap hs, ha.words_eq, hb.words_eq]

theorem register (r : Reg) : Says (Instr.regText r) [numbered "r" r.toNat] :=
  word (isWord_numbered (by decide) _)

theorem registers (a b : Reg) : Says (Instr.regs [a, b]) [numbered "r" a.toNat, numbered "r" b.toNat] :=
  (register a).gap (by decide) (register b)

variable {text : String} {ws : List String}

theorem operation (h : Says text ws) {op : Opcode} (hop : op.isKnown = true) :
    Says (padRight 6 op.name ++ text) (op.name :: ws) := by
  obtain ⟨hname, hshort⟩ := isWord_opcode hop
  exact (word hname).gap ⟨by simp; omega, by simp [isBreak]⟩ h

theorem type (h : Says text ws) {t : RegType} (ht : t.isKnown = true) :
    Says (padRight 6 t.name ++ " " ++ text) (t.name :: ws) := by
  have hblanks : IsGap (String.ofList (List.replicate (6 - t.name.length) ' ') ++ " ") :=
    ⟨by simp, by simp [isBreak, or_imp, forall_and]⟩
  have htext := (word (isWord_regType ht)).gap hblanks h
  rwa [← String.append_assoc] at htext

theorem not_mem_newline (h : Says text ws) : '\n' ∉ text.toList := by
  intro hmem
  obtain ⟨w, hw, hnewline⟩ := mem_words hmem rfl
  exact ((h.isWord w (h.words_eq ▸ hw)).2 _ hnewline).2 rfl

end Says

theorem says_instr {x : Instr} (hx : x.WellFormed) : Says x.text (instrWords x) := by
  have hop := Instr.isKnown_opcode hx
  have htype := Instr.type_isKnown hx
  cases x with
  | func regs args =>
    have hpair : ∀ (name : String) (n : UInt16), IsWord name →
        Says (name ++ " " ++ toString n) [name, toString n.toNat] := fun _ n hname =>
      (Says.word hname).gap (by decide) (.word (isWord_toString n.toNat))
    have htext := (hpair "regs" regs (by decide)).gap (s := ", ") (by decide)
      (hpair "args" args (by decide))
    have hsplit : "regs " ++ toString regs ++ ", args " ++ toString args =
        "regs" ++ " " ++ toString regs ++ ", " ++ ("args" ++ " " ++ toString args) := by
      rw [show "regs " = "regs" ++ " " by decide, show ", args " = ", " ++ ("args" ++ " ") by decide]
      simp only [String.append_assoc]
    rw [← hsplit] at htext
    exact htext.operation hop
  | call f => exact (Says.word (isWord_numbered (by decide) _)).operation hop
  | ret src => exact (Says.register src).operation hop
  | set t dst imm =>
    have hvalue : Says (Instr.immText t imm) [valueWord t imm] := by
      rw [immText_eq hx]
      exact .word (isWord_valueWord t imm)
    exact (((Says.register dst).type htype).gap (by decide) hvalue).operation hop
  | mov dst src => exact (Says.registers dst src).operation hop
  | math op t dst a b =>
    exact (((Says.registers dst a).gap (by decide) (.register b)).type htype).operation hop
  | cmp t a b => exact ((Says.registers a b).type htype).operation hop
  | jump op l => exact (Says.word (isWord_numbered (by decide) _)).operation hop
  | push t r | pop t r => exact ((Says.register r).type htype).operation hop

/-! ### Lines -/

theorem entries_append_cons (a b : List Char) : entries (a ++ '\n' :: b) = entries a ++ entries b := by
  rw [entries, List.splitOnP_append_cons a b (by simp)]
  simp [entries]

theorem entries_of_says {text : String} {ws : List String} (h : Says text ws) (hne : ws ≠ [])
    (hhead : text.toList.head? ≠ some ';') : entries text.toList = [ws] := by
  have hline : ∀ c ∈ text.toList, decide (c = '\n') = false := fun c hc =>
    decide_eq_false fun heq => h.not_mem_newline (heq ▸ hc)
  rw [entries, List.splitOnP_eq_singleton hline]
  simp [hhead, h.words_eq, hne]

def IsComment (s : String) : Prop := ∃ line : List Char, s.toList = ';' :: line ++ ['\n'] ∧ '\n' ∉ line

theorem entries_comment {s : String} (h : IsComment s) (rest : List Char) :
    entries (s.toList ++ rest) = entries rest := by
  obtain ⟨line, hs, hline⟩ := h
  have hsplit : ∀ c ∈ ';' :: line, decide (c = '\n') = false := by
    refine List.forall_mem_cons.mpr ⟨rfl, fun c hc => decide_eq_false fun heq => hline (heq ▸ hc)⟩
  rw [hs, List.append_assoc, List.singleton_append, entries_append_cons]
  rw [entries, List.splitOnP_eq_singleton hsplit]
  rfl

def Line.WellFormed : Line → Prop
  | .marker _ => True
  | .instr _ x => x.WellFormed

instance : DecidablePred Line.WellFormed
  | .marker _ => .isTrue trivial
  | .instr _ x => inferInstanceAs (Decidable x.WellFormed)

theorem hexPadded_eq (pc : Nat) : hexPadded 4 pc = offsetWord pc := by
  rw [hexPadded, offsetWord, List.leftpad, String.ofList_append]
  simp [hex]

theorem mem_offsetWord {pc : Nat} {c : Char} (h : c ∈ (offsetWord pc).toList) :
    ∃ d < 16, c = d.digitChar := by
  rw [offsetWord, String.toList_ofList, List.leftpad, List.mem_append] at h
  rcases h with h | h
  · exact ⟨0, by decide, List.eq_of_mem_replicate h⟩
  · exact mem_toDigits (by decide) h

theorem isWord_offsetWord (pc : Nat) : IsWord (offsetWord pc) := by
  refine ⟨by simp [offsetWord, List.leftpad, Nat.toDigits_ne_nil], fun c hc => ?_⟩
  obtain ⟨d, hd, rfl⟩ := mem_offsetWord hc
  exact (solid_of_digitChar hd).1

theorem head_append {a : String} (ha : IsWord a) (h : a.toList.head? ≠ some ';') (b : String) :
    (a ++ b).toList.head? ≠ some ';' := by
  obtain ⟨c, cs, hcs⟩ := List.exists_cons_of_ne_nil ha.1
  rw [hcs] at h
  rw [String.toList_append, hcs]
  exact h

theorem head_offsetWord (pc : Nat) : (offsetWord pc).toList.head? ≠ some ';' := by
  intro h
  obtain ⟨d, hd, hc⟩ := mem_offsetWord (List.mem_of_mem_head? (Option.mem_def.mpr h))
  exact (solid_of_digitChar hd).2 hc.symm

theorem entries_text {line : Line} (h : line.WellFormed) (rest : List Char) :
    entries (line.text.toList ++ rest) = line.words :: entries rest := by
  cases line with
  | marker m =>
    obtain ⟨pos, label, index⟩ := m
    have hmarker : ∀ name : String, IsWord name → name.toList.head? ≠ some ';' →
        entries ((numbered name index ++ ":").toList ++ '\n' :: rest) =
          [numbered name index ++ ":"] :: entries rest := by
      intro name hname hhead
      have hword := (isWord_numbered hname index).append (b := ":") (by decide)
      have hstart : (numbered name index ++ ":").toList.head? ≠ some ';' :=
        head_append (isWord_numbered hname index) (head_append hname hhead _) _
      rw [entries_append_cons, entries_of_says (.word hword) (by simp) hstart]
      rfl
    cases label with
    | true =>
      have hlabel := hmarker "L" (by decide) (by decide)
      simpa [Line.text, Marker.text, Line.words, numbered] using hlabel
    | false =>
      -- the line of a function stands after an empty one
      have hfunction := hmarker "func#" (by decide) (by decide)
      have hempty := entries_append_cons [] ((numbered "func#" index ++ ":").toList ++ '\n' :: rest)
      rw [hfunction, show entries [] = [] from rfl] at hempty
      simpa [Line.text, Marker.text, Line.words, numbered] using hempty
  | instr pc x =>
    have hsays := (Says.word (isWord_offsetWord pc)).gap (s := "  ") (by decide) (says_instr h)
    have hstart : (offsetWord pc ++ "  " ++ x.text).toList.head? ≠ some ';' := by
      rw [String.append_assoc]
      exact head_append (isWord_offsetWord pc) (head_offsetWord pc) _
    rw [Line.text, hexPadded_eq, String.toList_append, List.append_assoc]
    change entries (_ ++ '\n' :: rest) = _
    rw [entries_append_cons, entries_of_says hsays (by simp) hstart]
    rfl

theorem entries_join {body : List Line} (h : ∀ line ∈ body, line.WellFormed) :
    entries (String.join (body.map Line.text)).toList = body.map Line.words := by
  induction body with
  | nil => rfl
  | cons line body ih =>
    obtain ⟨hline, hbody⟩ := List.forall_mem_cons.mp h
    rw [List.map_cons, String.join_cons, String.toList_append, entries_text hline, ih hbody,
      List.map_cons]

theorem entries_magicText (rest : List Char) : entries (magicText.toList ++ rest) = entries rest :=
  entries_comment ⟨magicText.toList.tail.dropLast, by decide, by decide⟩ rest

theorem entries_comments {l : List String} (h : ∀ s ∈ l, IsComment s) (rest : List Char) :
    entries ((String.join l).toList ++ rest) = entries rest := by
  induction l with
  | nil => rfl
  | cons s l ih =>
    obtain ⟨hs, hl⟩ := List.forall_mem_cons.mp h
    rw [String.join_cons, String.toList_append, List.append_assoc, entries_comment hs, ih hl]

theorem entries_tableText {name : String} (hname : '\n' ∉ name.toList) (table : Array UInt32)
    (rest : List Char) : entries ((tableText name table).toList ++ rest) = entries rest := by
  have hnumber : ∀ n, '\n' ∉ Nat.toDigits 10 n := fun n hn =>
    (solid_toDigits (by decide) (by decide) n _ hn).2 rfl
  have hoffset : ∀ pc, '\n' ∉ (hexPadded 4 pc).toList := fun pc hn => by
    rw [hexPadded_eq] at hn
    exact ((isWord_offsetWord pc).2 _ hn).2 rfl
  rw [tableText, ← String.join_cons]
  refine entries_comments (List.forall_mem_cons.mpr ⟨?_, fun s hs => ?_⟩) rest
  · exact ⟨(" " ++ name ++ " " ++ toString table.size).toList, by simp, by simp [hname, hnumber]⟩
  · obtain ⟨⟨pos, i⟩, -, rfl⟩ := List.mem_map.mp hs
    exact ⟨("   [" ++ padLeft 3 (toString i) ++ "] 0x" ++ hexPadded 4 pos.toNat).toList, by simp,
      by simp [padLeft, hnumber, hoffset]⟩

/-- A listing says what its lines say, below comments that show the tables. -/
theorem entries_listing (functions labels : Array UInt32) {body : List Line}
    (h : ∀ line ∈ body, line.WellFormed) :
    entries (magicText ++ tableText "funcs" functions ++ tableText "labels" labels ++
      String.join (body.map Line.text)).toList = body.map Line.words := by
  simp only [String.toList_append, List.append_assoc]
  rw [entries_magicText, entries_tableText (by decide), entries_tableText (by decide), entries_join h]

end Listing
end RegisterLang
