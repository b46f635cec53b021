import RegisterLang.Machine.Run

/-!
# Instructions as bytes

`Image.Holds` says that bytes lie at an offset of an image. An instruction that is well-formed is read
back where its bytes lie, with its immediate cut to the width of its type.
-/
namespace RegisterLang
open Text

theorem littleEndian_length (width n : Nat) : (littleEndian width n).length = width := by
  induction width generalizing n with
  | zero => rfl
  | succ width ih => simp [littleEndian, ih]

namespace Image

def Holds (image : Image) (offset : Nat) (bytes : Bytes) : Prop :=
  ∀ i, i < bytes.length → image[offset + i]? = bytes[i]?

variable {image : Image} {offset : Nat}

@[simp] theorem holds_nil : image.Holds offset [] := by
  intro i hi
  simp at hi

theorem holds_cons {b : UInt8} {rest : Bytes} :
    image.Holds offset (b :: rest) ↔ image[offset]? = some b ∧ image.Holds (offset + 1) rest := by
  constructor
  · intro h
    refine ⟨by simpa using h 0 (by simp), ?_⟩
    intro i hi
    have := h (i + 1) (by simpa using hi)
    simpa [Nat.add_assoc, Nat.add_comm 1 i] using this
  · rintro ⟨hb, hr⟩ i hi
    cases i with
    | zero => simpa using hb
    | succ i =>
      have := hr i (by simpa using hi)
      simpa [Nat.add_assoc, Nat.add_comm 1 i] using this

theorem holds_append {a b : Bytes} :
    image.Holds offset (a ++ b) ↔ image.Holds offset a ∧ image.Holds (offset + a.length) b := by
  induction a generalizing offset with
  | nil => simp
  | cons x a ih =>
    simp only [List.cons_append, holds_cons, ih, List.length_cons, and_assoc]
    rw [show offset + 1 + a.length = offset + (a.length + 1) by omega]

theorem Holds.le_size {bytes : Bytes} (h : image.Holds offset bytes) (hne : bytes ≠ []) :
    offset + bytes.length ≤ image.size := by
  have hpos : 0 < bytes.length := List.length_pos_iff.mpr hne
  have hlast := h (bytes.length - 1) (by omega)
  rw [List.getElem?_eq_getElem (by omega)] at hlast
  have := (Array.getElem?_eq_some_iff.mp hlast).1
  omega

theorem number_of_holds {width n : Nat} (h : image.Holds offset (littleEndian width n)) :
    image.number width offset = n % 256 ^ width := by
  induction width generalizing offset n with
  | zero => simp [number, Nat.mod_one]
  | succ width ih =>
    rw [littleEndian, holds_cons] at h
    have hb : image.getD offset 0 = (n % 256).toUInt8 := by
      simp [Array.getD_eq_getD_getElem?, h.1]
    rw [number, hb, ih h.2, Nat.pow_succ']
    have : (n % 256).toUInt8.toNat = n % 256 := by simp
    rw [this, Nat.mod_mul]

theorem half_of_holds {r : UInt16} (h : image.Holds offset (Instr.half r)) :
    (image.number 2 offset).toUInt16 = r := by
  rw [number_of_holds h]
  have := r.toNat_lt
  apply UInt16.toNat.inj
  simp

theorem full_of_holds {r : UInt32} (h : image.Holds offset (littleEndian 4 r.toNat)) :
    (image.number 4 offset).toUInt32 = r := by
  rw [number_of_holds h]
  apply UInt32.toNat.inj
  simp

end Image

theorem Opcode.ofCode_code (op : Opcode) : ofCode op.code = op := by
  cases op with
  | unknown c h =>
    simp only [code]
    unfold ofCode
    split <;> first | omega | rfl
  | _ => rfl

theorem RegType.ofCode_code (t : RegType) : ofCode t.code = t := by
  cases t with
  | unknown c h =>
    simp only [code]
    unfold ofCode
    split <;> first | omega | rfl
  | _ => rfl

theorem RegType.size_le (t : RegType) : t.size ≤ 8 := by
  cases t <;> simp [size]

namespace Instr

/-- An instruction that can be written and read back. -/
def WellFormed : Instr → Prop
  | math op t .. => op.isMath ∧ t.isKnown
  | jump op _ => op.isJump
  | set t .. | cmp t .. | push t _ | pop t _ => t.isKnown
  | func .. | call _ | ret _ | mov .. => True

instance : DecidablePred WellFormed := fun x => by
  cases x <;> unfold WellFormed <;> infer_instance

/-- The instruction as it is read back: an immediate has the width of its type. -/
def cut : Instr → Instr
  | set t dst imm => set t dst (imm.toNat % 256 ^ t.size).toUInt64
  | x => x

theorem WellFormed.fault? {x : Instr} (h : x.WellFormed) : x.fault? = none := by
  cases x <;> simp_all [WellFormed, Instr.fault?]

def type : Instr → RegType
  | set t .. | math _ t .. | cmp t .. | push t _ | pop t _ => t
  | func .. | call _ | ret _ | mov .. | jump .. => .s8

def tail : Instr → Bytes
  | func regs args => half regs ++ half args
  | call f => littleEndian 4 f.toNat
  | ret src => half src
  | set t dst imm => t.code :: half dst ++ littleEndian t.size imm.toNat
  | mov dst src => half dst ++ half src
  | math _ t dst a b => t.code :: half dst ++ half a ++ half b
  | cmp t a b => t.code :: half a ++ half b
  | jump _ l => littleEndian 4 l.toNat
  | push t src => t.code :: half src
  | pop t dst => t.code :: half dst

theorem bytes_eq (x : Instr) : x.bytes = word x.opcode ++ x.tail := by
  cases x <;> simp [bytes, tail, opcode]

theorem operandSize?_eq {x : Instr} (hx : x.WellFormed) :
    x.opcode.operandSize? x.type = some x.tail.length := by
  cases x with
  | math op t dst a b =>
    cases op <;> simp_all [WellFormed, Opcode.isMath, Opcode.operandSize?, opcode, tail, half,
      littleEndian_length]
  | jump op l =>
    cases op <;> simp_all [WellFormed, Opcode.isJump, Opcode.operandSize?, opcode, tail,
      littleEndian_length]
  | set t dst imm =>
    simp [Opcode.operandSize?, opcode, tail, type, half, littleEndian_length]
    omega
  | _ => simp [Opcode.operandSize?, opcode, tail, half, littleEndian_length]

theorem tail_of_isTyped {x : Instr} (hx : x.WellFormed) (ht : x.opcode.isTyped) :
    ∃ rest, x.tail = x.type.code :: rest := by
  cases x with
  | jump op l => cases op <;> simp_all [WellFormed, Opcode.isJump, Opcode.isTyped, opcode]
  | _ => simp_all [Opcode.isTyped, opcode, tail, type]

theorem type_isKnown {x : Instr} (hx : x.WellFormed) : x.type.isKnown := by
  cases x <;> simp_all [WellFormed, type, RegType.isKnown]

theorem type_of_not_isTyped {x : Instr} (hx : x.WellFormed) (ht : x.opcode.isTyped = false) :
    x.type = .s8 := by
  cases x with
  | math op t dst a b => cases op <;> simp_all [WellFormed, Opcode.isMath, Opcode.isTyped, opcode]
  | _ => simp_all [Opcode.isTyped, opcode, type]

theorem operands_of_holds {image : Image} {i : Nat} {x : Instr} (hx : x.WellFormed)
    (h : image.Holds i x.tail) : operands image x.opcode x.type i = x.cut := by
  cases x with
  | math op t dst a b =>
    simp only [tail, Image.holds_append, List.cons_append, Image.holds_cons, half,
      List.length_append, littleEndian_length] at h
    have h1 := Image.half_of_holds h.2.1.1
    have h2 := Image.half_of_holds h.2.1.2
    have h3 := Image.half_of_holds h.2.2
    cases op <;> simp_all [WellFormed, Opcode.isMath, operands, opcode, type, cut, Nat.add_assoc]
  | jump op l =>
    have hl := Image.full_of_holds h
    cases op <;> simp_all [WellFormed, Opcode.isJump, operands, opcode, cut]
  | func a b | mov a b =>
    simp only [tail, Image.holds_append, half, littleEndian_length] at h
    simp [operands, opcode, cut, Image.half_of_holds h.1, Image.half_of_holds h.2]
  | call f => simp [operands, opcode, cut, Image.full_of_holds h]
  | ret src => simp [operands, opcode, cut, Image.half_of_holds h]
  | push t r | pop t r =>
    simp only [tail, Image.holds_cons] at h
    simp [operands, opcode, cut, type, Image.half_of_holds h.2]
  | cmp t a b =>
    simp only [tail, Image.holds_append, List.cons_append, Image.holds_cons, half,
      littleEndian_length] at h
    simp [operands, opcode, cut, type, Image.half_of_holds h.2.1, Image.half_of_holds h.2.2]
  | set t dst imm =>
    simp only [tail, Image.holds_append, List.cons_append, Image.holds_cons, half,
      littleEndian_length] at h
    simp [operands, opcode, cut, type, Image.half_of_holds h.2.1, Image.number_of_holds h.2.2]

theorem isKnown_opcode {x : Instr} (hx : x.WellFormed) : x.opcode.isKnown = true := by
  cases x with
  | math op => cases op <;> first | rfl | cases hx.1
  | jump op => cases op <;> first | rfl | cases hx
  | _ => rfl

/-- What an instruction that is read consists of. -/
theorem decodeAt_eq_ok {image : Image} {pc next : Nat} {x : Instr}
    (h : decodeAt image pc = .ok (x, next)) :
    ∃ op t n, Opcode.ofCode (image.number 2 pc).toUInt16 = op ∧ op.isKnown = true ∧
      (if op.isTyped then RegType.ofCode (image.getD (pc + 2) 0) else .s8) = t ∧
      t.isKnown = true ∧ op.operandSize? t = some n ∧ pc + 2 + n ≤ image.size ∧
      x = operands image op t (pc + 2) ∧ next = pc + 2 + n := by
  unfold decodeAt at h
  dsimp only at h
  generalize hop : Opcode.ofCode (image.number 2 pc).toUInt16 = op at h
  generalize ht : (if op.isTyped then RegType.ofCode (image.getD (pc + 2) 0) else .s8) = t at h
  split at h
  · cases h
  split at h
  · cases h
  next hop =>
  split at h
  · cases h
  split at h
  · cases h
  next hbad =>
  split at h
  · cases h
  next hsize =>
  cases h
  have hknown : op.isKnown = true := by simpa using hop
  obtain ⟨n, hn⟩ : ∃ n, op.operandSize? t = some n := by
    cases op <;> first | exact ⟨_, rfl⟩ | cases hknown
  have htype : t.isKnown = true := by
    cases htyped : op.isTyped with
    | true => simpa [htyped] using hbad
    | false =>
      rw [← ht, htyped]
      rfl
  rw [hn, Option.getD_some] at hsize ⊢
  exact ⟨op, t, n, rfl, hknown, ht, htype, hn, by omega, rfl, rfl⟩

/-- Reading finds the instruction that was written at an offset. -/
theorem decodeAt_of_holds {image : Image} {pc : Nat} {x : Instr} (hx : x.WellFormed)
    (h : image.Holds pc x.bytes) : decodeAt image pc = .ok (x.cut, pc + x.bytes.length) := by
  have hlen : x.bytes.length = 2 + x.tail.length := by
    simp [bytes_eq, word, littleEndian_length]
  have hsize := h.le_size (by intro he; simp [he] at hlen; omega)
  rw [bytes_eq, Image.holds_append] at h
  obtain ⟨hw, htail⟩ := h
  simp only [word, littleEndian_length] at htail
  have hop : Opcode.ofCode (image.number 2 pc).toUInt16 = x.opcode := by
    rw [Image.half_of_holds (r := x.opcode.code) hw, Opcode.ofCode_code]
  have htype : (if x.opcode.isTyped then RegType.ofCode (image.getD (pc + 2) 0) else .s8) = x.type := by
    by_cases ht : x.opcode.isTyped
    · obtain ⟨rest, hr⟩ := tail_of_isTyped hx ht
      rw [hr, Image.holds_cons] at htail
      rw [if_pos ht, Array.getD_eq_getD_getElem?, htail.1]
      exact RegType.ofCode_code _
    · rw [if_neg ht, type_of_not_isTyped hx (by simpa using ht)]
  have hshort : ¬ (x.opcode.isTyped && image.size ≤ pc + 2) := by
    intro hc
    simp only [Bool.and_eq_true, decide_eq_true_eq] at hc
    obtain ⟨rest, hr⟩ := tail_of_isTyped hx hc.1
    rw [hlen, hr, List.length_cons] at hsize
    omega
  unfold decodeAt
  simp only [hop, htype, isKnown_opcode hx, operandSize?_eq hx, type_isKnown hx,
    operands_of_holds hx htail]
  rw [if_neg (by omega), if_neg (by simp), if_neg hshort, if_neg (by simp), Option.getD_some,
    if_neg (by omega), hlen, Nat.add_assoc]

end Instr
end RegisterLang
