import RegisterLang.Proofs.Tables

/-!
# Written instructions and read instructions

Writing and reading of instructions are inverse to each other. What is appended to an image is read
back from where the image ended before, instruction by instruction, and the reading stops where the
image ends now. An instruction that is read anywhere, whatever the bytes around it, is written as the
very bytes that it was read from.
-/
namespace RegisterLang
open Text

theorem Opcode.code_ofCode (c : UInt16) : (ofCode c).code = c := by
  unfold ofCode
  split <;> first | rfl | exact UInt16.toNat.inj (by simpa [code] using Eq.symm ‹c.toNat = _›)

theorem RegType.code_ofCode (c : UInt8) : (ofCode c).code = c := by
  unfold ofCode
  split <;> first | rfl | exact UInt8.toNat.inj (by simpa [code] using Eq.symm ‹c.toNat = _›)

namespace Image
variable {image : Image} {offset : Nat}

theorem number_lt (image : Image) (width offset : Nat) : image.number width offset < 256 ^ width := by
  induction width generalizing offset with
  | zero => simp [number]
  | succ width ih =>
    have hlow := (image.getD offset 0).toNat_lt
    have hhigh := ih (offset + 1)
    rw [number, Nat.pow_succ]
    omega

/-- The number that is read from some bytes is written as these bytes. -/
theorem holds_number {width : Nat} (h : offset + width ≤ image.size) :
    image.Holds offset (littleEndian width (image.number width offset)) := by
  induction width generalizing offset with
  | zero => exact holds_nil
  | succ width ih =>
    have hlt := (image.getD offset 0).toNat_lt
    have hlow : (image.number (width + 1) offset % 256).toUInt8 = image.getD offset 0 := by
      apply UInt8.toNat.inj
      simp only [number, Nat.toUInt8_eq, UInt8.toNat_ofNat']
      omega
    have hhigh : image.number (width + 1) offset / 256 = image.number width (offset + 1) := by
      rw [number]
      omega
    rw [littleEndian, holds_cons, hlow, hhigh]
    refine ⟨?_, ih (by omega)⟩
    rw [Array.getD_eq_getD_getElem?, Array.getElem?_eq_getElem (by omega)]
    rfl

theorem holds_half (h : offset + 2 ≤ image.size) :
    image.Holds offset (Instr.half (image.number 2 offset).toUInt16) := by
  have hlt := image.number_lt 2 offset
  rw [Instr.half, Nat.toUInt16_eq, UInt16.toNat_ofNat', Nat.mod_eq_of_lt (by omega)]
  exact holds_number h

theorem holds_full (h : offset + 4 ≤ image.size) :
    image.Holds offset (littleEndian 4 (image.number 4 offset).toUInt32.toNat) := by
  have hlt := image.number_lt 4 offset
  rw [Nat.toUInt32_eq, UInt32.toNat_ofNat', Nat.mod_eq_of_lt (by omega)]
  exact holds_number h

/-- The bytes that lie at an offset are the piece of the image from there to their end. -/
theorem Holds.extract_eq {bytes : Bytes} (h : image.Holds offset bytes) (hne : bytes ≠ []) :
    (image.extract offset (offset + bytes.length)).toList = bytes := by
  have hsize := h.le_size hne
  apply List.ext_getElem?
  intro i
  rw [Array.getElem?_toList, Array.getElem?_extract]
  by_cases hi : i < bytes.length
  · rw [if_pos (by omega), h i hi]
  · rw [if_neg (by omega), List.getElem?_eq_none (by omega)]

end Image

namespace Instr

/-- An immediate has no more bytes than its type. -/
def Fits : Instr → Prop
  | set t _ imm => imm.toNat < 2 ^ (8 * t.size)
  | func .. | call _ | ret _ | mov .. | math .. | cmp .. | jump .. | push .. | pop .. => True

instance : DecidablePred Fits
  | set t _ imm => Nat.decLt imm.toNat (2 ^ (8 * t.size))
  | func .. | call _ | ret _ | mov .. | math .. | cmp .. | jump .. | push .. | pop .. =>
    .isTrue trivial

theorem Fits.cut_eq {x : Instr} (h : x.Fits) : x.cut = x := by
  cases x with
  | set t dst imm =>
    rw [Fits, Nat.pow_mul] at h
    rw [cut, Nat.mod_eq_of_lt h]
    simp
  | _ => rfl

section
variable {image : Image} {op : Opcode} {t : RegType} {i n : Nat}

theorem opcode_operands : (operands image op t i).opcode = op := by
  cases op <;> rfl

theorem wellFormed_operands (hn : op.operandSize? t = some n) (hknown : t.isKnown = true) :
    (operands image op t i).WellFormed := by
  cases op with
  | unknown => cases hn
  | func | call | ret | mov => trivial
  | set | cmp | push | pop => exact hknown
  | add | sub | mul | div | mod => exact ⟨rfl, hknown⟩
  | jmp | jl | jg | je | jne | jz | jnz => rfl

theorem toNat_immediate (image : Image) (t : RegType) (offset : Nat) :
    (image.number t.size offset).toUInt64.toNat = image.number t.size offset := by
  have hlt := image.number_lt t.size offset
  have hle : 256 ^ t.size ≤ 2 ^ 64 := Nat.pow_le_pow_right (by decide) t.size_le
  rw [Nat.toUInt64_eq, UInt64.toNat_ofNat', Nat.mod_eq_of_lt (by omega)]

theorem fits_operands : (operands image op t i).Fits := by
  cases op with
  | set =>
    change (image.number t.size (i + 3)).toUInt64.toNat < 2 ^ (8 * t.size)
    rw [toNat_immediate, Nat.pow_mul]
    exact image.number_lt _ _
  | _ => trivial

/-- The operands that are read are written as the bytes that they were read from. -/
theorem holds_operands (hn : op.operandSize? t = some n) (hsize : i + n ≤ image.size)
    (htype : op.isTyped = true → RegType.ofCode (image.getD i 0) = t) :
    (operands image op t i).tail.length = n ∧ image.Holds i (operands image op t i).tail := by
  have hhalf : ∀ k, k + 2 ≤ n → image.Holds (i + k) (half (image.number 2 (i + k)).toUInt16) :=
    fun k hk => Image.holds_half (by omega)
  have hcode : op.isTyped = true → 1 ≤ n → image[i]? = some t.code := by
    intro htyped hpos
    rw [← htype htyped, RegType.code_ofCode, Array.getD_eq_getD_getElem?,
      Array.getElem?_eq_getElem (by omega)]
    rfl
  have hhead : ∀ {rest : Bytes}, op.isTyped = true → 1 ≤ n → image.Holds (i + 1) rest →
      image.Holds i (t.code :: rest) :=
    fun htyped hpos hrest => Image.holds_cons.mpr ⟨hcode htyped hpos, hrest⟩
  have hlen : ∀ r, (half r).length = 2 := fun r => littleEndian_length 2 _
  cases op with
  | unknown => cases hn
  | func | mov =>
    cases hn
    refine ⟨by simp [operands, tail, hlen], Image.holds_append.mpr ⟨hhalf 0 (by omega), ?_⟩⟩
    rw [hlen]
    exact hhalf 2 (by omega)
  | ret =>
    cases hn
    exact ⟨by simp [operands, tail, hlen], hhalf 0 (by omega)⟩
  | call | jmp | jl | jg | je | jne | jz | jnz =>
    cases hn
    exact ⟨by simp [operands, tail, littleEndian_length], Image.holds_full (by omega)⟩
  | push | pop =>
    cases hn
    exact ⟨by simp [operands, tail, hlen], hhead rfl (by omega) (hhalf 1 (by omega))⟩
  | cmp =>
    cases hn
    refine ⟨by simp [operands, tail, hlen], hhead rfl (by omega) (Image.holds_append.mpr
      ⟨hhalf 1 (by omega), ?_⟩)⟩
    rw [hlen]
    exact hhalf 3 (by omega)
  | add | sub | mul | div | mod =>
    cases hn
    refine ⟨by simp [operands, tail, hlen], hhead rfl (by omega) (Image.holds_append.mpr
      ⟨Image.holds_append.mpr ⟨hhalf 1 (by omega), ?_⟩, ?_⟩)⟩
    · rw [hlen]
      exact hhalf 3 (by omega)
    · exact hhalf 5 (by omega)
  | set =>
    cases hn
    refine ⟨by simp [operands, tail, hlen, littleEndian_length]; omega, hhead rfl (by omega)
      (Image.holds_append.mpr ⟨hhalf 1 (by omega), ?_⟩)⟩
    rw [hlen, toNat_immediate]
    exact Image.holds_number (by omega)

end

/-- An instruction that is read can be written, and its bytes lie where it was read. -/
theorem decodeAt_holds {image : Image} {pc next : Nat} {x : Instr}
    (h : decodeAt image pc = .ok (x, next)) :
    x.WellFormed ∧ x.Fits ∧ image.Holds pc x.bytes ∧ next = pc + x.bytes.length := by
  obtain ⟨op, t, n, hop, -, htype, hknown, hn, hsize, rfl, rfl⟩ := decodeAt_eq_ok h
  obtain ⟨hlength, hholds⟩ := holds_operands hn hsize fun htyped => by rwa [if_pos htyped] at htype
  refine ⟨wellFormed_operands hn hknown, fits_operands, ?_, ?_⟩
  · rw [bytes_eq, opcode_operands, Image.holds_append, word, littleEndian_length]
    refine ⟨?_, hholds⟩
    have hword := image.holds_half (by omega : pc + 2 ≤ image.size)
    rwa [half, ← Opcode.code_ofCode (image.number 2 pc).toUInt16, hop] at hword
  · rw [bytes_eq, List.length_append, word, littleEndian_length, hlength]
    omega

theorem bytes_ne_nil (x : Instr) : x.bytes ≠ [] := by
  rw [bytes_eq]
  simp [word, littleEndian]

inductive Reads (image : Image) : Nat → List Instr → Nat → Prop
  | done {pc : Nat} : Reads image pc [] pc
  | next {pc after stop : Nat} {x : Instr} {rest : List Instr} :
      decode image pc = .ok (x, after) → Reads image after rest stop →
      Reads image pc (x :: rest) stop

theorem decode_natCast (image : Image) (pc : Nat) : decode image pc = decodeAt image pc := by
  rw [decode, if_neg (by omega), Int.toNat_natCast]

theorem reads_of_holds {image : Image} {pc : Nat} {xs : List Instr}
    (hxs : ∀ x ∈ xs, x.WellFormed ∧ x.Fits) (h : image.Holds pc (xs.flatMap bytes)) :
    Reads image pc xs (pc + (xs.flatMap bytes).length) := by
  induction xs generalizing pc with
  | nil => exact .done
  | cons x xs ih =>
    rw [List.forall_mem_cons] at hxs
    rw [List.flatMap_cons, Image.holds_append] at h
    have hread := decodeAt_of_holds hxs.1.1 h.1
    rw [hxs.1.2.cut_eq, ← decode_natCast] at hread
    refine .next hread ?_
    rw [List.flatMap_cons, List.length_append, ← Nat.add_assoc]
    exact ih hxs.2 h.2

theorem Reads.le {image : Image} {pc stop : Nat} {xs : List Instr} (h : Reads image pc xs stop) :
    pc ≤ stop := by
  induction h with
  | done => exact Nat.le_refl _
  | next hx _ ih =>
    rw [decode_natCast] at hx
    exact Nat.le_trans (Nat.le_of_lt (decodeAt_bounds hx).1) ih

/-- Reading to the end of an image finds no error where a list of instructions ends there. -/
theorem decodeFrom_of_reads {image : Image} {pc : Nat} {x : Instr} {xs : List Instr}
    (h : Reads image pc (x :: xs) image.size) (acc : Array (Nat × Instr × Nat)) :
    ∃ read, decodeFrom image acc pc = (acc ++ read, none) ∧ read.toList.map (·.2.1) = x :: xs := by
  induction xs generalizing pc x acc with
  | nil =>
    obtain _ | ⟨hx, hrest⟩ := h
    cases hrest
    rw [decode_natCast] at hx
    refine ⟨#[(pc, x, image.size)], ?_, rfl⟩
    rw [decodeFrom]
    split
    next e he => rw [hx] at he; cases he
    next y next he =>
      rw [hx] at he
      cases he
      rw [if_neg (Nat.lt_irrefl _)]
      rfl
  | cons y ys ih =>
    obtain _ | @⟨_, after, _, _, _, hx, hrest⟩ := h
    obtain _ | @⟨_, after', _, _, _, hy, hrest'⟩ := hrest
    obtain ⟨read, hread, hlist⟩ := ih (.next hy hrest') (acc.push (pc, x, after))
    rw [decode_natCast] at hx hy
    refine ⟨#[(pc, x, after)] ++ read, ?_, by simp [hlist]⟩
    have hlt : after < image.size :=
      Nat.lt_of_lt_of_le (decodeAt_bounds hy).1 hrest'.le
    rw [decodeFrom]
    split
    next e he => rw [hx] at he; cases he
    next z next he =>
      rw [hx] at he
      cases he
      rw [if_pos hlt, hread]
      simp

end Instr

namespace Builder

theorem emit_eq {x : Instr} (hx : x.WellFormed) (b : Builder) :
    b.emit x = (b.append x.bytes, none) := by
  rw [emit, hx.fault?]

/-- Instructions that can be written are appended one after the other. -/
theorem image_run_emit {xs : List Instr} (hxs : ∀ x ∈ xs, x.WellFormed) (b : Builder) :
    (b.run (xs.map .emit)).image = b.image ++ xs.flatMap Instr.bytes := by
  induction xs generalizing b with
  | nil => simp [run]
  | cons x xs ih =>
    rw [List.forall_mem_cons] at hxs
    have hstep : b.run ((x :: xs).map .emit) = (b.append x.bytes).run (xs.map .emit) := by
      simp [run, step, emit_eq hxs.1]
    rw [hstep, ih hxs.2, List.flatMap_cons]
    apply Array.toList_inj.mp
    simp [append, Array.toList_appendList]

/-- None of them is refused. -/
theorem trace_emit {xs : List Instr} (hxs : ∀ x ∈ xs, x.WellFormed) (b : Builder) :
    ∀ o ∈ b.trace (xs.map .emit), o.2 = none := by
  suffices h : ∀ done : Array Outcome, (∀ o ∈ done, o.2 = none) →
      ∀ o ∈ ((xs.map Step.emit).foldl (fun (l : Array Outcome × Builder) s =>
        let r := l.2.step s
        (l.1.push r, r.1)) (done, b)).1, o.2 = none by
    intro o ho
    exact h #[] (by simp) o (by simpa [trace] using ho)
  induction xs generalizing b with
  | nil => exact fun done hdone => hdone
  | cons x xs ih =>
    rw [List.forall_mem_cons] at hxs
    intro done hdone
    rw [List.map_cons, List.foldl_cons]
    dsimp only
    refine ih hxs.2 _ _ ?_
    intro o ho
    rcases Array.mem_push.mp ho with ho | rfl
    · exact hdone o ho
    · rw [step, emit_eq hxs.1]

end Builder

namespace Instr

/-- Encoding and decoding are inverse. A list of instructions that can be written, with immediates that
fit, is appended to any image without a refusal, and reading again and again from where the image
ended gives this list and stops where the image ends now. Conversely an instruction that is read at any
offset of any image is appended as exactly the bytes from this offset to the one after it. -/
theorem emit_inverse_decode :
    (∀ (b : Builder) (xs : List Instr), (∀ x ∈ xs, x.WellFormed ∧ x.Fits) →
      let written := b.run (xs.map .emit)
      (∀ o ∈ b.trace (xs.map .emit), o.2 = none) ∧
        Reads written.image b.size xs written.size ∧
        (xs ≠ [] → ∃ read, decodeFrom written.image #[] b.size = (read, none) ∧
          read.toList.map (·.2.1) = xs)) ∧
    ∀ (image : Image) (pc : Int) (x : Instr) (next : Nat), decode image pc = .ok (x, next) →
      ∀ b : Builder, (b.emit x).2 = none ∧
        (b.emit x).1.image = b.image ++ image.extract pc.toNat next := by
  constructor
  · intro b xs hxs
    have hwell : ∀ x ∈ xs, x.WellFormed := fun x hx => (hxs x hx).1
    have himage := Builder.image_run_emit hwell b
    have hreads : Reads (b.run (xs.map .emit)).image b.size xs (b.run (xs.map .emit)).size := by
      have hread := reads_of_holds hxs (Image.holds_appended b.image (xs.flatMap bytes))
      rwa [← Image.size_append, ← himage] at hread
    refine ⟨Builder.trace_emit hwell b, hreads, fun hne => ?_⟩
    obtain ⟨x, rest, rfl⟩ := List.exists_cons_of_ne_nil hne
    obtain ⟨read, hread, hlist⟩ := decodeFrom_of_reads hreads #[]
    exact ⟨read, by simpa using hread, hlist⟩
  · intro image pc x next h b
    have hread : decodeAt image pc.toNat = .ok (x, next) := by
      unfold decode at h
      split at h
      · cases h
      · exact h
    obtain ⟨hwell, -, hholds, rfl⟩ := decodeAt_holds hread
    rw [Builder.emit_eq hwell]
    refine ⟨rfl, ?_⟩
    change b.image ++ x.bytes = _
    apply Array.toList_inj.mp
    rw [Array.toList_appendList, Array.toList_append, hholds.extract_eq (bytes_ne_nil x)]

/-- One instruction of every form, on an image with a function and a label. -/
theorem emit_inverse_decode_forms :
    let b := Builder.make 16 1 1
    let xs : List Instr := [.func 3 1, .set .u16 2 65535, .mov 0 2, .math .mod .s64 0 1 2,
      .cmp .float 1 2, .jump .jne 7, .push .pointer 3, .pop .double 4, .call 1, .ret 0]
    (∀ x ∈ xs, x.WellFormed ∧ x.Fits) ∧
      Reads (b.run (xs.map .emit)).image b.size xs (b.run (xs.map .emit)).size ∧
      decode #[9, 3, 0, 1, 2, 0, 7, 5] 1 = .ok (.set .u8 2 7, 7) ∧
      (b.emit (.set .u8 2 7)).1.image = b.image ++ Array.extract #[9, 3, 0, 1, 2, 0, 7, 5] 1 7 := by
  have hxs : ∀ x ∈ [Instr.func 3 1, .set .u16 2 65535, .mov 0 2, .math .mod .s64 0 1 2,
      .cmp .float 1 2, .jump .jne 7, .push .pointer 3, .pop .double 4, .call 1, .ret 0],
      x.WellFormed ∧ x.Fits := by decide
  have hread : decode #[9, 3, 0, 1, 2, 0, 7, 5] 1 = .ok (.set .u8 2 7, 7) := rfl
  exact ⟨hxs, (emit_inverse_decode.1 _ _ hxs).2.1, hread, (emit_inverse_decode.2 _ _ _ _ hread _).2⟩

end Instr

end RegisterLang
