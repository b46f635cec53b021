import RegisterLang.Proofs.Execution
import RegisterLang.Proofs.Guarded

/-!
# Accesses in range

What the machine that checks its accesses reads of an image is what the machine reads, whatever the
bytes are. From a safe state every instruction does the same on both.
-/
namespace RegisterLang.Machine.Guarded
open Checked Text

def Checked.ofExcept {ε α : Type} : Except ε α → Checked ε α
  | .ok a => done a
  | .error e => fault e

section
variable {ε ε' α β : Type}

@[simp] theorem access_some_bind (a : α) (f : α → Checked ε β) : (access (some a) >>= f) = f a := rfl

@[simp] theorem done_bind (a : α) (f : α → Checked ε β) : (done a >>= f) = f a := rfl

@[simp] theorem fault_bind (e : ε) (f : α → Checked ε β) : (fault e >>= f) = fault e := rfl

@[simp] theorem ofExcept_ok (a : α) : ofExcept (.ok a : Except ε α) = done a := rfl

end

theorem at?_natCast {α : Type} (xs : Array α) (n : Nat) : at? xs n = xs[n]? := by
  have hn : (0 : Int) ≤ n := Int.natCast_nonneg n
  rw [at?, if_pos hn, Int.toNat_natCast]

theorem put?_natCast {α : Type} {xs : Array α} {n : Nat} (h : n < xs.size) (a : α) :
    put? xs n a = some (xs.setIfInBounds n a) := by
  rw [put?, if_pos ⟨Int.natCast_nonneg n, Int.ofNat_lt.mpr h⟩, Int.toNat_natCast]

theorem number?_natCast {bytes : Array UInt8} {width n : Nat} (h : n + width ≤ bytes.size) :
    number? bytes width n = some (Image.number bytes width n) := by
  induction width generalizing n with
  | zero => rfl
  | succ width ih =>
    have hlow : at? bytes n = some (bytes.getD n 0) := by
      have hlt : n < bytes.size := by omega
      rw [at?_natCast, Array.getD_eq_getD_getElem?, Array.getElem?_eq_getElem hlt, Option.getD_some]
    have hhigh : number? bytes width ((n : Int) + 1) = some (Image.number bytes width (n + 1)) :=
      ih (show n + 1 + width ≤ bytes.size by omega)
    rw [number?, hlow, hhigh]
    rfl

/-- The same at an offset from an index. -/
theorem number?_add {bytes : Array UInt8} {width n offset : Nat}
    (h : n + offset + width ≤ bytes.size) :
    number? bytes width ((n : Int) + (offset : Int)) = some (Image.number bytes width (n + offset)) :=
  number?_natCast h

theorem readEntries?_eq {image : Image} {n left offset : Nat} {table : Array UInt32}
    (hsize : offset + left * Image.entrySize ≤ image.size) (htable : table.size = n) :
    readEntries? image n left offset table =
      ofExcept (Header.readEntries image n left offset table) := by
  induction left generalizing offset table with
  | zero => rfl
  | succ left ih =>
    have hbytes : offset + 8 + left * 8 ≤ image.size := by
      have : (left + 1) * Image.entrySize = left * 8 + 8 := Nat.succ_mul left 8
      omega
    have hindex : number? image 4 offset = some (image.number 4 offset) :=
      number?_natCast (by omega)
    have hpos : number? image 4 ((offset : Int) + 4) = some (image.number 4 (offset + 4)) :=
      number?_add (show offset + 4 + 4 ≤ image.size by omega)
    rw [readEntries?, Header.readEntries, hindex, hpos]
    simp only [access_some_bind]
    by_cases hn : n ≤ image.number 4 offset
    · rw [if_pos hn, if_pos hn]
      rfl
    · rw [if_neg hn, if_neg hn, put?_natCast (by omega), access_some_bind]
      exact ih hbytes (by rw [Array.size_setIfInBounds, htable])

theorem readTable?_eq (image : Image) (offset : Nat) :
    readTable? image offset = ofExcept (Header.readTable image offset) := by
  unfold readTable? Header.readTable
  by_cases hcount : image.size < offset + 4
  · rw [if_pos hcount, if_pos hcount]
    rfl
  rw [if_neg hcount, if_neg hcount]
  have hnumber : number? image 4 offset = some (image.number 4 offset) :=
    number?_natCast (by omega)
  rw [hnumber, access_some_bind]
  dsimp only
  generalize hn : image.number 4 offset = n
  by_cases hshort : (image.size - (offset + 4)) / Image.entrySize < n
  · rw [if_pos hshort, if_pos hshort]
    rfl
  rw [if_neg hshort, if_neg hshort]
  have hroom : offset + 4 + n * Image.entrySize ≤ image.size := by
    have hle : n * Image.entrySize ≤ image.size - (offset + 4) :=
      (Nat.le_div_iff_mul_le (by decide)).mp (Nat.le_of_not_lt hshort)
    omega
  rw [readEntries?_eq hroom Array.size_replicate]
  cases Header.readEntries image n n (offset + 4) (Array.replicate n 0) <;> rfl

theorem isMagic?_eq (image : Image) :
    isMagic? image = some (decide ((image.take 4).toList = Image.magic)) := by
  unfold isMagic?
  by_cases hsize : image.size < 4
  · have hne : (image.take 4).toList ≠ Image.magic := by
      intro heq
      have hlength := congrArg List.length heq
      simp [Image.magic] at hlength
      omega
    rw [if_pos hsize, decide_eq_false hne]
  · obtain ⟨_ | ⟨b₀, _ | ⟨b₁, _ | ⟨b₂, _ | ⟨b₃, rest⟩⟩⟩⟩⟩ := image
    iterate 4 simp at hsize
    have htake : (Array.take ⟨b₀ :: b₁ :: b₂ :: b₃ :: rest⟩ 4).toList = [b₀, b₁, b₂, b₃] := by
      simp
    rw [if_neg hsize, htake]
    rfl

theorem readHeader?_eq (image : Image) : readHeader? image = ofExcept (Header.read image) := by
  unfold readHeader? Header.read
  rw [isMagic?_eq, access_some_bind]
  by_cases hmagic : (image.take 4).toList = Image.magic
  · rw [if_pos (decide_eq_true hmagic), if_neg (not_not_intro hmagic), readTable?_eq]
    cases Header.readTable image Image.tablesStart with
    | error e => rfl
    | ok table =>
      obtain ⟨functions, offset⟩ := table
      change (mapFault HeaderError.labels (readTable? image offset) >>= _) = _
      rw [readTable?_eq]
      dsimp only
      cases Header.readTable image offset <;> rfl
  · rw [if_neg (by simpa using hmagic), if_pos hmagic]
    rfl

theorem prologue?_eq (p : Program) (index : UInt32) :
    prologue? p index = ofExcept (p.prologue index) := by
  unfold prologue? Program.prologue
  by_cases hindex : index.toNat < p.functions.size
  · rw [if_pos hindex, dif_pos hindex, at?_natCast, Array.getElem?_eq_getElem hindex,
      access_some_bind]
    dsimp only
    generalize p.functions[index.toNat].toNat = offset
    by_cases hsize : p.image.size < offset + Prologue.size
    · rw [if_pos hsize, if_pos hsize]
      rfl
    rw [if_neg hsize, if_neg hsize]
    have hprologue : Prologue.size = 6 := rfl
    have hop : number? p.image 2 offset = some (p.image.number 2 offset) :=
      number?_natCast (by omega)
    have hregs : number? p.image 2 ((offset : Int) + 2) = some (p.image.number 2 (offset + 2)) :=
      number?_add (show offset + 2 + 2 ≤ p.image.size by omega)
    have hargs : number? p.image 2 ((offset : Int) + 4) = some (p.image.number 2 (offset + 4)) :=
      number?_add (show offset + 4 + 2 ≤ p.image.size by omega)
    rw [hop, hregs, hargs]
    simp only [access_some_bind]
    split <;> rfl
  · rw [if_neg hindex, dif_neg hindex]
    rfl

def Read.ofFetched (i : Fetched) : Read := ⟨i.op, i.type, i.next⟩

theorem type?_eq {image : Image} {pc : Nat} (op : Opcode) :
    type? image pc op =
      if op.isTyped && image.size < pc + 3 then fault (.short op)
      else
        let t := if op.isTyped then RegType.ofCode (image.getD (pc + 2) 0) else .s8
        if op.isTyped && !t.isKnown then fault (.badRegType op t.code) else done t := by
  unfold type?
  cases op.isTyped with
  | false => rfl
  | true =>
    by_cases hsize : image.size < pc + 3
    · rw [if_pos rfl, if_pos (by omega), if_pos (by simpa using hsize)]
    · have hlt : pc + 2 < image.size := by omega
      have hcode : at? image ((pc : Int) + 2) = some (image.getD (pc + 2) 0) := by
        have := at?_natCast image (pc + 2)
        rw [Array.getElem?_eq_getElem hlt] at this
        rw [Array.getD_eq_getD_getElem?, Array.getElem?_eq_getElem hlt, Option.getD_some]
        exact this
      rw [if_pos rfl, if_neg (by omega), if_neg (by simpa using hsize), hcode, access_some_bind]
      dsimp only
      generalize RegType.ofCode (image.getD (pc + 2) 0) = t
      by_cases ht : t.isKnown = true
      · have hknown : ¬ (true && !t.isKnown) = true := by simp [ht]
        exact (if_pos ht).trans (if_neg hknown).symm
      · simp [ht]

theorem fetch?_eq (image : Image) (pc : Nat) :
    fetch? image pc = ofExcept ((fetch image pc).map Read.ofFetched) := by
  unfold fetch? fetch
  by_cases hsize : image.size < pc + 2
  · rw [if_pos (by omega), if_pos hsize]
    rfl
  have hop : number? image 2 pc = some (image.number 2 pc) := number?_natCast (by omega)
  rw [if_neg (by omega), if_neg hsize, hop, access_some_bind]
  dsimp only
  generalize Opcode.ofCode (image.number 2 pc).toUInt16 = op
  rw [type?_eq]
  split
  · rfl
  · dsimp only
    generalize (if op.isTyped then RegType.ofCode (image.getD (pc + 2) 0) else .s8) = t
    split
    · rfl
    · rw [done_bind]
      cases op.operandSize? t with
      | none => rfl
      | some n =>
        dsimp only
        by_cases hn : image.size < pc + 2 + n
        · rw [if_pos (by omega), if_pos hn]
          rfl
        · rw [if_neg (by omega), if_neg hn]
          rfl

theorem fetch_bounds {image : Image} {pc : Nat} {i : Fetched} (h : fetch image pc = .ok i) :
    ∃ n, i.op.operandSize? i.type = some n ∧ i.next = pc + 2 + n ∧ pc + 2 + n ≤ image.size := by
  unfold fetch at h
  dsimp only at h
  generalize Opcode.ofCode (image.number 2 pc).toUInt16 = op at h
  generalize (if op.isTyped then RegType.ofCode (image.getD (pc + 2) 0) else .s8) = t at h
  split at h
  · cases h
  split at h
  · cases h
  split at h
  · cases h
  split at h
  · cases h
  next n hn =>
    by_cases hsize : image.size < pc + 2 + n
    · rw [if_pos hsize] at h
      cases h
    · rw [if_neg hsize] at h
      cases h
      exact ⟨n, hn, rfl, by omega⟩

def view (s : State) : Loop :=
  ⟨s.regs, s.frame :: s.callers, s.stack, s.flags, s.frame.start, s.pc⟩

def viewNext : Next → Loop ⊕ Register
  | .running s => .inl (view s)
  | .returned v _ => .inr v

section
variable {limits : Limits} {s : State}

theorem start_nonneg (hs : (view s).Safe limits) : 0 ≤ s.frame.start :=
  (hs.window s.frame List.mem_cons_self).1

theorem half?_eq {image : Image} {pc offset : Nat} (h : pc + offset + 2 ≤ image.size) :
    half? image pc offset = done (image.number 2 (pc + offset)).toUInt16 := by
  rw [half?, number?_add h]
  rfl

theorem full?_eq {image : Image} {pc offset : Nat} (h : pc + offset + 4 ≤ image.size) :
    full? image pc offset = done (image.number 4 (pc + offset)).toUInt32 := by
  rw [full?, number?_add h]
  rfl

theorem reg?_eq {i : Nat} (hi : i < s.regs.size) : (view s).reg? i = done (s.reg i) := by
  have hreg : at? s.regs i = some (s.reg i) := by
    rw [at?_natCast, State.reg, Array.getD_eq_getD_getElem?, Array.getElem?_eq_getElem hi,
      Option.getD_some]
  exact congrArg access hreg

theorem place?_eq {l : Loop} {base : Nat} (hbase : l.base = base) (r : Reg) :
    place? l r =
      if base + r.toNat < l.regs.size then done ((base + r.toNat : Nat) : Int)
      else fault (.register r l.base) := by
  have hplace : l.base + (r.toNat : Int) = (base + r.toNat : Nat) := by omega
  unfold place?
  dsimp only
  rw [hplace]
  by_cases hlt : base + r.toNat < l.regs.size
  · have hle : ¬ (l.regs.size : Int) ≤ (base + r.toNat : Nat) := by omega
    rw [if_neg hle, if_pos hlt, at?_natCast, Array.getElem?_eq_getElem hlt]
    rfl
  · have hle : (l.regs.size : Int) ≤ (base + r.toNat : Nat) := by omega
    rw [if_pos hle, if_neg hlt]

/-- Something that is done with a register, which is there. -/
theorem place?_bind {α : Type} (hs : (view s).Safe limits) {r : Reg}
    {f : Int → Checked RunFault α} {g : Nat → Except RunFault α}
    (h : ∀ i : Nat, s.frame.start.toNat ≤ i → i < s.regs.size → f i = ofExcept (g i)) :
    (place? (view s) r >>= f) = ofExcept (s.place r >>= g) := by
  have hbase : (view s).base = s.frame.start.toNat := (Int.toNat_of_nonneg (start_nonneg hs)).symm
  have hplace : place? (view s) r =
      if s.frame.start.toNat + r.toNat < s.regs.size then
        done ((s.frame.start.toNat + r.toNat : Nat) : Int)
      else fault (.register r s.frame.start) := place?_eq hbase r
  rw [hplace]
  unfold State.place
  by_cases hlt : s.frame.start.toNat + r.toNat < s.regs.size
  · rw [if_pos hlt, if_pos hlt]
    exact h _ (Nat.le_add_right _ _) hlt
  · rw [if_neg hlt, if_neg hlt]
    rfl

theorem write?_eq {i : Nat} (hi : i < s.regs.size) (v : Register) (next : Nat) :
    (view s).write? i v next = done (view (s.write i v next)) := by
  unfold Loop.write?
  dsimp only [view]
  rw [put?_natCast hi]
  rfl

theorem call?_eq (p : Program) (index : UInt32) (next : Nat) :
    (call? p limits (view s) index next >>= fun l => done (.inl l)) =
      Checked.ofExcept
        (callFrame p limits s index next >>= fun e => .ok (viewNext (s.apply next e))) := by
  unfold call? callFrame
  rw [prologue?_eq]
  cases p.prologue index with
  | error e => rfl
  | ok f =>
    have hdepth : (view s).frames.length = s.depth := rfl
    have hhead : (view s).frames.head? = some s.frame := rfl
    have hsize : (view s).regs.size = s.regs.size := rfl
    rw [hhead]
    simp only [hdepth, hsize, access_some_bind, ofExcept_ok, done_bind]
    by_cases hframes : limits.frames ≤ s.depth
    · rw [if_pos hframes]
      simp only [if_pos hframes]
      rfl
    · rw [if_neg hframes]
      simp only [if_neg hframes]
      change _ = Checked.ofExcept ((if _ then _ else _) >>= _)
      by_cases hwindow : s.frame.stop - f.args < 0 ∨ s.regs.size < s.frame.stop - f.args + f.regs
      · rw [if_pos hwindow, if_pos hwindow]
        rfl
      · rw [if_neg hwindow, if_neg hwindow]
        rfl

theorem return?_eq (hs : (view s).Safe limits) (hstart : s.frame.start.toNat < s.regs.size)
    (v : Register) (next : Nat) :
    return? (view s) v = done (viewNext (s.apply next (.leave v))) := by
  have hhead : (view s).frames.head? = some s.frame := rfl
  have htail : (view s).frames.tail = s.callers := rfl
  have hput : put? (view s).regs s.frame.start v =
      some (s.regs.setIfInBounds s.frame.start.toNat v) := by
    have := put?_natCast hstart v
    rw [Int.toNat_of_nonneg (start_nonneg hs)] at this
    exact this
  unfold return? State.apply
  rw [hhead, access_some_bind, htail, hput, access_some_bind]
  cases hcallers : s.callers with
  | nil => rfl
  | cons caller rest =>
    have hmem : s.frame ∈ (view s).frames.dropLast := by
      simp [view, hcallers]
    have hret : ((s.frame.ret.toNat : Nat) : Int) = s.frame.ret :=
      Int.toNat_of_nonneg (hs.ret s.frame hmem)
    simp only [viewNext, view, hret]
    rfl

theorem jump?_eq (p : Program) (op : Opcode) (l : UInt32) (next : Nat) :
    (jump? p (view s) op l next >>= fun l => done (.inl l)) =
      Checked.ofExcept
        ((if h : l.toNat < p.labels.size then
            pure (if Operation.taken op s.flags then .jump p.labels[l.toNat].toNat else .goOn)
          else throw (.labelIndex l p.labels.size)) >>= fun e =>
            .ok (viewNext (s.apply next e))) := by
  have hflags : (view s).flags = s.flags := rfl
  unfold jump?
  rw [hflags]
  by_cases hl : l.toNat < p.labels.size
  · rw [if_pos hl, dif_pos hl, at?_natCast, Array.getElem?_eq_getElem hl, access_some_bind]
    cases Operation.taken op s.flags <;> rfl
  · rw [if_neg hl, dif_neg hl]
    rfl

theorem perform?_eq {p : Program} {i : Fetched} (hs : (view s).Safe limits)
    (hi : fetch p.image s.pc = .ok i) :
    perform? p limits (view s) (.ofFetched i) =
      Checked.ofExcept (effect p limits s i >>= fun e => .ok (viewNext (s.apply i.next e))) := by
  obtain ⟨n, hn, hnext, hsize⟩ := fetch_bounds hi
  obtain ⟨op, t, next⟩ := i
  have hpc : (view s).pc = s.pc := rfl
  unfold perform? effect Read.ofFetched
  dsimp only at hn hnext ⊢
  rw [hpc]
  cases op with
  | func => rfl
  | call =>
    cases hn
    dsimp only
    rw [full?_eq (by omega), done_bind]
    exact call?_eq p _ next
  | ret =>
    cases hn
    simp only [bind_assoc, pure_bind]
    rw [half?_eq (by omega), done_bind]
    apply place?_bind hs
    intro src hstart hsrc
    rw [reg?_eq hsrc, done_bind]
    exact return?_eq hs (by omega) _ next
  | set =>
    cases hn
    simp only [bind_assoc, pure_bind]
    rw [half?_eq (by omega), done_bind]
    apply place?_bind hs
    intro dst _ hdst
    have himm : number? p.image t.size ((s.pc : Int) + 5) = some (p.image.number t.size (s.pc + 5)) :=
      number?_add (show s.pc + 5 + t.size ≤ p.image.size by omega)
    rw [himm, access_some_bind, reg?_eq hdst, done_bind, write?_eq hdst]
    rfl
  | mov =>
    cases hn
    simp only [bind_assoc, pure_bind]
    rw [half?_eq (by omega), done_bind]
    apply place?_bind hs
    intro dst _ hdst
    rw [half?_eq (by omega), done_bind]
    apply place?_bind hs
    intro src _ hsrc
    rw [reg?_eq hsrc, done_bind, write?_eq hdst]
    rfl
  | add | sub | mul | div | mod =>
    cases hn
    simp only [bind_assoc]
    rw [half?_eq (by omega), done_bind]
    apply place?_bind hs
    intro dst _ hdst
    rw [half?_eq (by omega), done_bind]
    apply place?_bind hs
    intro a _ ha
    rw [half?_eq (by omega), done_bind]
    apply place?_bind hs
    intro b _ hb
    rw [reg?_eq ha, done_bind, reg?_eq hb, done_bind]
    cases Operation.compute _ t (s.reg a) (s.reg b) with
    | none => rfl
    | some v =>
      dsimp only
      rw [reg?_eq hdst, done_bind, write?_eq hdst]
      rfl
  | cmp =>
    cases hn
    simp only [bind_assoc, pure_bind]
    rw [half?_eq (by omega), done_bind]
    apply place?_bind hs
    intro a _ ha
    rw [half?_eq (by omega), done_bind]
    apply place?_bind hs
    intro b _ hb
    rw [reg?_eq ha, done_bind, reg?_eq hb, done_bind]
    rfl
  | jmp | jl | jg | je | jne | jz | jnz =>
    cases hn
    dsimp only
    rw [full?_eq (by omega), done_bind]
    exact jump?_eq p _ _ next
  | push =>
    cases hn
    simp only [bind_assoc]
    rw [half?_eq (by omega), done_bind]
    apply place?_bind hs
    intro src _ hsrc
    by_cases hroom : limits.stack < s.stack.size + t.size
    · have hroom' : limits.stack < (view s).stack.size + t.size := hroom
      rw [if_pos hroom, if_pos hroom']
      rfl
    · have hroom' : ¬ limits.stack < (view s).stack.size + t.size := hroom
      rw [if_neg hroom, if_neg hroom', reg?_eq hsrc]
      rfl
  | pop =>
    cases hn
    simp only [bind_assoc]
    rw [half?_eq (by omega), done_bind]
    apply place?_bind hs
    intro dst _ hdst
    have hstack : (view s).stack = s.stack := rfl
    rw [hstack]
    by_cases hbytes : s.stack.size < t.size
    · rw [if_pos hbytes, if_pos hbytes]
      rfl
    · have hlow : ((s.stack.size : Int) - t.size) = (s.stack.size - t.size : Nat) := by omega
      rw [if_neg hbytes, if_neg hbytes, hlow, number?_natCast (by omega), access_some_bind,
        reg?_eq hdst, done_bind]
      have hwrite := write?_eq (s := { s with stack := s.stack.shrink (s.stack.size - t.size) })
        hdst ((s.reg dst).set t (Image.number s.stack t.size (s.stack.size - t.size)).toUInt64) next
      exact congrArg (· >>= fun l => done (Sum.inl l)) hwrite
  | unknown c _ => rfl

end

end RegisterLang.Machine.Guarded
