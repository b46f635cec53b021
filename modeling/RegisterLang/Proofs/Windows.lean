import RegisterLang.Proofs.Planned

/-!
# The parts of a window

The window of a function has its variables first, then its temporaries, and the arguments of calls at
its end. What planning reserves is enough for each part: `Layout.Seats` says that arguments have
registers of their own while they are evaluated, and every call of a planned expression has seats. No
number of a register in a window is changed by taking it in sixteen bits.
-/
namespace RegisterLang.Lowering

theorem toNat_toUInt16 {n : Nat} (h : n ≤ maxRegs) : n.toUInt16.toNat = n := by
  unfold maxRegs at h
  rw [Nat.toUInt16, UInt16.toNat_ofNat', Nat.mod_eq_of_lt (by omega)]

theorem toNat_add_toUInt16 {r : Reg} {i : Nat} (h : r.toNat + i ≤ maxRegs) :
    (r + i.toUInt16).toNat = r.toNat + i := by
  unfold maxRegs at h
  rw [UInt16.toNat_add, Nat.toUInt16, UInt16.toNat_ofNat']
  omega

theorem toNat_add_one {r : Reg} (h : r.toNat + 1 ≤ maxRegs) : (r + 1).toNat = r.toNat + 1 :=
  toNat_add_toUInt16 (i := 1) h

/-- The sizes of the parts of a window. -/
theorem Layout.Sound.sizes {l : Layout} (h : l.Sound) :
    l.locals + l.temps + l.staging ≤ l.regs ∧ 0 < l.regs ∧ l.regs ≤ maxRegs := by
  refine ⟨Nat.le_max_right _ _, ?_, h.regs⟩
  exact Nat.lt_of_lt_of_le Nat.zero_lt_one (Nat.le_max_left _ _)

theorem Layout.Sound.toNat_free {l : Layout} (h : l.Sound) : l.free.toNat = l.locals := by
  have hsizes := h.sizes
  exact toNat_toUInt16 (by omega)

theorem Layout.Sound.toNat_base {l : Layout} (h : l.Sound) (n : Nat) :
    (l.base n).toNat = l.regs - n := by
  have hsizes := h.sizes
  exact toNat_toUInt16 (by omega)

theorem le_argTemporaries (waiting : Bool) (index most : Nat) (xs : List Expr) :
    most ≤ argTemporaries waiting index most xs := by
  induction xs generalizing index most with
  | nil => exact Nat.le_refl _
  | cons a rest ih =>
    rw [argTemporaries]
    exact Nat.le_trans (Nat.le_max_left _ _) (ih _ _)

/-- An argument takes no more temporaries than the call, counted from its own place if it waits. -/
theorem temporaries_le_argTemporaries (waiting : Bool) (index most : Nat) {xs : List Expr} {j : Nat}
    {a : Expr} (ha : xs[j]? = some a) :
    (if waiting then index + j + 1 + temporaries a else temporaries a) ≤
      argTemporaries waiting index most xs := by
  induction xs generalizing index most j with
  | nil => simp at ha
  | cons b rest ih =>
    rw [argTemporaries]
    cases j with
    | zero =>
      cases ha
      exact Nat.le_trans (Nat.le_max_right _ _) (le_argTemporaries _ _ _ _)
    | succ j =>
      have := ih (index + 1) (max most (if waiting then index + 1 + temporaries b else temporaries b))
        ha
      rwa [Nat.add_assoc index 1 j, Nat.add_comm 1 j] at this

theorem le_widestArg (most : Nat) (xs : List Expr) :
    most ≤ widestArg most xs ∧ ∀ a ∈ xs, widestCall a ≤ widestArg most xs := by
  induction xs generalizing most with
  | nil => exact ⟨Nat.le_refl _, fun a ha => nomatch ha⟩
  | cons b rest ih =>
    rw [widestArg]
    obtain ⟨hmost, hrest⟩ := ih (max most (widestCall b))
    refine ⟨Nat.le_trans (Nat.le_max_left _ _) hmost, fun a ha => ?_⟩
    rcases List.mem_cons.mp ha with rfl | ha
    · exact Nat.le_trans (Nat.le_max_right _ _) hmost
    · exact hrest a ha

def operandTemporaries (x : Expr) : Nat := if isIdent x then 0 else 1 + temporaries x

/-- Where the value of an expression may go: to a register of the window, or where a call leaves it. -/
def Layout.Target (l : Layout) (dst : Reg) : Expr → Prop
  | .call _ _ _ _ args => dst.toNat < l.regs ∨ dst = l.base args.length
  | _ => dst.toNat < l.regs

theorem Layout.target_of_lt {l : Layout} {dst : Reg} {x : Expr} (h : dst.toNat < l.regs) :
    l.Target dst x := by
  cases x with
  | call => exact .inl h
  | _ => exact h

structure Layout.Seats (l : Layout) (waiting : Bool) (dst free : Reg) (xs : List Expr) : Prop where
  staging : ∀ a ∈ xs, widestCall a ≤ l.staging
  waits : waiting = true → l.locals ≤ dst.toNat ∧ ∀ j a, xs[j]? = some a →
    dst.toNat + j + 1 + temporaries a ≤ l.locals + l.temps
  direct : waiting = false → l.locals ≤ free.toNat ∧ l.locals + l.temps ≤ dst.toNat ∧
    dst.toNat + xs.length ≤ l.regs ∧
    ∀ a ∈ xs, makesCall a = false ∧ free.toNat + temporaries a ≤ l.locals + l.temps

namespace Layout.Seats
variable {l : Layout} {waiting : Bool} {dst free : Reg} {a : Expr} {rest : List Expr}

theorem toNat_next (h : l.Seats waiting dst free (a :: rest)) (hl : l.Sound) :
    l.locals ≤ dst.toNat ∧ dst.toNat < l.regs ∧ (dst + 1).toNat = dst.toNat + 1 := by
  have hsizes := hl.sizes
  cases waiting with
  | true =>
    obtain ⟨hlocals, htemps⟩ := h.waits rfl
    have hfirst := htemps 0 a rfl
    exact ⟨hlocals, by omega, toNat_add_one (by omega)⟩
  | false =>
    obtain ⟨hlocals, htemps, hlen, -⟩ := h.direct rfl
    rw [List.length_cons] at hlen
    exact ⟨by omega, by omega, toNat_add_one (by omega)⟩

/-- The scratch registers of the first argument. -/
theorem head (h : l.Seats waiting dst free (a :: rest)) (hl : l.Sound) :
    l.locals ≤ (if waiting then dst + 1 else free).toNat ∧
    (if waiting then dst + 1 else free).toNat + temporaries a ≤ l.locals + l.temps := by
  obtain ⟨-, -, hnext⟩ := h.toNat_next hl
  cases waiting with
  | true =>
    obtain ⟨hlocals, htemps⟩ := h.waits rfl
    have hfirst := htemps 0 a rfl
    simp only [if_true, hnext]
    omega
  | false =>
    obtain ⟨hlocals, -, -, hall⟩ := h.direct rfl
    exact ⟨hlocals, (hall a List.mem_cons_self).2⟩

theorem tail (h : l.Seats waiting dst free (a :: rest)) (hl : l.Sound) :
    l.Seats waiting (dst + 1) free rest := by
  obtain ⟨-, -, hnext⟩ := h.toNat_next hl
  refine ⟨(List.forall_mem_cons.mp h.staging).2, fun hw => ?_, fun hw => ?_⟩
  · obtain ⟨hlocals, htemps⟩ := h.waits hw
    refine ⟨by omega, fun j b hb => ?_⟩
    have hroom := htemps (j + 1) b hb
    omega
  · obtain ⟨hlocals, htemps, hlen, hall⟩ := h.direct hw
    rw [List.length_cons] at hlen
    exact ⟨hlocals, by omega, by omega, (List.forall_mem_cons.mp hall).2⟩

/-- Arguments that wait take the registers from `free` on, all of them temporaries. -/
theorem length_le {xs : List Expr} (h : l.Seats true free free xs)
    (hfree : free.toNat ≤ l.locals + l.temps) : free.toNat + xs.length ≤ l.locals + l.temps := by
  cases hn : xs.length with
  | zero => exact hfree
  | succ n =>
    have hlast := (h.waits rfl).2 n _ (List.getElem?_eq_getElem (by omega : n < xs.length))
    omega

end Layout.Seats

section
variable {l : Layout} {free : Reg} {args : List Expr}

/-- Without a call among them arguments go to the end of the window. -/
theorem Layout.Sound.seats_direct (hl : l.Sound) (hcall : args.any makesCall = false)
    (hfree : l.locals ≤ free.toNat)
    (htemps : free.toNat + argTemporaries (args.any makesCall) 0 0 args ≤ l.locals + l.temps)
    (hstaging : widestArg args.length args ≤ l.staging) :
    l.Seats false (l.base args.length) free args := by
  have hsizes := hl.sizes
  have hbase := hl.toNat_base args.length
  obtain ⟨hlen, hwidest⟩ := le_widestArg args.length args
  refine ⟨fun a ha => Nat.le_trans (hwidest a ha) hstaging, nofun, fun _ =>
    ⟨hfree, by omega, by omega, fun a ha => ?_⟩⟩
  obtain ⟨j, hj⟩ := List.getElem?_of_mem ha
  have hroom := temporaries_le_argTemporaries (args.any makesCall) 0 0 hj
  rw [hcall] at hroom htemps
  simp only [Bool.false_eq_true, if_false] at hroom
  exact ⟨Bool.eq_false_iff.mpr (List.any_eq_false.mp hcall a ha), by omega⟩

/-- With a call among them arguments wait in temporaries. -/
theorem Layout.seats_waiting (hcall : args.any makesCall = true) (hfree : l.locals ≤ free.toNat)
    (htemps : free.toNat + argTemporaries (args.any makesCall) 0 0 args ≤ l.locals + l.temps)
    (hstaging : widestArg args.length args ≤ l.staging) : l.Seats true free free args := by
  refine ⟨fun a ha => Nat.le_trans ((le_widestArg args.length args).2 a ha) hstaging, fun _ =>
    ⟨hfree, fun j a ha => ?_⟩, nofun⟩
  have hroom := temporaries_le_argTemporaries (args.any makesCall) 0 0 ha
  rw [hcall] at hroom htemps
  simp only [if_true] at hroom
  omega

end

end RegisterLang.Lowering
