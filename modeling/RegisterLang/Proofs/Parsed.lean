import RegisterLang.Proofs.Plain

/-!
# Trees that are parsed

What every tree of the parser has: a condition compares two operands, since the only operator with one
operand is the minus, no expression is missing where one is needed and every float is a number, a
parameter has no initial value, and a function says what it returns.
-/
namespace RegisterLang.Parser
open Number Source

/-- An operator with one operand is the minus. -/
def IsMinus : Expr → Prop
  | .op _ _ op false _ _ => op = .neg
  | _ => True

theorem isMinus_negate (pos : Pos) (x : Expr) : IsMinus (negate pos x) := by
  cases x <;> trivial

theorem readNumber_isMinus (pos : Pos) (text : Text.Bytes) : (readNumber pos text).Yields IsMinus := by
  unfold readNumber
  intro x hx
  dsimp only at hx
  repeat' split at hx
  all_goals cases hx
  all_goals trivial

theorem literal?_isMinus {pos : Pos} {t : Token} {r : Result Expr} (h : literal? pos t = some r) :
    r.Yields IsMinus := by
  unfold literal? at h
  split at h <;> cases h
  · exact readNumber_isMinus _ _
  · exact .ok trivial
  · exact .ok trivial

theorem isMinus_kept : ExprsKept (fun _ => True) IsMinus where
  literal _ := literal?_isMinus
  ident _ _ _ := trivial
  negate pos x _ := isMinus_negate pos x
  op _ _ _ _ _ _ _ _ _ := trivial
  call _ _ _ _ _ := trivial

theorem isWhole_float {pos : Pos} {t : Option Ty} {bits : UInt32} :
    (Expr.float pos t bits).isWhole = true ↔ Format.single.IsFinite bits.toNat :=
  decide_eq_true_iff.trans Format.isFinite_iff.symm

theorem isWhole_double {pos : Pos} {t : Option Ty} {bits : UInt64} :
    (Expr.double pos t bits).isWhole = true ↔ Format.double.IsFinite bits.toNat :=
  decide_eq_true_iff.trans Format.isFinite_iff.symm

theorem isWhole_negate (pos : Pos) {x : Expr} (h : x.isWhole = true) :
    (negate pos x).isWhole = true := by
  cases x with
  | missing => cases h
  | int => rfl
  | float fpos t bits =>
    rw [negate, isWhole_float, UInt32.toNat_xor]
    exact (Format.isFinite_xor Format.single bits.toNat).mpr (isWhole_float.mp h)
  | double dpos t bits =>
    rw [negate, isWhole_double, UInt64.toNat_xor]
    exact (Format.isFinite_xor Format.double bits.toNat).mpr (isWhole_double.mp h)
  | op | call => simpa [negate, Expr.isWhole, Expr.isMissing] using h
  | ident | char | string => rfl

theorem literal?_isWhole {pos : Pos} {t : Token} {r : Result Expr} (h : literal? pos t = some r) :
    r.Yields fun x => x.isWhole = true := by
  unfold literal? at h
  split at h <;> cases h
  · unfold readNumber
    intro x hx
    dsimp only at hx
    repeat' split at hx
    all_goals cases hx
    all_goals first
      | rfl
      | exact isWhole_float.mpr (Format.finite_single ‹_›)
      | exact isWhole_double.mpr (Format.finite_double ‹_›)
  · exact .ok rfl
  · exact .ok rfl

theorem isWhole_kept : ExprsKept (fun _ => True) fun x => IsMinus x ∧ x.isWhole = true where
  literal _ h x hx := ⟨literal?_isMinus h x hx, literal?_isWhole h x hx⟩
  ident _ _ _ := ⟨trivial, rfl⟩
  negate pos x hx := ⟨isMinus_negate pos x, isWhole_negate pos hx.2⟩
  op _ _ _ _ _ _ _ hx hy := ⟨trivial, by simp [Expr.isWhole, hx.2, hy.2]⟩
  call _ _ _ _ hargs := ⟨trivial, argsWhole_iff.mpr fun a ha => (hargs a ha).2⟩

theorem isPair_of_isCondition {x : Expr} (h : isCondition x = true) (hx : IsMinus x) : x.IsPair := by
  cases x with
  | op pos t op binary left right =>
    cases binary with
    | true => rfl
    | false =>
      obtain rfl : op = .neg := hx
      cases h
  | _ => cases h

theorem paired_kept : StmtsKept false (fun _ => True) (fun _ => True) IsMinus Paired where
  exprs := isMinus_kept
  typed _ _ _ _ _ _ _ := .var
  inferred _ _ _ _ _ := .var
  assign _ _ _ _ _ := .assign
  ret _ _ _ := .ret
  call _ _ _ _ _ := .expr
  cond _ _ _ _ hcondition htest hbody hmore :=
    .cond (isPair_of_isCondition hcondition htest) hbody hmore
  nil := .nil
  concat _ _ h hx := h.concat hx

theorem whole_kept :
    StmtsKept false (fun _ => True) (fun _ => True) (fun x => IsMinus x ∧ x.isWhole = true) Whole where
  exprs := isWhole_kept
  typed _ _ _ _ _ _ h := .var (h.imp_right And.right)
  inferred _ _ _ _ h := .var (.inr h.2)
  assign _ _ _ _ h := .assign h.2
  ret _ _ h := .ret (h.imp_right And.right)
  call pos name args hname h := .expr (isWhole_kept.call pos name args hname h).2
  cond _ _ _ _ hcondition htest hbody hmore :=
    .cond (isPair_of_isCondition hcondition htest.1) htest.2 hbody hmore
  nil := .nil
  concat _ _ h hx := h.concat hx

structure ParsedFunction (f : Function) : Prop where
  params : ∀ p ∈ f.params, p.init.isMissing = true
  ret : f.ret ≠ none
  paired : Paired (.all f.body)

theorem parseFunction_parsed (s : Scope) (pos : Pos) (name : String) (c : Cursor) :
    Ensures false (parseFunction s pos name c) fun r => ParsedFunction r.1 ∧ Whole (.all r.1.body) := by
  have hany : ∀ c : Cursor, c.Over fun _ => True := fun _ _ _ => trivial
  unfold parseFunction
  refine (expect_ensures (fun _ => True) _ c).bind ?_
  rintro ⟨d, hd⟩
  refine (expect_ensures (fun _ => True) _ d).bind ?_
  rintro ⟨e, he⟩
  refine (parseParams_ensures (T := fun _ => True) (K := fun _ => True)
    (V := fun p => p.init.isMissing = true) (fun _ _ _ _ => trivial) (fun _ _ _ _ _ => rfl)
    #[] d.size e he).bind ?_
  rintro ⟨params, g, hg⟩
  refine (parseRet_ensures (T := fun _ => True) (K := fun _ => True) (fun _ _ _ _ => trivial)
    c.size g _).bind ?_
  rintro ⟨ret, r, hr⟩
  refine ((stmtsLeft paired_kept (fun _ _ _ _ => trivial) r).block.and
    (stmtsLeft whole_kept (fun _ _ _ _ => trivial) r).block).bind ?_
  rintro ⟨body, b, hb⟩
  refine .ofPure fun hbody _ hparams _ _ => ?_
  have hnoInit := (hparams (by simp) (hany e)).1
  exact ⟨⟨fun p hp => hnoInit p (by simpa using hp), nofun, (hbody.1 (hany r)).1⟩,
    (hbody.2 (hany r)).1⟩

/-- What is kept by parsing a record or a function holds until the parser stops or the text ends. -/
structure KeptByItems (lines : LineTable) (P Q : Parsed → Prop) : Prop where
  done : ∀ p, P p → Q p
  stop : ∀ p ds e, P p → Q ({ p with diagnostics := ds }.stop lines e)
  define : ∀ p ds pos name fields, P p → P ({ p with diagnostics := ds }.define pos name fields)
  function : ∀ p ds f, ParsedFunction f → Whole (.all f.body) → P p →
    P { p with diagnostics := ds, file := { p.file with functions := p.file.functions ++ [f] } }

theorem KeptByItems.parseItems {lines : LineTable} {P Q : Parsed → Prop} (h : KeptByItems lines P Q)
    (p : Parsed) (c : Cursor) (hp : P p) : Q (parseItems lines p c) := by
  induction hn : c.size using Nat.strongRecOn generalizing c p with
  | ind n ih =>
    unfold Parser.parseItems
    split
    · exact h.done p hp
    next l rest hrest =>
      have hl : Cursor.size ⟨l.stop, rest⟩ < c.size := Cursor.size_tail hrest
      dsimp only
      split
      · exact h.done p hp
      · split
        next name fields d hd diagnostics _ =>
          have hsize : d.size < c.size := Nat.lt_trans hd hl
          exact ih d.size (by omega) _ d (h.define p _ _ _ _ hp) rfl
        · exact h.stop p _ _ hp
      next name _ =>
        have hf := (parseFunction_parsed ⟨lines, p.types⟩ (lines.locate l.start) name ⟨l.stop, rest⟩
          p.diagnostics).2
        split
        next f d hd diagnostics hrun =>
          have hsize : d.size < c.size := Nat.lt_trans hd hl
          obtain ⟨hparsed, hwhole⟩ := hf _ (congrArg Prod.fst hrun) (by simp)
          exact ih d.size (by omega) _ d (h.function p _ f hparsed hwhole hp) rfl
        · exact h.stop p _ _ hp
      · exact h.stop p p.diagnostics _ hp

theorem functions_kept (lines : LineTable) :
    KeptByItems lines (fun p => ∀ f ∈ p.file.functions, ParsedFunction f ∧ Whole (.all f.body))
      fun p => ∀ f ∈ p.file.functions, ParsedFunction f ∧ Whole (.all f.body) where
  done _ hp := hp
  stop _ _ _ hp := hp
  define p ds pos name fields hp := by
    unfold Parsed.define
    dsimp only
    split <;> exact hp
  function p ds f hparsed hwhole hp g hg := by
    rcases List.mem_append.mp hg with hg | hg
    · exact hp g hg
    · obtain rfl := List.mem_singleton.mp hg
      exact ⟨hparsed, hwhole⟩

/-- Every function of a parsed text is of this kind. -/
theorem parse_parsed (name : String) (text : Text.Bytes) :
    ∀ f ∈ (parse name text).file.functions, ParsedFunction f :=
  fun f hf => ((functions_kept _).parseItems _ _ (by simp) f hf).1

/-- In no function of a parsed text an expression is missing where one is needed. -/
theorem parse_whole (name : String) (text : Text.Bytes) :
    ∀ f ∈ (parse name text).file.functions, Whole (.all f.body) :=
  fun f hf => ((functions_kept _).parseItems _ _ (by simp) f hf).2

/-- The error that stops the parser is reported. -/
theorem parse_error_reported (name : String) (text : Text.Bytes) :
    (parse name text).error = none ∨ (parse name text).diagnostics ≠ #[] := by
  have hkept : KeptByItems (LineTable.ofText text) (fun p => p.error = none)
      fun p => p.error = none ∨ p.diagnostics ≠ #[] :=
    { done := fun p hp => .inl hp
      stop := fun p ds e _ => .inr (by simp [Parsed.stop])
      define := fun p ds pos name fields hp => by
        unfold Parsed.define
        dsimp only
        split <;> exact hp
      function := fun p ds f _ _ hp => hp }
  exact hkept.parseItems _ _ rfl

end RegisterLang.Parser
