import RegisterLang.Proofs.Generation

/-!
# Branches that are left out

Lowering leaves out the blocks of a branch whose condition fits in no register. The labels of the
branches in them were reserved by planning, but they are never taken. So the error that generating
ends with after a report is the number of reports, unless a function has a branch in such a block: then
it is the count of the labels of the first of these functions. No label that was taken is missing.
-/
namespace RegisterLang.Lowering

/-- Whether the operands of a condition fit in no register. -/
def Scope.unfit (s : Scope) (test : Expr) : Bool := (regType? (s.typeOf none test)).isNone

mutual

def stmtTaken (s : Scope) : Stmt → Nat
  | .cond _ test body none => branchLabels + if s.unfit test then 0 else blockTaken s body
  | .cond _ test body (some more) =>
    branchLabels + if s.unfit test then 0 else blockTaken s body + blockTaken s more
  | .var .. | .assign .. | .ret .. | .expr .. | .other .. => 0
termination_by structural x => x

def blockTaken (s : Scope) : List Stmt → Nat
  | [] => 0
  | x :: rest => stmtTaken s x + blockTaken s rest
termination_by structural x => x

end

def isBranch : Stmt → Bool
  | .cond .. => true
  | _ => false

mutual

/-- Whether some branch stands in a block of one whose condition fits in no register. -/
def stmtBuries (s : Scope) : Stmt → Bool
  | .cond _ test body none => s.unfit test && body.any isBranch || blockBuries s body
  | .cond _ test body (some more) =>
    s.unfit test && (body.any isBranch || more.any isBranch) || (blockBuries s body || blockBuries s more)
  | .var .. | .assign .. | .ret .. | .expr .. | .other .. => false
termination_by structural x => x

def blockBuries (s : Scope) : List Stmt → Bool
  | [] => false
  | x :: rest => stmtBuries s x || blockBuries s rest
termination_by structural x => x

end

section
variable (s : Scope)

theorem stmtTaken_cond (pos : Pos) (test : Expr) (body : Block) (more : Option Block) :
    stmtTaken s (.cond pos test body more) =
      branchLabels + if s.unfit test then 0 else blockTaken s body + blockTaken s (elseStmts more) := by
  cases more <;> rfl

theorem stmtBuries_cond (pos : Pos) (test : Expr) (body : Block) (more : Option Block) :
    stmtBuries s (.cond pos test body more) =
      (s.unfit test && (body.any isBranch || (elseStmts more).any isBranch) ||
        (blockBuries s body || blockBuries s (elseStmts more))) := by
  cases more with
  | none => simp [stmtBuries, elseStmts, blockBuries]
  | some more => rfl

theorem blockLabels_eq_zero (xs : List Stmt) : blockLabels xs = 0 ↔ xs.any isBranch = false := by
  induction xs with
  | nil => simp [blockLabels]
  | cons x rest ih =>
    have hx : stmtLabels x = 0 ↔ isBranch x = false := by
      cases x with
      | cond pos test body more =>
        rw [stmtLabels_cond]
        simp [branchLabels, isBranch]
      | _ => exact ⟨fun _ => rfl, fun _ => rfl⟩
    rw [blockLabels, Nat.add_eq_zero_iff, hx, ih, List.any_cons, Bool.or_eq_false_iff]

/-- All labels are taken unless a branch is left out. -/
theorem taken_all :
    (∀ x, stmtTaken s x ≤ stmtLabels x ∧ (stmtTaken s x = stmtLabels x ↔ stmtBuries s x = false)) ∧
    ∀ xs, blockTaken s xs ≤ blockLabels xs ∧
      (blockTaken s xs = blockLabels xs ↔ blockBuries s xs = false) := by
  have hnone : ∀ {n : Nat}, n ≤ n ∧ (n = n ↔ false = false) := ⟨Nat.le_refl _, by simp⟩
  apply Stmt.forall_of
  case var => exact fun v => hnone
  case assign => exact fun pos name nt x => hnone
  case ret => exact fun pos x => hnone
  case expr => exact fun pos x => hnone
  case cond =>
    rintro pos test body more ⟨hbody, hbody'⟩ ⟨hmore, hmore'⟩
    have hbranch := blockLabels_eq_zero body
    have hbranch' := blockLabels_eq_zero (elseStmts more)
    rw [stmtTaken_cond, stmtLabels_cond, stmtBuries_cond]
    cases s.unfit test with
    | true =>
      -- a block without labels has no branch, and then there is none to be left out in it either
      rw [if_pos rfl, Bool.true_and]
      simp only [Bool.or_eq_false_iff, ← hbranch, ← hbranch', ← hbody', ← hmore']
      omega
    | false =>
      rw [if_neg Bool.false_ne_true, Bool.false_and, Bool.false_or]
      simp only [Bool.or_eq_false_iff, ← hbody', ← hmore']
      omega
  case other => exact fun kind pos => hnone
  case nil => exact hnone
  case cons =>
    rintro x rest ⟨hx, hx'⟩ ⟨hrest, hrest'⟩
    rw [blockTaken, blockLabels, blockBuries]
    simp only [Bool.or_eq_false_iff, ← hx', ← hrest']
    omega

end

/-! ### Emissions by the labels that they take -/

def TakesLabels {α : Type} (m : Emit α) (k : Nat) : Prop := ∀ o, (m.run o).2.label = o.label + k

def Yields {α : Type} (m : Emit α) (a : α) : Prop := ∀ o, (m.run o).1 = a

section
variable {α β : Type} {m : Emit α} {k k' : Nat}

theorem TakesLabels.bind {f : α → Emit β} (h : TakesLabels m k) (hf : ∀ a, TakesLabels (f a) k') :
    TakesLabels (m >>= f) (k + k') := by
  intro o
  have h₁ := h o
  have h₂ := hf (m.run o).1 (m.run o).2
  rw [h₁, Nat.add_assoc] at h₂
  exact h₂

theorem TakesLabels.bind_yields {f : α → Emit β} {a : α} (h : TakesLabels m 0) (ha : Yields m a)
    (hf : TakesLabels (f a) k) : TakesLabels (m >>= f) k := by
  intro o
  have h₁ := h o
  have h₂ := hf (m.run o).2
  rw [h₁, Nat.add_zero, ← ha o] at h₂
  exact h₂

theorem TakesLabels.place (l : Nat) : TakesLabels (Emit.place l) 0 := fun _ => rfl

theorem AddsLabels.takesLabels (h : AddsLabels m 0) : TakesLabels m 0 := by
  intro o
  obtain ⟨items, -, hplaces, hle⟩ := h o
  have := hplaces.le
  omega

theorem Yields.bind {f : α → Emit β} {b : β} (hf : ∀ a, Yields (f a) b) : Yields (m >>= f) b :=
  fun o => hf (m.run o).1 (m.run o).2

end

/-- A condition is lowered unless it fits in no register. -/
theorem lowerTest_yields (s : Scope) (first : Nat) (test : Expr) :
    Yields (lowerTest s first test) (!s.unfit test) := by
  unfold lowerTest Scope.unfit
  rcases comparison test with ⟨op, left, right⟩
  cases ht : regType? (s.typeOf none test) with
  | none =>
    simp only [ht]
    exact .bind fun _ _ => rfl
  | some t =>
    simp only [ht]
    refine .bind fun a => .bind fun b => .bind fun _ => ?_
    cases jumps? op with
    | none => exact .bind fun _ => .bind fun _ _ => rfl
    | some js => exact .bind fun _ => .bind fun _ _ => rfl

section
variable {s : Scope}

theorem lowerStmt_cond_takesLabels {body : Block} {more : Option Block}
    (hbody : TakesLabels (lowerBlock s body) (blockTaken s body))
    (hmore : TakesLabels (lowerBlock s (elseStmts more)) (blockTaken s (elseStmts more))) (pos : Pos)
    (test : Expr) :
    TakesLabels (lowerStmt s (.cond pos test body more)) (stmtTaken s (.cond pos test body more)) := by
  rw [lowerStmt_cond, stmtTaken_cond]
  have hlabels : TakesLabels (Emit.labels branchLabels) branchLabels := fun _ => rfl
  refine hlabels.bind fun first => ?_
  have htest := (lowerTest_adds s first test).labels.takesLabels
  refine htest.bind_yields (lowerTest_yields s first test) ?_
  cases s.unfit test with
  | true => exact fun _ => rfl
  | false =>
    have hinstr : TakesLabels (Emit.instr (.jump .jmp (first + 2).toUInt32)) 0 := fun _ => rfl
    have h := (TakesLabels.place first).bind fun _ => hbody.bind fun _ => hinstr.bind fun _ =>
      (TakesLabels.place (first + 1)).bind fun _ => hmore.bind fun _ => TakesLabels.place (first + 2)
    simp only [Nat.zero_add, Nat.add_zero] at h
    exact h

/-- What is reported changes nothing about the labels that are taken. -/
theorem lowerStmt_takesLabels (hs : s.current.Sound) :
    (∀ x, TakesLabels (lowerStmt s x) (stmtTaken s x)) ∧ ∀ xs, TakesLabels (lowerBlock s xs) (blockTaken s xs) := by
  have hadds := (lowerStmt_adds hs).1
  apply Stmt.forall_of
  case var => exact fun v => (hadds (.var v)).takesLabels
  case assign => exact fun pos name nt x => (hadds (.assign pos name nt x)).takesLabels
  case ret => exact fun pos x => (hadds (.ret pos x)).takesLabels
  case expr => exact fun pos x => (hadds (.expr pos x)).takesLabels
  case cond => exact fun pos test body more hbody hmore => lowerStmt_cond_takesLabels hbody hmore pos test
  case other => exact fun kind pos => (hadds (.other kind pos)).takesLabels
  case nil => exact fun _ => rfl
  case cons => exact fun x rest hx hrest => hx.bind fun _ => hrest

theorem lowerFunction_takesLabels (hs : s.current.Sound) :
    TakesLabels (lowerFunction s) (blockTaken s s.current.function.body) := by
  unfold lowerFunction
  have hfunc : TakesLabels (Emit.instr (.func s.current.regs.toUInt16 s.current.args.toUInt16)) 0 :=
    fun _ => rfl
  have hend : TakesLabels (if (!(s.current.function.body.getLast?.any isReturn)) = true
      then Emit.instr (.ret 0) else pure ()) 0 := by
    by_cases h : (!(s.current.function.body.getLast?.any isReturn)) = true
    · rw [if_pos h]
      exact fun _ => rfl
    · rw [if_neg h]
      exact fun _ => rfl
  have h := hfunc.bind fun _ => ((lowerStmt_takesLabels hs).2 s.current.function.body).bind fun _ => hend
  rw [Nat.add_zero, Nat.zero_add] at h
  exact h

end

end RegisterLang.Lowering

namespace RegisterLang
open Lowering Generated Strict

def Lowering.Layout.buries (layouts : List Layout) (l : Layout) : Bool :=
  blockBuries ⟨layouts, l⟩ l.function.body

def Lowering.Layout.labelError (layouts : List Layout) (l : Layout) : GenerateError :=
  .labelCount l.function.name (blockTaken ⟨layouts, l⟩ l.function.body) (blockLabels l.function.body)

section
variable (layouts : List Layout) {l : Layout} {b : Builder}

/-- A function is written if it takes all its labels, and only then. -/
theorem writeFunction_eq_error_iff (hl : Accommodates b l) (ds : Array Diagnostic) (e : GenerateError) :
    (writeFunction layouts l b ds).2 = .error e ↔
      l.buries layouts = true ∧ l.labelError layouts = e := by
  have htaken := lowerFunction_takesLabels (s := ⟨layouts, l⟩) hl.sound
    { label := l.labelBase, diagnostics := ds }
  obtain ⟨hle, hiff⟩ := (taken_all ⟨layouts, l⟩).2 l.function.body
  obtain ⟨items, hitems, hplaces, -⟩ := lowerFunction_adds (s := ⟨layouts, l⟩) hl.sound
    { label := l.labelBase, diagnostics := ds }
  unfold writeFunction
  generalize (lowerFunction ⟨layouts, l⟩).run { label := l.labelBase, diagnostics := ds } = r
    at htaken hitems hplaces
  obtain ⟨_, out⟩ := r
  dsimp only at htaken hitems hplaces ⊢
  rw [List.nil_append] at hitems
  rw [← hitems] at hplaces
  by_cases hburies : l.buries layouts = true
  · have hne : blockTaken ⟨layouts, l⟩ l.function.body ≠ blockLabels l.function.body := by
      rw [Ne, hiff]
      exact ne_false_of_eq_true hburies
    have hcount : out.label ≠ l.labelBase + l.labels := by
      rw [htaken, hl.labels_eq]
      omega
    rw [if_pos hcount, htaken, Nat.add_sub_cancel_left, hl.labels_eq]
    simp [hburies, Layout.labelError]
  · have hcount : out.label = l.labelBase + l.labels := by
      rw [htaken, hl.labels_eq, hiff.mpr (Bool.eq_false_iff.mpr hburies)]
    rw [hcount] at hplaces
    rw [if_neg (not_ne_iff.mpr hcount), firstUnset_placed hplaces]
    simp [hburies]

/-- Writing stops at the first function that does not take all its labels. -/
theorem writeAll_eq_error_iff {rest : List Layout} (hrest : ∀ l ∈ rest, Accommodates b l) (g : Generated)
    (e : GenerateError) :
    (writeAll layouts b g rest).result = .error e ↔
      (rest.find? (·.buries layouts)).map (·.labelError layouts) = some e := by
  induction rest generalizing b g with
  | nil => simp [writeAll]
  | cons l rest ih =>
    rw [List.forall_mem_cons] at hrest
    have hwrite := writeFunction_eq_error_iff layouts hrest.1 g.diagnostics
    have htables := @writeFunction_tables layouts l b
    rw [writeAll]
    generalize hr : writeFunction layouts l b g.diagnostics = r at hwrite ⊢
    obtain ⟨ds, e₁ | ⟨b₁, e₁⟩⟩ := r
    · obtain ⟨hburies, rfl⟩ := (hwrite e₁).mp rfl
      rw [List.find?_cons_of_pos hburies]
      simp
    · have hburies : ¬ l.buries layouts = true := by
        intro h
        cases (hwrite _).mpr ⟨h, rfl⟩
      rw [List.find?_cons_of_neg hburies]
      obtain ⟨hf, hl⟩ := htables (congrArg Prod.snd hr)
      exact ih (fun m hm => (hrest.2 m hm).of_tables hf hl) _

end

theorem settle_error {g : Generated} {e : GenerateError} (before : Nat) (h : g.result = .error e) :
    g.settle before = g := by
  unfold settle
  rw [h]

theorem settle_ok_reported {g : Generated} {b : Builder} {before : Nat} (h : g.result = .ok b)
    (hreported : before < (g.settle before).diagnostics.size) :
    (g.settle before).result =
      .error (.reported ((g.settle before).diagnostics.size - before)) := by
  unfold settle at hreported ⊢
  rw [h] at hreported ⊢
  dsimp only at hreported ⊢
  by_cases hsize : g.diagnostics.size = before
  · rw [if_neg (not_ne_iff.mpr hsize)] at hreported
    omega
  · rw [if_pos hsize]

/-- What is said of the labels of a file after `ds`: something of the first function with a branch that
is left out, if planning reports nothing. -/
def labelError? (file : File) (ds : Array Diagnostic) : Option GenerateError :=
  let (layouts, planned) := plan file ds
  if planned.size ≠ ds.size then none
  else (layouts.find? (·.buries layouts)).map (·.labelError layouts)

/-- A file of which something is reported has no image. The error is the number of what was reported,
except where planning reports nothing and a function has a branch in a block of one whose condition
fits in no register. There it is the number of labels that the first such function takes, beside the
number that was reserved. -/
theorem generate_error_of_reported (file : File) (ds : Array Diagnostic) (buffer : Int)
    (hreported : ds.size < (generate file ds buffer).diagnostics.size) :
    (generate file ds buffer).result = .error ((labelError? file ds).getD
      (.reported ((generate file ds buffer).diagnostics.size - ds.size))) := by
  have hspace := fun h : (plan file ds).2.size = ds.size => accommodates_of_plan h buffer
  unfold generate at hreported ⊢
  unfold labelError?
  generalize plan file ds = r at hspace hreported ⊢
  obtain ⟨layouts, planned⟩ := r
  dsimp only at hspace hreported ⊢
  by_cases hquiet : planned.size = ds.size
  · rw [if_neg (not_ne_iff.mpr hquiet)] at hreported ⊢
    rw [if_neg (not_ne_iff.mpr hquiet)]
    have hwrite := writeAll_eq_error_iff layouts (hspace hquiet)
      { layouts, diagnostics := planned,
        result := .ok (Builder.make buffer layouts.length (Layout.labelCount layouts)) }
    generalize writeAll layouts _ _ layouts = g at hreported hwrite ⊢
    cases hresult : g.result with
    | error e =>
      rw [(hwrite e).mp hresult, settle_error ds.size hresult]
      exact hresult
    | ok b =>
      have hnone : (layouts.find? (·.buries layouts)).map (·.labelError layouts) = none := by
        rw [Option.eq_none_iff_forall_ne_some]
        intro e he
        rw [(hwrite e).mpr he] at hresult
        cases hresult
      rw [hnone]
      exact settle_ok_reported hresult hreported
  · rw [if_pos hquiet, if_pos hquiet]
    rfl

/-- Two calls without a value are compared. -/
def shallow : Text.Bytes := "f::(){}main::(){if f()<f(){}}".toList.map fun c => c.toNat.toUInt8

theorem generate_error_of_reported_shallow :
    (generate (Parser.parse "p" shallow).file #[] 64).diagnostics.size = 1 ∧
      (generate (Parser.parse "p" shallow).file #[] 64).result = .error (.reported 1) := by
  obtain ⟨hsize, hlabels⟩ : (generate (Parser.parse "p" shallow).file #[] 64).diagnostics.size = 1 ∧
      (labelError? (Parser.parse "p" shallow).file #[]).isNone = true := by    decide +kernel
  have h := generate_error_of_reported (Parser.parse "p" shallow).file #[] 64 (by rw [hsize]; decide)
  rw [hsize, Option.isNone_iff_eq_none.mp hlabels] at h
  exact ⟨hsize, h⟩

def Generated.ending (g : Generated) : Nat × Option GenerateError :=
  (g.diagnostics.size, match g.result with
    | .ok _ => none
    | .error e => some e)

theorem Generated.of_ending {g : Generated} {n : Nat} {e : GenerateError}
    (h : g.ending = (n, some e)) : g.diagnostics.size = n ∧ g.result = .error e := by
  obtain ⟨hn, he⟩ := Prod.mk.inj h
  refine ⟨hn, ?_⟩
  split at he
  · cases he
  next hresult =>
    obtain rfl := Option.some.inj he
    exact hresult

def endings? (text : Text.Bytes) : Option ((Nat × Option GenerateError) × Nat × Option GenerateError) := do
  let file ← (parseChecked "p" text).toOption
  return ((generate (Parser.parse "p" text).file #[] 64).ending, (generate file #[] 64).ending)

def buried : Text.Bytes :=
  "f::(){}main::(){if f()<f(){if 1<2{}}}".toList.map fun c => c.toNat.toUInt8

/-- What is reported of an accepted text is not the error that generating ends with. -/
theorem generate_error_not_reported : ∃ file, parseChecked "p" buried = .ok file ∧
    (generate (Parser.parse "p" buried).file #[] 64).diagnostics.size = 1 ∧
    (generate (Parser.parse "p" buried).file #[] 64).result = .error (.labelCount "main" 3 6) ∧
    (generate file #[] 64).diagnostics.size = 1 ∧
    (generate file #[] 64).result = .error (.labelCount "main" 3 6) := by
  have h : endings? buried =
      some ((1, some (.labelCount "main" 3 6)), 1, some (.labelCount "main" 3 6)) := by
    decide +kernel
  unfold endings? at h
  cases hfile : parseChecked "p" buried with
  | error e =>
    rw [hfile] at h
    cases h
  | ok file =>
    rw [hfile] at h
    obtain ⟨hplain, hchecked⟩ := Prod.mk.inj (Option.some.inj h)
    obtain ⟨hsize, hresult⟩ := Generated.of_ending hplain
    obtain ⟨hsize', hresult'⟩ := Generated.of_ending hchecked
    exact ⟨file, rfl, hsize, hresult, hsize', hresult'⟩

end RegisterLang
