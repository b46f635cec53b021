import RegisterLang.Proofs.Linked

/-!
# Emission with reports

What an emission adds, whether it reports something or not: instructions that can be written, and
labels, each of which it takes before it places it and places once. An emission that reports nothing
takes as many labels as were planned, and no emission takes more.
-/
namespace RegisterLang.Lowering

mutual

def stmtLabels : Stmt → Nat
  | .cond _ _ body none => branchLabels + blockLabels body
  | .cond _ _ body (some more) => branchLabels + blockLabels body + blockLabels more
  | .var .. | .assign .. | .ret .. | .expr .. | .other .. => 0
termination_by structural x => x

def blockLabels : List Stmt → Nat
  | [] => 0
  | x :: rest => stmtLabels x + blockLabels rest
termination_by structural x => x

end

theorem stmtLabels_cond (pos : Pos) (test : Expr) (body : Block) (more : Option Block) :
    stmtLabels (.cond pos test body more) =
      branchLabels + blockLabels body + blockLabels (elseStmts more) := by
  cases more <;> rfl

def pieceLabels : Piece → Nat
  | .one x => stmtLabels x
  | .all xs => blockLabels xs

/-- Where nothing is reported all labels are taken. -/
theorem LowersStmt.label_eq {s : Scope} {p : Piece} {n n' : Nat} {items : List Item}
    (h : LowersStmt s p n items n') : n' = n + pieceLabels p := by
  induction h with
  | declare | init | assign | retNothing | ret | call | nil => rfl
  | cond _ _ _ ihbody ihmore =>
    rw [ihmore, ihbody, pieceLabels, pieceLabels, pieceLabels, stmtLabels_cond]
    omega
  | cons _ _ ih ih' =>
    rw [ih', ih, pieceLabels, pieceLabels, pieceLabels, blockLabels]
    omega

def Reserves {α : Type} (m : Planning α) (k : Nat) : Prop :=
  ∀ s, (m.run s).2.1.labels = s.1.labels + k

theorem Reserves.bind {α β : Type} {m : Planning α} {f : α → Planning β} {k k' : Nat}
    (h : Reserves m k) (hf : ∀ a, Reserves (f a) k') : Reserves (m >>= f) (k + k') := by
  intro s
  have h₁ := h s
  have h₂ := hf (m.run s).1 (m.run s).2
  rw [h₁] at h₂
  exact h₂.trans (Nat.add_assoc _ _ _)

theorem Reserves.update {f : Layout → Layout} {k : Nat} (hf : ∀ l, (f l).labels = l.labels + k) :
    Reserves (Planning.update f) k := fun s => hf s.1

section
variable (functions : List Function)

theorem declare_reserves (v : Var) : Reserves (declare functions v) 0 := by
  have hreport : ∀ d, Reserves (Planning.report d) 0 := fun d s => rfl
  have hget : Reserves (get : Planning _) 0 := fun s => rfl
  have hupdate := fun var : Variable => Reserves.update (f := fun l =>
    { l with vars := l.vars ++ [(v.name, var)], locals := l.locals + 1 }) (k := 0) fun _ => rfl
  unfold declare
  refine hget.bind (?_ : ∀ s, Reserves _ 0)
  intro s
  dsimp only
  by_cases hvar : (s.1.var? v.name).isSome = true
  · rw [if_pos hvar]
    exact hreport _
  · rw [if_neg hvar]
    generalize (if (v.type.isNone && !v.init.isMissing) = true
      then typeOf functions s.1.vars none v.init else v.type) = ty
    by_cases hty : (regType? ty).isNone = true
    · rw [if_pos hty]
      exact (hreport _).bind fun _ => hupdate _
    · rw [if_neg hty]
      exact hupdate _

/-- Planning reserves the labels that are taken. -/
theorem plan_reserves : (∀ x, Reserves (planStmt functions x) (stmtLabels x)) ∧
    ∀ xs, Reserves (planBlock functions xs) (blockLabels xs) := by
  have hreserve : ∀ x : Expr, Reserves (Planning.update (·.reserve x)) 0 :=
    fun x => .update fun _ => rfl
  apply Stmt.forall_of
  case var => exact fun v => (declare_reserves functions v).bind fun _ => hreserve v.init
  case assign => exact fun pos name nt x => hreserve x
  case ret => exact fun pos x => hreserve x
  case expr => exact fun pos x => hreserve x
  case cond =>
    intro pos test body more hbody hmore
    have htest : Reserves (Planning.update fun l =>
        { l.reserve test with labels := l.labels + branchLabels }) branchLabels := .update fun _ => rfl
    cases more with
    | none => exact htest.bind fun _ => hbody
    | some more =>
      have h := htest.bind fun _ => hbody.bind fun _ => hmore
      rw [← Nat.add_assoc] at h
      exact h
  case other => exact fun kind pos s => rfl
  case nil => exact fun s => rfl
  case cons => exact fun x rest hx hrest => hx.bind fun _ => hrest

theorem planFunction_reserves {f : Function} {s : Layout × Array Diagnostic}
    (hs : s.1.function = f) :
    ((planFunction functions).run s).2.1.labels = s.1.labels + blockLabels f.body := by
  have hparams : Reserves (f.params.forM (declare functions)) 0 := by
    induction f.params with
    | nil => exact fun s => rfl
    | cons v params ih => exact (declare_reserves functions v).bind fun _ => ih
  have hend : ∀ f : Function, Reserves (do
      let s ← get
      if maxRegs < s.1.regs then
        Planning.report
          { message := "function " ++ Text.quote f.name ++ " needs " ++ toString s.1.regs ++
              " registers, max " ++ toString maxRegs
            pos := f.pos }) 0 := by
    intro f
    have hget : Reserves (get : Planning _) 0 := fun s => rfl
    refine hget.bind (?_ : ∀ s, Reserves _ 0)
    intro s
    by_cases hregs : maxRegs < s.1.regs
    · rw [if_pos hregs]
      exact fun s => rfl
    · rw [if_neg hregs]
      exact fun s => rfl
  have h := (hparams.bind fun _ => ((plan_reserves functions).2 f.body).bind fun _ => hend f) s
  subst hs
  rw [Nat.zero_add, Nat.add_zero] at h
  exact h

end

/-- The layouts that are planned have the labels of their functions. -/
theorem planAll_labels (functions fs : List Function) (index label : Nat) (done : Array Layout)
    (ds : Array Diagnostic)
    (hquiet : (planAll functions index label done ds fs).2.size = ds.size)
    (hdone : ∀ l ∈ done, l.labels = blockLabels l.function.body) :
    ∀ l ∈ (planAll functions index label done ds fs).1,
      l.labels = blockLabels l.function.body := by
  induction fs generalizing index label done ds with
  | nil => exact fun l hl => hdone l (Array.mem_toList_iff.mp hl)
  | cons f fs ih =>
    have hlabels := planFunction_reserves functions
      (s := ({ function := f, index, labelBase := label }, ds)) rfl
    have hplan := planFunction_plans functions ({ function := f, index, labelBase := label }, ds)
    rw [planAll] at hquiet ⊢
    generalize (planFunction functions).run
      ({ function := f, index, labelBase := label }, ds) = r at hlabels hplan hquiet ⊢
    obtain ⟨_, l, ds₁⟩ := r
    dsimp only at hlabels hplan hquiet ⊢
    have hle := hplan.1
    have hle' := (planAll_sound functions fs (index + 1) (label + l.labels) (done.push l) ds₁).1
    obtain ⟨-, he⟩ := hplan.2 (by omega) rfl rfl
    refine ih (index + 1) (label + l.labels) (done.push l) ds₁ (by omega) fun m hm => ?_
    rcases Array.mem_push.mp hm with hm | rfl
    · exact hdone m hm
    · rw [he.function, hlabels, Nat.zero_add]

theorem plan_labels {file : File} {ds : Array Diagnostic}
    (h : (plan file ds).2.size = ds.size) :
    ∀ l ∈ (plan file ds).1, l.labels = blockLabels l.function.body := by
  have hle := (order_quiet file ds).1
  have hle' := (planAll_sound (order file ds).1 (order file ds).1 0 0 #[] (order file ds).2).1
  change (planAll (order file ds).1 0 0 #[] (order file ds).2 (order file ds).1).2.size = _ at h
  exact planAll_labels (order file ds).1 (order file ds).1 0 0 #[] (order file ds).2 (by omega)
    (by simp)

/-- What an emission adds, whatever it reports: the label before it, its result, the items, and the
label after it. -/
def Adds {α : Type} (m : Emit α) (P : Nat → α → List Item → Nat → Prop) : Prop :=
  ∀ o, ∃ items, (m.run o).2.items.toList = o.items.toList ++ items ∧
    P o.label (m.run o).1 items (m.run o).2.label

namespace Adds
variable {α β : Type} {m : Emit α} {P P' : Nat → α → List Item → Nat → Prop}

theorem mono (h : Adds m P) (hP : ∀ n a items n', P n a items n' → P' n a items n') : Adds m P' := by
  intro o
  obtain ⟨items, hitems, hp⟩ := h o
  exact ⟨items, hitems, hP _ _ _ _ hp⟩

theorem bind {f : α → Emit β} {Q : α → Nat → β → List Item → Nat → Prop} (h : Adds m P)
    (hf : ∀ a, Adds (f a) (Q a)) :
    Adds (m >>= f) fun n b items n' => ∃ a n₁ items₁ items₂, items = items₁ ++ items₂ ∧
      P n a items₁ n₁ ∧ Q a n₁ b items₂ n' := by
  intro o
  obtain ⟨items₁, h₁, hp⟩ := h o
  obtain ⟨items₂, h₂, hq⟩ := hf (m.run o).1 (m.run o).2
  refine ⟨items₁ ++ items₂, ?_, _, _, items₁, items₂, rfl, hp, hq⟩
  rw [← List.append_assoc, ← h₁]
  exact h₂

theorem place (l : Nat) : Adds (Emit.place l) fun n _ items n' => items = [.label l] ∧ n' = n :=
  fun _ => ⟨[.label l], Array.toList_push, rfl, rfl⟩

theorem labels (k : Nat) :
    Adds (Emit.labels k) fun n a items n' => a = n ∧ items = [] ∧ n' = n + k :=
  fun _ => ⟨[], (List.append_nil _).symm, rfl, rfl, rfl⟩

end Adds

def AddsCode {α : Type} (m : Emit α) : Prop :=
  Adds m fun n _ items n' => n' = n ∧
    ∃ code : List Instr, items = code.map .instr ∧ ∀ x ∈ code, x.WellFormed

namespace AddsCode
variable {α β : Type} {m : Emit α}

theorem bind {f : α → Emit β} (h : AddsCode m) (hf : ∀ a, AddsCode (f a)) : AddsCode (m >>= f) := by
  refine (Adds.bind h hf).mono ?_
  rintro n b _ n' ⟨a, n₁, _, _, rfl, ⟨rfl, code₁, rfl, h₁⟩, rfl, code₂, rfl, h₂⟩
  exact ⟨rfl, code₁ ++ code₂, by simp, List.forall_mem_append.mpr ⟨h₁, h₂⟩⟩

theorem ofPure (a : α) : AddsCode (pure a) :=
  fun _ => ⟨[], (List.append_nil _).symm, rfl, [], rfl, List.forall_mem_nil _⟩

theorem report (d : Diagnostic) : AddsCode (Emit.report d) :=
  fun _ => ⟨[], (List.append_nil _).symm, rfl, [], rfl, List.forall_mem_nil _⟩

theorem instr {x : Instr} (h : x.WellFormed) : AddsCode (Emit.instr x) :=
  fun _ => ⟨[.instr x], Array.toList_push, rfl, [x], rfl, by simpa using h⟩

theorem moveAll (target source : Reg) (n : Nat) : AddsCode (moveAll target source n) := by
  intro o
  obtain ⟨items, hitems, -, code, rfl, rfl⟩ := (Codes.moveAll target source n o).2 rfl
  refine ⟨_, hitems, rfl, _, rfl, ?_⟩
  intro x hx
  obtain ⟨i, -, rfl⟩ := List.mem_map.mp hx
  trivial

theorem lookup (s : Scope) (pos : Pos) (name : String) : AddsCode (s.lookup pos name) := by
  unfold Scope.lookup
  cases s.current.var? name with
  | some v => exact ofPure _
  | none => exact (report _).bind fun _ => ofPure _

theorem resolve (s : Scope) (pos : Pos) (name : String) (n : Nat) :
    AddsCode (resolve s pos name n) := by
  unfold Lowering.resolve
  cases s.callee? name with
  | none => exact (report _).bind fun _ => ofPure _
  | some callee =>
    dsimp only
    by_cases hn : n ≠ callee.args
    · rw [if_pos hn]
      exact (report _).bind fun _ => ofPure _
    · rw [if_neg hn]
      exact ofPure _

theorem literal (s : Scope) (want : Option Ty) (dst : Reg) (x : Expr) :
    AddsCode (lowerLiteral s want dst x) := by
  unfold lowerLiteral
  cases ht : regType? (s.typeOf want x) with
  | none =>
    simp only [ht]
    exact report _
  | some t =>
    simp only [ht]
    cases literalBits? t x with
    | none => exact report _
    | some bits => exact instr (isKnown_of_regType? ht)

theorem operand {s : Scope} {x : Expr} (h : ∀ want dst free, AddsCode (lower s want dst free x))
    (want : Option Ty) (free : Reg) : AddsCode (operand s want free x) := by
  unfold Lowering.operand
  cases ident? x with
  | some p => exact (lookup s p.1 p.2).bind fun _ => ofPure _
  | none => exact (h want free (free + 1)).bind fun _ => ofPure _

theorem move (dst src : Reg) :
    AddsCode (if src ≠ dst then Emit.instr (.mov dst src) else pure ()) := by
  by_cases h : src ≠ dst
  · rw [if_pos h]
    exact instr trivial
  · rw [if_neg h]
    exact ofPure _

end AddsCode

theorem lower_adds_op {s : Scope} {left right : Expr}
    (hl : ∀ want dst free, AddsCode (lower s want dst free left))
    (hr : ∀ want dst free, AddsCode (lower s want dst free right)) (pos : Pos) (ty : Option Ty)
    (op : Op) (binary : Bool) (want : Option Ty) (dst free : Reg) :
    AddsCode (lower s want dst free (.op pos ty op binary left right)) := by
  rw [lower_op]
  dsimp only
  cases ht : regType? (s.typeOf want (.op pos ty op binary left right)) with
  | none => exact .report _
  | some t =>
    have hknown := isKnown_of_regType? ht
    cases binary with
    | true =>
      dsimp only
      rw [if_pos rfl]
      cases hm : mathOp? op with
      | none => exact .report _
      | some m =>
        exact (AddsCode.operand hl _ free).bind fun a => (AddsCode.operand hr _ (free + 1)).bind
          fun b => .instr ⟨isMath_of_mathOp? hm, hknown⟩
    | false =>
      dsimp only
      rw [if_neg Bool.false_ne_true]
      exact (AddsCode.instr (x := .set t free 0) hknown).bind fun _ =>
        (AddsCode.operand hr _ (free + 1)).bind fun r => .instr ⟨rfl, hknown⟩

theorem lower_adds_call {s : Scope} {args : List Expr}
    (hargs : ∀ waiting dst free types, AddsCode (lowerArgs s waiting dst free types args)) (pos : Pos)
    (ty : Option Ty) (name : String) (nt want : Option Ty) (dst free : Reg) :
    AddsCode (lower s want dst free (.call pos ty name nt args)) := by
  rw [lower]
  refine (AddsCode.resolve s pos name args.length).bind fun callee => ?_
  cases callee with
  | none => exact .ofPure _
  | some callee =>
    have hcall : AddsCode (do
        Emit.instr (.call callee.index.toUInt32)
        if s.current.base args.length ≠ dst then
          Emit.instr (.mov dst (s.current.base args.length))) :=
      (AddsCode.instr (x := .call _) trivial).bind fun _ => AddsCode.move _ _
    dsimp only
    by_cases hany : args.any makesCall = true
    · rw [if_pos hany]
      exact (hargs _ _ _ _).bind fun _ => (AddsCode.moveAll _ _ _).bind fun _ => hcall
    · rw [if_neg hany]
      exact (hargs _ _ _ _).bind fun _ => hcall

/-- Expressions are lowered to instructions that can be written. -/
theorem lower_adds (s : Scope) : (∀ x want dst free, AddsCode (lower s want dst free x)) ∧
    ∀ xs waiting dst free types, AddsCode (lowerArgs s waiting dst free types xs) := by
  apply Expr.forall_of
  case missing => exact fun want dst free => .report _
  case ident =>
    intro pos ty name want dst free
    rw [lower]
    refine (AddsCode.lookup s pos name).bind fun v => ?_
    cases v with
    | none => exact .ofPure _
    | some v => exact AddsCode.move dst v.reg
  case int => exact fun pos ty value negative want dst free => .literal s want dst _
  case float => exact fun pos ty bits want dst free => .literal s want dst _
  case double => exact fun pos ty bits want dst free => .literal s want dst _
  case char => exact fun pos ty value want dst free => .literal s want dst _
  case string => exact fun pos ty value want dst free => .literal s want dst _
  case op => exact fun pos ty op binary left right hl hr want dst free =>
    lower_adds_op hl hr pos ty op binary want dst free
  case call => exact fun pos ty name nt args hargs want dst free =>
    lower_adds_call hargs pos ty name nt want dst free
  case nil => exact fun waiting dst free types => .ofPure ()
  case cons => exact fun a rest ha hrest waiting dst free types =>
    (ha _ _ _).bind fun _ => hrest _ _ _ _

theorem lowerTest_adds (s : Scope) (first : Nat) (test : Expr) :
    AddsCode (lowerTest s first test) := by
  unfold lowerTest
  rcases comparison test with ⟨op, left, right⟩
  cases ht : regType? (s.typeOf none test) with
  | none =>
    simp only [ht]
    exact (AddsCode.report _).bind fun _ => .ofPure _
  | some t =>
    simp only [ht]
    have hoperand := fun x : Expr => AddsCode.operand ((lower_adds s).1 x)
    have hend : AddsCode (do
        Emit.instr (.jump .jmp (first + 1).toUInt32)
        pure true) := (AddsCode.instr (x := .jump .jmp _) rfl).bind fun _ => .ofPure _
    refine (hoperand left _ _).bind fun a => (hoperand right _ _).bind fun b =>
      (AddsCode.instr (x := .cmp t a b) (isKnown_of_regType? ht)).bind fun _ => ?_
    cases hj : jumps? op with
    | none => exact (AddsCode.report _).bind fun _ => hend
    | some js =>
      refine AddsCode.bind ?_ fun _ => hend
      have hjumps := isJump_of_jumps? hj
      clear hj
      induction js with
      | nil => exact .ofPure _
      | cons j js ih =>
        rw [List.forall_mem_cons] at hjumps
        exact (AddsCode.instr (x := .jump j _) hjumps.1).bind fun _ => ih hjumps.2

/-- Items that can be written, with every label from `n` on up to `n'` once. -/
structure Places (n : Nat) (items : List Item) (n' : Nat) : Prop where
  writable : Writable items
  le : n ≤ n'
  nodup : (labelsOf items).Nodup
  mem : ∀ l, l ∈ labelsOf items ↔ n ≤ l ∧ l < n'

theorem Places.ofCode {code : List Instr} (h : ∀ x ∈ code, x.WellFormed) (n : Nat) :
    Places n (code.map .instr) n where
  writable := writable_code.mpr h
  le := Nat.le_refl _
  nodup := by
    rw [labelsOf_code]
    exact List.nodup_nil
  mem l := by
    rw [labelsOf_code]
    simp only [List.not_mem_nil, false_iff]
    omega

theorem Places.append {n n₁ n₂ : Nat} {items items' : List Item} (h : Places n items n₁)
    (h' : Places n₁ items' n₂) : Places n (items ++ items') n₂ where
  writable := writable_append.mpr ⟨h.writable, h'.writable⟩
  le := Nat.le_trans h.le h'.le
  nodup := by
    rw [labelsOf_append, List.nodup_append]
    refine ⟨h.nodup, h'.nodup, fun a ha b hb => ?_⟩
    have h₁ := (h.mem a).mp ha
    have h₂ := (h'.mem b).mp hb
    omega
  mem l := by
    have hle := h.le
    have hle' := h'.le
    rw [labelsOf_append, List.mem_append, h.mem, h'.mem]
    omega

/-- The labels of a branch go around its blocks. -/
theorem Places.branch {n n₁ n₂ : Nat} {code : List Instr} {items items' : List Item} {j : Instr}
    (hcode : ∀ x ∈ code, x.WellFormed) (hj : j.WellFormed) (h : Places (n + branchLabels) items n₁)
    (h' : Places n₁ items' n₂) :
    Places n (code.map .instr ++ (.label n :: items ++ .instr j :: .label (n + 1) :: items' ++
      [Item.label (n + 2)])) n₂ where
  writable := by
    refine writable_append.mpr ⟨writable_code.mpr hcode, ?_⟩
    have hw := h.writable
    have hw' := h'.writable
    intro x hx
    simp only [List.append_assoc, List.cons_append, List.mem_append, List.mem_cons, reduceCtorEq,
      false_or, List.not_mem_nil, or_false, Item.instr.injEq] at hx
    rcases hx with hx | rfl | hx
    · exact hw x hx
    · exact hj
    · exact hw' x hx
  le := by
    have := h.le
    have := h'.le
    unfold branchLabels at *
    omega
  nodup := by
    have hmem := h.mem
    have hmem' := h'.mem
    have hle := h.le
    have hnodup := h.nodup
    have hnodup' := h'.nodup
    simp only [branchLabels] at hle hmem
    simp only [labelsOf_append, labelsOf_code, labelsOf_label, labelsOf_instr, labelsOf_nil,
      List.nil_append, List.cons_append, List.append_assoc]
    grind
  mem l := by
    have hmem := h.mem l
    have hmem' := h'.mem l
    have hle := h.le
    have hle' := h'.le
    simp only [branchLabels] at hle hmem
    simp only [labelsOf_append, labelsOf_code, labelsOf_label, labelsOf_instr, labelsOf_nil,
      List.nil_append, List.cons_append, List.append_assoc, List.mem_cons, List.mem_append,
      List.not_mem_nil, or_false, hmem, hmem']
    omega

def AddsLabels {α : Type} (m : Emit α) (k : Nat) : Prop :=
  Adds m fun n _ items n' => Places n items n' ∧ n' ≤ n + k

theorem AddsCode.labels {α : Type} {m : Emit α} (h : AddsCode m) : AddsLabels m 0 := by
  refine Adds.mono h ?_
  rintro n a _ n' ⟨rfl, code, rfl, hcode⟩
  exact ⟨.ofCode hcode _, Nat.le_refl _⟩

theorem AddsLabels.bind {α β : Type} {m : Emit α} {f : α → Emit β} {k k' : Nat}
    (h : AddsLabels m k) (hf : ∀ a, AddsLabels (f a) k') : AddsLabels (m >>= f) (k + k') := by
  refine (Adds.bind h hf).mono ?_
  rintro n b _ n' ⟨a, n₁, items, items', rfl, ⟨hp, hle⟩, hp', hle'⟩
  exact ⟨hp.append hp', by omega⟩

section
variable {s : Scope}

/-- A branch whose condition does not fit is left out, and its labels are placed all the same. -/
theorem lowerStmt_cond_adds {body : Block} {more : Option Block}
    (hbody : AddsLabels (lowerBlock s body) (blockLabels body))
    (hmore : AddsLabels (lowerBlock s (elseStmts more)) (blockLabels (elseStmts more))) (pos : Pos)
    (test : Expr) :
    AddsLabels (lowerStmt s (.cond pos test body more)) (stmtLabels (.cond pos test body more)) := by
  rw [lowerStmt_cond]
  have hblocks : ∀ first ok, Adds (if ok = true then do
        Emit.place first
        lowerBlock s body
        Emit.instr (.jump .jmp (first + 2).toUInt32)
        Emit.place (first + 1)
        lowerBlock s (elseStmts more)
        Emit.place (first + 2)
      else do
        Emit.place first
        Emit.place (first + 1)
        Emit.place (first + 2)) fun n _ items n' => n = first + branchLabels → ∀ code : List Instr,
        (∀ x ∈ code, x.WellFormed) → Places first (code.map .instr ++ items) n' ∧
          n' ≤ n + blockLabels body + blockLabels (elseStmts more) := by
    intro first ok
    cases ok with
    | true =>
      rw [if_pos rfl]
      have hinstr : Adds (Emit.instr (.jump .jmp (first + 2).toUInt32)) fun n _ items n' =>
          items = [.instr (.jump .jmp (first + 2).toUInt32)] ∧ n' = n :=
        fun _ => ⟨_, Array.toList_push, rfl, rfl⟩
      refine ((Adds.place _).bind fun _ => Adds.bind hbody fun _ => hinstr.bind fun _ =>
        (Adds.place _).bind fun _ => Adds.bind hmore fun _ => Adds.place _).mono ?_
      rintro _ _ _ _ ⟨_, _, _, _, rfl, ⟨rfl, rfl⟩, _, n₁, items₁, _, rfl, ⟨h₁, hle₁⟩, _, _, _, _,
        rfl, ⟨rfl, rfl⟩, _, _, _, _, rfl, ⟨rfl, rfl⟩, _, n₂, items₂, _, rfl, ⟨h₂, hle₂⟩, rfl, rfl⟩
        rfl code hcode
      refine ⟨?_, by omega⟩
      have h := Places.branch hcode (j := .jump .jmp (first + 2).toUInt32) rfl h₁ h₂
      simpa using h
    | false =>
      rw [if_neg Bool.false_ne_true]
      refine ((Adds.place _).bind fun _ => (Adds.place _).bind fun _ => Adds.place _).mono ?_
      rintro n _ _ _ ⟨_, _, _, _, rfl, ⟨rfl, rfl⟩, _, _, _, _, rfl, ⟨rfl, rfl⟩, rfl, rfl⟩ rfl code
        hcode
      refine ⟨⟨?_, ?_, ?_, ?_⟩, by omega⟩
      · exact writable_append.mpr ⟨writable_code.mpr hcode, by simp [Writable]⟩
      · exact Nat.le_add_right _ _
      · simp
      · intro l
        simp [branchLabels]
        omega
  refine ((Adds.labels branchLabels).bind fun first =>
    Adds.bind (lowerTest_adds s first test) fun ok => hblocks first ok).mono ?_
  rintro n _ _ n' ⟨_, _, _, _, rfl, ⟨rfl, rfl, rfl⟩, ok, _, _, _, rfl, ⟨rfl, code, rfl, hcode⟩, h⟩
  obtain ⟨hplaces, hle⟩ := h rfl code hcode
  rw [stmtLabels_cond]
  exact ⟨hplaces, by omega⟩

/-- Statements place every label that they take, whatever they report. -/
theorem lowerStmt_adds (hs : s.current.Sound) :
    (∀ x, AddsLabels (lowerStmt s x) (stmtLabels x)) ∧
    ∀ xs, AddsLabels (lowerBlock s xs) (blockLabels xs) := by
  have hlower := (lower_adds s).1
  apply Stmt.forall_of
  case var =>
    intro v
    refine AddsCode.labels ?_
    rw [lowerStmt]
    by_cases hm : v.init.isMissing = true
    · rw [if_pos hm]
      refine .instr ?_
      cases hv : s.current.var? v.name with
      | none => exact rfl
      | some w => exact hs.isKnown hv
    · rw [if_neg hm]
      exact hlower _ _ _ _
  case assign =>
    intro pos name nt x
    refine AddsCode.labels ?_
    rw [lowerStmt]
    refine (AddsCode.lookup s pos name).bind fun v => ?_
    cases v with
    | none => exact .ofPure _
    | some v => exact hlower _ _ _ _
  case ret =>
    intro pos x
    refine AddsCode.labels ?_
    rw [lowerStmt]
    have hret : AddsCode (Emit.instr (.ret 0)) := .instr trivial
    by_cases hm : x.isMissing = true
    · rw [if_pos hm]
      exact (AddsCode.instr (x := .set .s32 0 0) rfl).bind fun _ => hret
    · rw [if_neg hm]
      exact (hlower _ _ _ _).bind fun _ => hret
  case expr =>
    intro pos x
    refine AddsCode.labels ?_
    cases x with
    | call => exact hlower _ _ _ _
    | _ => exact .report _
  case cond => exact fun pos test body more hbody hmore => lowerStmt_cond_adds hbody hmore pos test
  case other => exact fun kind pos => (AddsCode.report _).labels
  case nil => exact (AddsCode.ofPure _).labels
  case cons => exact fun x rest hx hrest => hx.bind fun _ => hrest

/-- So do functions, with no more labels than their bodies have. -/
theorem lowerFunction_adds (hs : s.current.Sound) :
    AddsLabels (lowerFunction s) (blockLabels s.current.function.body) := by
  unfold lowerFunction
  have hfunc : AddsCode (Emit.instr (.func s.current.regs.toUInt16 s.current.args.toUInt16)) :=
    .instr trivial
  have hend : AddsCode (if (!(s.current.function.body.getLast?.any isReturn)) = true
      then Emit.instr (.ret 0) else pure ()) := by
    by_cases h : (!(s.current.function.body.getLast?.any isReturn)) = true
    · rw [if_pos h]
      exact .instr trivial
    · rw [if_neg h]
      exact .ofPure _
  have hbody := (lowerStmt_adds hs).2 s.current.function.body
  have h := hfunc.labels.bind fun _ => hbody.bind fun _ => hend.labels
  rw [Nat.add_zero, Nat.zero_add] at h
  exact h

end

end RegisterLang.Lowering
