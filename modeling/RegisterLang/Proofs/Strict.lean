import RegisterLang.Proofs.Lowered
import RegisterLang.Proofs.Whole

/-!
# A generator that stops at what cannot be

The generator once more, with an outcome of its own for what a program cannot answer for: an
expression that is asked for and is not there, a label that is placed twice, and all that a builder or
a set of numbers refuses. None of these is reported; they stop it at once.
-/
namespace RegisterLang.Strict
open Lowering

inductive Breach where
  | absent
  | placedTwice (label : Nat)
  | position (e : BitmapFault)
  | refused (e : BuildFault)

abbrev Strictly (σ α : Type) := StateT σ (Except Breach) α

/-- A computation that cannot stop. -/
def lift {σ α : Type} (m : StateM σ α) : Strictly σ α := fun s => .ok (m.run s)

def stop {σ α : Type} (e : Breach) : Strictly σ α := fun _ => .error e

/-- A type that is looked for on the way. -/
def ask {σ α : Type} (r : Except Breach α) : Strictly σ α := fun s => r.map (·, s)

/-- The type of an expression, which has to be there; so have the operands that it depends on. -/
def typeOf? (functions : List Function) (vars : Variables) (want : Option Ty) :
    Expr → Except Breach (Option Ty)
  | .missing => .error .absent
  | .ident pos t name => .ok (typeOf functions vars want (.ident pos t name))
  | .int pos t value negative => .ok (typeOf functions vars want (.int pos t value negative))
  | .float pos t bits => .ok (typeOf functions vars want (.float pos t bits))
  | .double pos t bits => .ok (typeOf functions vars want (.double pos t bits))
  | .char pos t value => .ok (typeOf functions vars want (.char pos t value))
  | .string pos t value => .ok (typeOf functions vars want (.string pos t value))
  | .call pos t name nt args => .ok (typeOf functions vars want (.call pos t name nt args))
  | .op _ (some t) _ _ _ _ => .ok (some t)
  | .op _ none op _ left right =>
    let want := if op.isComparison then none else want
    if left.isMissing || isUntyped left && !isUntyped right then typeOf? functions vars want right
    else typeOf? functions vars want left

def declare? (functions : List Function) (v : Var) : Strictly (Layout × Array Diagnostic) Unit := do
  let (l, _) ← get
  if (l.var? v.name).isSome then
    lift (Planning.report
      { message := "variable " ++ Text.quote v.name ++ " is already defined", pos := v.pos })
  else
    let ty ← if v.type.isNone && !v.init.isMissing then ask (typeOf? functions l.vars none v.init)
      else pure v.type
    let type := regType? ty
    if type.isNone then lift (Planning.report (unfit v.pos ty))
    let var : Variable := ⟨l.locals.toUInt16, type.getD .s32, ty⟩
    lift (Planning.update fun l =>
      { l with vars := l.vars ++ [(v.name, var)], locals := l.locals + 1 })

mutual

def planStmt? (functions : List Function) : Stmt → Strictly (Layout × Array Diagnostic) Unit
  | .var v => do
    declare? functions v
    lift (Planning.update (·.reserve v.init))
  | .assign _ _ _ x => lift (Planning.update (·.reserve x))
  | .ret _ x => lift (Planning.update (·.reserve x))
  | .expr _ x => lift (Planning.update (·.reserve x))
  | .cond _ test body none => do
    lift (Planning.update fun l => { l.reserve test with labels := l.labels + branchLabels })
    planBlock? functions body
  | .cond _ test body (some more) => do
    lift (Planning.update fun l => { l.reserve test with labels := l.labels + branchLabels })
    planBlock? functions body
    planBlock? functions more
  | .other .. => return
termination_by structural x => x

def planBlock? (functions : List Function) : List Stmt → Strictly (Layout × Array Diagnostic) Unit
  | [] => return
  | s :: rest => do
    planStmt? functions s
    planBlock? functions rest
termination_by structural x => x

end

def planFunction? (functions : List Function) : Strictly (Layout × Array Diagnostic) Unit := do
  let f := (← get).1.function
  f.params.forM (declare? functions)
  planBlock? functions f.body
  let (l, _) ← get
  if maxRegs < l.regs then
    lift (Planning.report
      { message := "function " ++ Text.quote f.name ++ " needs " ++ toString l.regs ++
          " registers, max " ++ toString maxRegs
        pos := f.pos })

def planAll? (functions : List Function) (index label : Nat) (done : Array Layout)
    (ds : Array Diagnostic) : List Function → Except Breach (List Layout × Array Diagnostic)
  | [] => .ok (done.toList, ds)
  | f :: rest => do
    let start : Layout := { function := f, index, labelBase := label }
    let ((), l, ds) ← (planFunction? functions).run (start, ds)
    planAll? functions (index + 1) (label + l.labels) (done.push l) ds rest

def plan? (file : File) (ds : Array Diagnostic) :
    Except Breach (List Layout × Array Diagnostic) :=
  let (functions, ds) := order file ds
  planAll? functions 0 0 #[] ds functions

abbrev Emit? (α : Type) := Strictly Output α

def scopeType? (s : Scope) (want : Option Ty) (x : Expr) : Emit? (Option Ty) :=
  ask (typeOf? s.functions s.current.vars want x)

mutual

def lower? (s : Scope) (want : Option Ty) (dst free : Reg) : Expr → Emit? Unit
  | .ident pos t name => lift (lower s want dst free (.ident pos t name))
  | .op pos ty op binary left right => do
    let ty ← scopeType? s want (.op pos ty op binary left right)
    match regType? ty with
    | none => lift (Emit.report (unfit pos ty))
    | some t =>
      if binary then
        match mathOp? op with
        | none => lift (Emit.report ⟨"unexpected operator", pos, "arithmetic operator", op.symbol⟩)
        | some m =>
          let a ← match ident? left with
            | some (pos, name) => do pure (((← lift (s.lookup pos name)).map Variable.reg).getD 0)
            | none => do lower? s ty free (free + 1) left; pure free
          let b ← match ident? right with
            | some (pos, name) => do pure (((← lift (s.lookup pos name)).map Variable.reg).getD 0)
            | none => do lower? s ty (free + 1) (free + 2) right; pure (free + 1)
          lift (Emit.instr (.math m t dst a b))
      else
        lift (Emit.instr (.set t free 0))
        let r ← match ident? right with
          | some (pos, name) => do pure (((← lift (s.lookup pos name)).map Variable.reg).getD 0)
          | none => do lower? s ty (free + 1) (free + 2) right; pure (free + 1)
        lift (Emit.instr (.math .sub t dst free r))
  | .call pos _ name _ args => do
    let some callee ← lift (resolve s pos name args.length) | return
    let base := s.current.base args.length
    let types := callee.function.params.map Var.type
    if args.any makesCall then
      lowerArgs? s true free free types args
      lift (moveAll base free args.length)
    else lowerArgs? s false base free types args
    lift (Emit.instr (.call callee.index.toUInt32))
    if base ≠ dst then lift (Emit.instr (.mov dst base))
  | .missing => stop .absent
  | .int pos ty value negative => lift (lowerLiteral s want dst (.int pos ty value negative))
  | .float pos ty bits => lift (lowerLiteral s want dst (.float pos ty bits))
  | .double pos ty bits => lift (lowerLiteral s want dst (.double pos ty bits))
  | .char pos ty value => lift (lowerLiteral s want dst (.char pos ty value))
  | .string pos ty value => lift (lowerLiteral s want dst (.string pos ty value))
termination_by structural x => x

def lowerArgs? (s : Scope) (waiting : Bool) (dst free : Reg) (types : List (Option Ty)) :
    List Expr → Emit? Unit
  | [] => return
  | a :: rest => do
    lower? s (types.headD none) dst (if waiting then dst + 1 else free) a
    lowerArgs? s waiting (dst + 1) free types.tail rest
termination_by structural x => x

end

def operand? (s : Scope) (want : Option Ty) (free : Reg) (x : Expr) : Emit? Reg := do
  match ident? x with
  | some (pos, name) => return ((← lift (s.lookup pos name)).map Variable.reg).getD 0
  | none =>
    lower? s want free (free + 1) x
    return free

/-- The jumps of a condition, which has to be an operator. -/
def lowerTest? (s : Scope) (first : Nat) (test : Expr) : Emit? Bool := do
  let want ← scopeType? s none test
  let free := s.current.free
  match test with
  | .op pos _ op _ left right =>
    match regType? want with
    | none =>
      lift (Emit.report (unfit pos want))
      return false
    | some t =>
      let a ← operand? s want free left
      let b ← operand? s want (free + 1) right
      lift (Emit.instr (.cmp t a b))
      match jumps? op with
      | some l => lift (l.forM fun j => Emit.instr (.jump j first.toUInt32))
      | none => lift (Emit.report ⟨"bad condition", pos, "comparison", op.symbol⟩)
      lift (Emit.instr (.jump .jmp (first + 1).toUInt32))
      return true
  | _ => stop .absent

mutual

def lowerStmt? (s : Scope) : Stmt → Emit? Unit
  | .var v => do
    let var := (s.current.var? v.name).getD {}
    if v.init.isMissing then lift (Emit.instr (.set var.type var.reg 0))
    else lower? s var.ty var.reg s.current.free v.init
  | .assign pos name _ x => do
    let some v ← lift (s.lookup pos name) | return
    lower? s v.ty v.reg s.current.free x
  | .ret _ x => do
    if x.isMissing then lift (Emit.instr (.set .s32 0 0))
    else lower? s s.current.function.ret 0 s.current.free x
    lift (Emit.instr (.ret 0))
  | .expr pos x => do
    match x with
    | .call pos _ name _ args =>
      lower? s none (s.current.base args.length) s.current.free (.call pos none name none args)
    | _ => lift (Emit.report ⟨"unused expression", pos, "function call", "expression"⟩)
  | .cond _ test body none => do
    let first ← lift (Emit.labels branchLabels)
    if ← lowerTest? s first test then
      lift (Emit.place first)
      lowerBlock? s body
      lift (Emit.instr (.jump .jmp (first + 2).toUInt32))
      lift (Emit.place (first + 1))
      lift (Emit.place (first + 2))
    else
      lift (Emit.place first)
      lift (Emit.place (first + 1))
      lift (Emit.place (first + 2))
  | .cond _ test body (some more) => do
    let first ← lift (Emit.labels branchLabels)
    if ← lowerTest? s first test then
      lift (Emit.place first)
      lowerBlock? s body
      lift (Emit.instr (.jump .jmp (first + 2).toUInt32))
      lift (Emit.place (first + 1))
      lowerBlock? s more
      lift (Emit.place (first + 2))
    else
      lift (Emit.place first)
      lift (Emit.place (first + 1))
      lift (Emit.place (first + 2))
  | .other kind pos =>
    if kind = .missing then stop .absent
    else lift (Emit.report { message := "unsupported statement: " ++ kind.name, pos })
termination_by structural x => x

def lowerBlock? (s : Scope) : List Stmt → Emit? Unit
  | [] => return
  | x :: rest => do
    lowerStmt? s x
    lowerBlock? s rest
termination_by structural x => x

end

def lowerFunction? (s : Scope) : Emit? Unit := do
  let l := s.current
  lift (Emit.instr (.func l.regs.toUInt16 l.args.toUInt16))
  lowerBlock? s l.function.body
  if !(l.function.body.getLast?.any isReturn) then lift (Emit.instr (.ret 0))

/-- What a builder leaves, unless it refuses. -/
def accept : Builder.Outcome → Except Breach Builder
  | (b, none) => .ok b
  | (_, some e) => .error (.refused e)

/-- The builder and the labels placed so far, counted from `base`, after one more item. -/
def writeItem? (base : Nat) (w : Builder × Bitmap) : Item → Except Breach (Builder × Bitmap)
  | .instr x => do
    let b ← accept (w.1.emit x)
    return (b, w.2)
  | .label l =>
    match w.2.testAndSet (l - base : Int) with
    | (_, .error e) => .error (.position e)
    | (_, .ok true) => .error (.placedTwice l)
    | (placed, .ok false) => do
      let b ← accept (w.1.place l)
      return (b, placed)

def writeFunction? (layouts : List Layout) (l : Layout) (b : Builder) (ds : Array Diagnostic) :
    Except Breach (Array Diagnostic × Except GenerateError (Builder × Emitted)) := do
  let ((), out) ← (lowerFunction? ⟨layouts, l⟩).run { label := l.labelBase, diagnostics := ds }
  let start := b.size
  let (b, labels) ← out.items.toList.foldlM (writeItem? l.labelBase) (b, {})
  let b ← accept (b.setFunction l.index start)
  return (out.diagnostics,
    if out.label ≠ l.labelBase + l.labels then
      .error (.labelCount l.function.name (out.label - l.labelBase) l.labels)
    else
      match labels.firstUnset l.labels with
      | some i => .error (.labelMissing l.function.name (l.labelBase + i))
      | none => .ok (b, ⟨start, b.size, labels⟩))

def writeAll? (layouts : List Layout) (b : Builder) (g : Generated) :
    List Layout → Except Breach Generated
  | [] => .ok { g with result := .ok b }
  | l :: rest => do
    let (diagnostics, r) ← writeFunction? layouts l b g.diagnostics
    match r with
    | .error e => .ok { g with diagnostics, result := .error e }
    | .ok (b, e) => writeAll? layouts b { g with diagnostics, emitted := g.emitted.push e } rest

/-- Lowers a file, or stops. -/
def generate? (file : File) (ds : Array Diagnostic) (buffer : Int) : Except Breach Generated := do
  let (layouts, planned) ← plan? file ds
  if planned.size ≠ ds.size then
    return { layouts, diagnostics := planned, result := .error (.reported (planned.size - ds.size)) }
  else
    let b := Builder.make buffer layouts.length (Layout.labelCount layouts)
    let g ← writeAll? layouts b { layouts, diagnostics := planned, result := .ok b } layouts
    return g.settle ds.size

/-! ## Whole trees

On a tree in which nothing is missing that is needed, planning and lowering never stop. -/

theorem lift_bind {σ α β : Type} (m : StateM σ α) (f : α → StateM σ β) :
    lift (m >>= f) = lift m >>= fun a => lift (f a) := rfl

theorem lift_pure {σ α : Type} (a : α) : lift (σ := σ) (pure a) = pure a := rfl

theorem lift_if {σ α : Type} (c : Prop) [Decidable c] (m m' : StateM σ α) :
    lift (if c then m else m') = if c then lift m else lift m' := by
  by_cases h : c
  · rw [if_pos h, if_pos h]
  · rw [if_neg h, if_neg h]

theorem typeOf?_eq (functions : List Function) (vars : Variables) : ∀ x : Expr, x.isWhole = true →
    ∀ want, typeOf? functions vars want x = .ok (typeOf functions vars want x) := by
  refine (Expr.forall_of (Q := fun _ => True) ?missing ?ident ?int ?float ?double ?char ?string ?op
    ?call trivial fun _ _ _ _ => trivial).1
  case missing =>
    intro h
    cases h
  case ident => exact fun pos t name _ want => rfl
  case int => exact fun pos t v n _ want => rfl
  case float => exact fun pos t b _ want => rfl
  case double => exact fun pos t b _ want => rfl
  case char => exact fun pos t v _ want => rfl
  case string => exact fun pos t v _ want => rfl
  case call => exact fun pos t name nt args _ _ want => rfl
  case op =>
    intro pos t op binary left right hl hr h want
    cases t with
    | some t => rfl
    | none =>
      rw [typeOf?, typeOf]
      generalize (if op.isComparison = true then none else want) = want'
      dsimp only [Option.or]
      cases binary with
      | true =>
        have h : left.isWhole = true ∧ right.isWhole = true := by simpa [Expr.isWhole] using h
        split
        · exact hr h.2 _
        · exact hl h.1 _
      | false =>
        have h : left.isMissing = true ∧ right.isWhole = true := by simpa [Expr.isWhole] using h
        rw [h.1, Bool.true_or, if_pos rfl, if_pos rfl]
        exact hr h.2 _

section
variable (functions : List Function)

theorem declare?_eq {v : Var} (h : v.init.isMissing = true ∨ v.init.isWhole = true) :
    declare? functions v = lift (declare functions v) := by
  unfold declare? declare
  rw [lift_bind]
  refine congrArg (Bind.bind (lift get)) ?_
  funext ⟨l, ds⟩
  dsimp only
  by_cases hvar : (l.var? v.name).isSome = true
  · rw [if_pos hvar, if_pos hvar]
  · rw [if_neg hvar, if_neg hvar]
    by_cases hc : (v.type.isNone && !v.init.isMissing) = true
    · have hmissing : ¬ v.init.isMissing = true := by
        rw [Bool.and_eq_true, Bool.not_eq_true'] at hc
        rw [hc.2]
        exact Bool.false_ne_true
      rw [if_pos hc, if_pos hc, typeOf?_eq functions l.vars _ (h.resolve_left hmissing)]
      generalize typeOf functions l.vars none v.init = ty
      exact (lift_if ((regType? ty).isNone = true) _ _).symm
    · rw [if_neg hc, if_neg hc]
      exact (lift_if ((regType? v.type).isNone = true) _ _).symm

/-- Planning goes on to the end of whole statements. -/
theorem plan?_eq_all :
    (∀ x, Whole (.one x) → planStmt? functions x = lift (planStmt functions x)) ∧
    ∀ xs, Whole (.all xs) → planBlock? functions xs = lift (planBlock functions xs) := by
  apply Stmt.forall_of
  case var =>
    intro v h
    cases h with
    | var h => rw [planStmt?, planStmt, lift_bind, declare?_eq functions h]
  case assign => exact fun pos name nt x _ => rfl
  case ret => exact fun pos x _ => rfl
  case expr => exact fun pos x _ => rfl
  case cond =>
    intro pos test body more hbody hmore h
    cases h with
    | cond _ _ hb hm =>
      cases more with
      | none => rw [planStmt?, planStmt, lift_bind, hbody hb]
      | some more =>
        have hmore : planBlock? functions more = lift (planBlock functions more) := hmore hm
        rw [planStmt?, planStmt, lift_bind, hbody hb]
        simp only [lift_bind, hmore]
  case other => exact fun kind pos _ => rfl
  case nil => exact fun _ => rfl
  case cons =>
    intro x rest hx hrest h
    cases h with
    | cons h h' => rw [planBlock?, planBlock, lift_bind, hx h, hrest h']

theorem declareAll?_eq {params : List Var} (h : ∀ p ∈ params, p.init.isMissing = true) :
    params.forM (declare? functions) = lift (params.forM (declare functions)) := by
  induction params with
  | nil => rfl
  | cons p params ih =>
    rw [List.forall_mem_cons] at h
    have hp := declare?_eq functions (v := p) (.inl h.1)
    change (declare? functions p >>= fun _ => params.forM (declare? functions)) =
      lift (declare functions p >>= fun _ => params.forM (declare functions))
    rw [lift_bind, hp, ih h.2]

theorem planFunction?_eq {s : Layout × Array Diagnostic} (h : Typing.WholeFunction s.1.function) :
    (planFunction? functions).run s = .ok ((planFunction functions).run s) := by
  have hf : ∀ f : Function, Typing.WholeFunction f → (do
      f.params.forM (declare? functions)
      planBlock? functions f.body
      let (l, _) ← get
      if maxRegs < l.regs then
        lift (Planning.report
          { message := "function " ++ Text.quote f.name ++ " needs " ++ toString l.regs ++
              " registers, max " ++ toString maxRegs
            pos := f.pos })) = lift (do
      f.params.forM (declare functions)
      planBlock functions f.body
      let (l, _) ← get
      if maxRegs < l.regs then
        Planning.report
          { message := "function " ++ Text.quote f.name ++ " needs " ++ toString l.regs ++
              " registers, max " ++ toString maxRegs
            pos := f.pos }) := by
    intro f hf
    rw [declareAll?_eq functions hf.params, (plan?_eq_all functions).2 _ hf.body, lift_bind]
    refine congrArg (Bind.bind _) ?_
    funext _
    rw [lift_bind]
    refine congrArg (Bind.bind _) ?_
    funext _
    rw [lift_bind]
    refine congrArg (Bind.bind (lift get)) ?_
    funext ⟨l, ds⟩
    exact (lift_if _ _ _).symm
  exact congrFun (hf s.1.function h) s

theorem planAll?_eq {fs : List Function} (h : ∀ f ∈ fs, Typing.WholeFunction f) (index label : Nat)
    (done : Array Layout) (ds : Array Diagnostic) :
    planAll? functions index label done ds fs = .ok (planAll functions index label done ds fs) := by
  induction fs generalizing index label done ds with
  | nil => rfl
  | cons f fs ih =>
    rw [List.forall_mem_cons] at h
    rw [planAll?, planAll]
    dsimp only
    rw [planFunction?_eq functions (s := ({ function := f, index, labelBase := label }, ds)) h.1]
    exact ih h.2 _ _ _ _

end

theorem mem_of_mem_distinct {seen : List String} {ds : Array Diagnostic} {fs : List Function}
    {f : Function} (h : f ∈ (distinct seen ds fs).1) : f ∈ fs := by
  induction fs generalizing seen ds with
  | nil => exact h
  | cons g fs ih =>
    rw [distinct] at h
    split at h
    · exact List.mem_cons_of_mem _ (ih h)
    · rcases List.mem_cons.mp h with rfl | h
      · exact List.mem_cons_self
      · exact List.mem_cons_of_mem _ (ih h)

theorem mem_of_mem_order {file : File} {ds : Array Diagnostic} {f : Function}
    (h : f ∈ (order file ds).1) : f ∈ file.functions := by
  have h : f ∈ ((distinct [] ds file.functions).1.partition fun f => f.name = mainName).1 ++
    ((distinct [] ds file.functions).1.partition fun f => f.name = mainName).2 := h
  rw [List.partition_eq_filter_filter, List.mem_append, List.mem_filter, List.mem_filter] at h
  exact mem_of_mem_distinct (h.elim And.left And.left)

theorem plan?_eq {file : File} (h : ∀ f ∈ file.functions, Typing.WholeFunction f)
    (ds : Array Diagnostic) : plan? file ds = .ok (plan file ds) :=
  planAll?_eq _ (fun f hf => h f (mem_of_mem_order hf)) 0 0 #[] (order file ds).2

section
variable {s : Scope}

/-- Lowering a whole expression goes on to its end. -/
def GoesOn (s : Scope) (x : Expr) : Prop :=
  ∀ want dst free, lower? s want dst free x = lift (lower s want dst free x)

theorem operand?_eq {x : Expr} (hx : GoesOn s x) (want : Option Ty) (free : Reg) :
    operand? s want free x = lift (operand s want free x) := by
  unfold operand? operand
  cases ident? x with
  | some p => rfl
  | none =>
    dsimp only
    rw [hx, lift_bind]
    rfl

theorem scopeType?_eq {x : Expr} (h : x.isWhole = true) (want : Option Ty) :
    scopeType? s want x = pure (s.typeOf want x) := by
  unfold scopeType?
  rw [typeOf?_eq _ _ x h]
  rfl

/-- Lowering an operator, with its operands lowered by `operand?`. -/
theorem lower?_op (want : Option Ty) (dst free : Reg) (pos : Pos) (ty : Option Ty) (op : Op)
    (binary : Bool) (left right : Expr) :
    lower? s want dst free (.op pos ty op binary left right) = (do
      let ty ← scopeType? s want (.op pos ty op binary left right)
      match regType? ty with
      | none => lift (Emit.report (unfit pos ty))
      | some t =>
        if binary then
          match mathOp? op with
          | none => lift (Emit.report ⟨"unexpected operator", pos, "arithmetic operator", op.symbol⟩)
          | some m => do
            let a ← operand? s ty free left
            let b ← operand? s ty (free + 1) right
            lift (Emit.instr (.math m t dst a b))
        else do
          lift (Emit.instr (.set t free 0))
          let r ← operand? s ty (free + 1) right
          lift (Emit.instr (.math .sub t dst free r))) := by
  have h2 : free + 1 + 1 = free + 2 := by
    rw [UInt16.add_assoc]
    rfl
  rw [lower?]
  simp only [operand?, h2]
  cases ident? left <;> cases ident? right <;> simp only [bind_assoc, pure_bind]

theorem lower?_op_eq {left right : Expr} {binary : Bool}
    (hl : left.isWhole = true → GoesOn s left) (hr : right.isWhole = true → GoesOn s right)
    (pos : Pos) (ty : Option Ty) (op : Op) (h : (Expr.op pos ty op binary left right).isWhole = true) :
    GoesOn s (.op pos ty op binary left right) := by
  intro want dst free
  rw [lower?_op, lower_op, scopeType?_eq h, pure_bind]
  dsimp only
  generalize s.typeOf want (.op pos ty op binary left right) = t
  have hright : right.isWhole = true := by
    rw [Expr.isWhole, Bool.and_eq_true] at h
    exact h.2
  cases regType? t with
  | none => rfl
  | some k =>
    cases binary with
    | true =>
      have hleft : left.isWhole = true := by
        rw [Expr.isWhole, Bool.and_eq_true] at h
        exact h.1
      cases mathOp? op with
      | none => rfl
      | some m =>
        dsimp only
        rw [if_pos rfl, if_pos rfl, lift_bind, operand?_eq (hl hleft)]
        refine congrArg (Bind.bind _) ?_
        funext a
        rw [lift_bind, operand?_eq (hr hright)]
    | false =>
      dsimp only
      rw [if_neg Bool.false_ne_true, if_neg Bool.false_ne_true, lift_bind]
      refine congrArg (Bind.bind _) ?_
      funext _
      rw [lift_bind, operand?_eq (hr hright)]

theorem lower?_call_eq {args : List Expr} (hargs : ∀ waiting dst free types,
      lowerArgs? s waiting dst free types args = lift (lowerArgs s waiting dst free types args))
    (pos : Pos) (ty : Option Ty) (name : String) (nt : Option Ty) :
    GoesOn s (.call pos ty name nt args) := by
  intro want dst free
  rw [lower?, lower, lift_bind]
  refine congrArg (Bind.bind _) ?_
  funext callee
  cases callee with
  | none => rfl
  | some callee =>
    dsimp only
    by_cases hany : args.any makesCall = true
    · rw [if_pos hany, if_pos hany, hargs]
      simp only [lift_bind, lift_if, lift_pure]
    · rw [if_neg hany, if_neg hany, hargs]
      simp only [lift_bind, lift_if, lift_pure]

theorem lower?_eq_all (s : Scope) : (∀ x : Expr, x.isWhole = true → GoesOn s x) ∧
    ∀ xs : List Expr, argsWhole xs = true → ∀ waiting dst free types,
      lowerArgs? s waiting dst free types xs = lift (lowerArgs s waiting dst free types xs) := by
  apply Expr.forall_of
  case missing =>
    intro h
    cases h
  case ident => exact fun pos t name _ want dst free => rfl
  case int => exact fun pos t v n _ want dst free => rfl
  case float => exact fun pos t b _ want dst free => rfl
  case double => exact fun pos t b _ want dst free => rfl
  case char => exact fun pos t v _ want dst free => rfl
  case string => exact fun pos t v _ want dst free => rfl
  case op => exact fun pos t op binary left right hl hr h => lower?_op_eq hl hr pos t op h
  case call => exact fun pos t name nt args hargs h => lower?_call_eq (hargs h) pos t name nt
  case nil => exact fun _ waiting dst free types => rfl
  case cons =>
    intro a rest ha hrest h waiting dst free types
    rw [argsWhole, Bool.and_eq_true] at h
    rw [lowerArgs?, lowerArgs, lift_bind, ha h.1, hrest h.2]

theorem lowerTest?_eq (s : Scope) (first : Nat) {test : Expr} (hpair : test.IsPair)
    (h : test.isWhole = true) : lowerTest? s first test = lift (lowerTest s first test) := by
  have hlower := (lower?_eq_all s).1
  cases test with
  | op pos ty op binary left right =>
    obtain rfl : binary = true := hpair
    have hwhole : left.isWhole = true ∧ right.isWhole = true := by simpa [Expr.isWhole] using h
    unfold lowerTest? lowerTest
    rw [scopeType?_eq h, pure_bind]
    generalize s.typeOf none (.op pos ty op true left right) = want
    dsimp only [comparison]
    cases regType? want with
    | none => rfl
    | some t =>
      dsimp only
      rw [lift_bind, operand?_eq (hlower left hwhole.1)]
      refine congrArg (Bind.bind _) ?_
      funext a
      rw [lift_bind, operand?_eq (hlower right hwhole.2)]
      refine congrArg (Bind.bind _) ?_
      funext b
      cases jumps? op <;> rfl
  | _ => exact hpair.elim

theorem lowerStmt?_cond (pos : Pos) (test : Expr) (body : Block) (more : Option Block) :
    lowerStmt? s (.cond pos test body more) = (do
      let first ← lift (Emit.labels branchLabels)
      if ← lowerTest? s first test then
        lift (Emit.place first)
        lowerBlock? s body
        lift (Emit.instr (.jump .jmp (first + 2).toUInt32))
        lift (Emit.place (first + 1))
        lowerBlock? s (elseStmts more)
        lift (Emit.place (first + 2))
      else
        lift (Emit.place first)
        lift (Emit.place (first + 1))
        lift (Emit.place (first + 2))) := by
  cases more <;> rfl

/-- Lowering goes on to the end of whole statements. -/
theorem lowerStmt?_eq_all (s : Scope) :
    (∀ x, Whole (.one x) → lowerStmt? s x = lift (lowerStmt s x)) ∧
    ∀ xs, Whole (.all xs) → lowerBlock? s xs = lift (lowerBlock s xs) := by
  have hlower := (lower?_eq_all s).1
  apply Stmt.forall_of
  case var =>
    intro v h
    cases h with
    | var h =>
      rw [lowerStmt?, lowerStmt]
      by_cases hm : v.init.isMissing = true
      · rw [if_pos hm, if_pos hm]
      · rw [if_neg hm, if_neg hm]
        exact hlower _ (h.resolve_left hm) _ _ _
  case assign =>
    intro pos name nt x h
    cases h with
    | assign h =>
      rw [lowerStmt?, lowerStmt, lift_bind]
      refine congrArg (Bind.bind _) ?_
      funext v
      cases v with
      | none => rfl
      | some v => exact hlower x h _ _ _
  case ret =>
    intro pos x h
    cases h with
    | ret h =>
      rw [lowerStmt?, lowerStmt]
      by_cases hm : x.isMissing = true
      · rw [if_pos hm, if_pos hm]
        rfl
      · rw [if_neg hm, if_neg hm, lift_bind, hlower x (h.resolve_left hm)]
  case expr =>
    intro pos x h
    cases h with
    | expr h =>
      cases x with
      | call cpos ty name nt args =>
        exact hlower (.call cpos none name none args) h none (s.current.base args.length)
          s.current.free
      | _ => rfl
  case cond =>
    intro pos test body more hbody hmore h
    cases h with
    | cond hpair hwhole hb hm =>
      rw [lowerStmt?_cond, lowerStmt_cond, lift_bind]
      refine congrArg (Bind.bind _) ?_
      funext first
      rw [lift_bind, lowerTest?_eq s first hpair hwhole]
      refine congrArg (Bind.bind _) ?_
      funext ok
      rw [hbody hb, hmore hm, lift_if]
      rfl
  case other =>
    intro kind pos h
    cases h
  case nil => exact fun _ => rfl
  case cons =>
    intro x rest hx hrest h
    cases h with
    | cons h h' => rw [lowerBlock?, lowerBlock, lift_bind, hx h, hrest h']

theorem lowerFunction?_eq (h : Whole (.all s.current.function.body)) :
    lowerFunction? s = lift (lowerFunction s) := by
  unfold lowerFunction? lowerFunction
  dsimp only
  rw [(lowerStmt?_eq_all s).2 _ h]
  simp only [lift_bind, lift_if, lift_pure]

end

end RegisterLang.Strict
