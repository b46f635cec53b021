import RegisterLang.Proofs.Lowered

/-!
# Planned layouts

What holds of the layouts of a program when planning reports nothing. Planning only adds to a layout,
so what a statement was given stays there to the end: `Extends` is the step, and `Planned` what it
keeps. In the end every variable has a register of its own, every expression has room, and every
function its place in the tables.
-/
namespace RegisterLang.Lowering

abbrev Plans (m : Planning Unit) (P : Layout → Layout → Prop) : Prop :=
  Quiet (fun s : Layout × Array Diagnostic => s.2.size) m fun s _ s' => P s.1 s'.1

namespace Plans
variable {m m' : Planning Unit} {P P' Q : Layout → Layout → Prop}

theorem mono (h : Plans m P) (hP : ∀ l l', P l l' → P' l l') : Plans m P' :=
  Quiet.mono h fun _ _ _ => hP _ _

theorem bind (h : Plans m P) (h' : Plans m' Q) :
    Plans (m >>= fun _ => m') fun l l' => ∃ l₁, P l l₁ ∧ Q l₁ l' :=
  Quiet.mono (Quiet.bind h fun _ => h') fun _ _ _ ⟨_, s₁, hp, hq⟩ => ⟨s₁.1, hp, hq⟩

theorem nothing : Plans (pure ()) fun l l' => l' = l :=
  Quiet.mono (Quiet.ofPure ()) fun _ _ _ h => h.2 ▸ rfl

theorem update (f : Layout → Layout) : Plans (Planning.update f) fun l l' => l' = f l :=
  Quiet.mono (Quiet.ofModify fun _ => rfl) fun _ _ _ h => h ▸ rfl

theorem report (d : Diagnostic) : Plans (Planning.report d) fun _ _ => False :=
  Quiet.mono (Quiet.ofReport fun s => by simp) fun _ _ _ h => h

/-- A plan that goes by the layout so far. -/
theorem get {f : Layout × Array Diagnostic → Planning Unit}
    (h : ∀ l₀ ds, Plans (f (l₀, ds)) fun l l' => l = l₀ → P l l') : Plans (MonadState.get >>= f) P := by
  refine Quiet.mono (Quiet.bind Quiet.ofGet fun s => h s.1 s.2) ?_
  rintro s _ s' ⟨_, _, ⟨rfl, rfl⟩, hp⟩
  exact hp rfl

end Plans

def Layout.add (l : Layout) (name : String) (type : RegType) (ty : Option Ty) : Layout :=
  { l with vars := l.vars ++ [(name, ⟨l.locals.toUInt16, type, ty⟩)], locals := l.locals + 1 }

theorem declare_plans (functions : List Function) (v : Var) :
    Plans (declare functions v) fun l l' => l.var? v.name = none ∧ ∃ type ty,
      regType? ty = some type ∧ (v.type ≠ none ∨ v.init.isMissing = true → ty = v.type) ∧
      l' = l.add v.name type ty := by
  unfold declare
  refine Plans.get fun l₀ _ => ?_
  dsimp only
  by_cases hv : (l₀.var? v.name).isSome = true
  · simp only [hv, if_true]
    exact (Plans.report _).mono fun _ _ hf => hf.elim
  · simp only [if_neg hv]
    generalize hty : (if (v.type.isNone && !v.init.isMissing) = true
      then typeOf functions l₀.vars none v.init else v.type) = ty
    cases ht : regType? ty with
    | none =>
      exact ((Plans.report _).bind (Plans.update _)).mono fun _ _ ⟨_, hf, _⟩ => hf.elim
    | some type =>
      rw [if_neg (by simp)]
      refine (Plans.update _).mono ?_
      rintro l _ rfl rfl
      refine ⟨by simpa using hv, type, ty, ht, ?_, rfl⟩
      rintro (h | h)
      · simp [← hty, h]
      · simp [← hty, h]

namespace Layout

/-- Variables have the registers from zero on in their order, and a type that fits in one. -/
structure Slotted (l : Layout) : Prop where
  locals : l.locals = l.vars.length
  slot : ∀ (i : Nat) (name : String) (v : Variable), l.vars[i]? = some (name, v) →
    v.reg = i.toUInt16 ∧ regType? v.ty = some v.type

theorem Slotted.add {l : Layout} (h : l.Slotted) (name : String) {type : RegType} {ty : Option Ty}
    (hty : regType? ty = some type) : (l.add name type ty).Slotted := by
  refine ⟨by simp [Layout.add, h.locals], fun i n v hv => ?_⟩
  rcases Nat.lt_trichotomy i l.vars.length with hi | rfl | hi
  · rw [Layout.add, List.getElem?_append_left hi] at hv
    exact h.slot i n v hv
  · simp only [Layout.add, List.getElem?_concat_length, Option.some.injEq, Prod.mk.injEq] at hv
    obtain ⟨rfl, rfl⟩ := hv
    exact ⟨by simp [h.locals], hty⟩
  · rw [Layout.add, List.getElem?_eq_none (by simp; omega)] at hv
    cases hv

/-- A later layout of the same function: it has the variables, the temporaries and the room for
arguments that were there before. -/
structure Extends (l l' : Layout) : Prop where
  function : l'.function = l.function
  index : l'.index = l.index
  labelBase : l'.labelBase = l.labelBase
  var : ∀ name v, l.var? name = some v → l'.var? name = some v
  locals : l.locals ≤ l'.locals
  temps : l.temps ≤ l'.temps
  staging : l.staging ≤ l'.staging

theorem Extends.refl (l : Layout) : l.Extends l :=
  ⟨rfl, rfl, rfl, fun _ _ h => h, Nat.le_refl _, Nat.le_refl _, Nat.le_refl _⟩

theorem Extends.trans {l l₁ l₂ : Layout} (h : l.Extends l₁) (h' : l₁.Extends l₂) : l.Extends l₂ :=
  ⟨h'.function.trans h.function, h'.index.trans h.index, h'.labelBase.trans h.labelBase,
    fun name v hv => h'.var name v (h.var name v hv), Nat.le_trans h.locals h'.locals,
    Nat.le_trans h.temps h'.temps, Nat.le_trans h.staging h'.staging⟩

theorem var?_add (l : Layout) (name n : String) (type : RegType) (ty : Option Ty) :
    (l.add name type ty).var? n = (l.var? n).or (if n = name then
      some ⟨l.locals.toUInt16, type, ty⟩ else none) := by
  rw [var?, Layout.add, List.lookup_append, var?]
  by_cases h : n = name
  · simp [h]
  · have hb : (n == name) = false := by simpa using h
    simp [List.lookup_cons, h, hb]

theorem extends_add (l : Layout) (name : String) (type : RegType) (ty : Option Ty) :
    l.Extends (l.add name type ty) := by
  refine ⟨rfl, rfl, rfl, fun n v hv => ?_, Nat.le_succ _, Nat.le_refl _, Nat.le_refl _⟩
  rw [var?_add, hv, Option.some_or]

def Room (l : Layout) (x : Expr) : Prop := temporaries x ≤ l.temps ∧ widestCall x ≤ l.staging

theorem Room.extend {l l' : Layout} {x : Expr} (h : l.Room x) (he : l.Extends l') : l'.Room x :=
  ⟨Nat.le_trans h.1 he.temps, Nat.le_trans h.2 he.staging⟩

theorem room_reserve (l : Layout) (x : Expr) : (l.reserve x).Room x :=
  ⟨Nat.le_max_right _ _, Nat.le_max_right _ _⟩

theorem extends_reserve (l : Layout) (x : Expr) : l.Extends (l.reserve x) :=
  ⟨rfl, rfl, rfl, fun _ _ h => h, Nat.le_refl _, Nat.le_max_left _ _, Nat.le_max_left _ _⟩

end Layout

inductive Planned (l : Layout) : Piece → Prop
  | var {v : Var} {w : Variable} : l.var? v.name = some w → (v.type ≠ none → w.ty = v.type) →
      l.Room v.init → Planned l (.one (.var v))
  | assign {pos : Pos} {name : String} {nt : Option Ty} {x : Expr} : l.Room x →
      Planned l (.one (.assign pos name nt x))
  | ret {pos : Pos} {x : Expr} : l.Room x → Planned l (.one (.ret pos x))
  | expr {pos : Pos} {x : Expr} : l.Room x → Planned l (.one (.expr pos x))
  | cond {pos : Pos} {test : Expr} {body : Block} {more : Option Block} : l.Room test →
      Planned l (.all body) → Planned l (.all (elseStmts more)) →
      Planned l (.one (.cond pos test body more))
  | other {kind : NodeKind} {pos : Pos} : Planned l (.one (.other kind pos))
  | nil : Planned l (.all [])
  | cons {x : Stmt} {rest : Block} : Planned l (.one x) → Planned l (.all rest) →
      Planned l (.all (x :: rest))

theorem Planned.extend {l l' : Layout} {p : Piece} (h : Planned l p) (he : l.Extends l') :
    Planned l' p := by
  induction h with
  | var hw hty hroom => exact .var (he.var _ _ hw) hty (hroom.extend he)
  | assign hroom => exact .assign (hroom.extend he)
  | ret hroom => exact .ret (hroom.extend he)
  | expr hroom => exact .expr (hroom.extend he)
  | cond hroom _ _ ihbody ihmore => exact .cond (hroom.extend he) ihbody ihmore
  | other => exact .other
  | nil => exact .nil
  | cons _ _ ihx ihrest => exact .cons ihx ihrest

def Plants (p : Piece) (l l' : Layout) : Prop :=
  l.Slotted → l'.Slotted ∧ l.Extends l' ∧ Planned l' p

theorem planStmt_cond (functions : List Function) (pos : Pos) (test : Expr) (body : Block)
    (more : Option Block) :
    planStmt functions (.cond pos test body more) = (do
      Planning.update fun l => { l.reserve test with labels := l.labels + branchLabels }
      planBlock functions body
      planBlock functions (elseStmts more)) := by
  cases more <;> rfl

theorem plan_plants (functions : List Function) :
    (∀ x, Plans (planStmt functions x) (Plants (.one x))) ∧
    ∀ xs, Plans (planBlock functions xs) (Plants (.all xs)) := by
  have hreserve : ∀ (x : Expr) (p : Piece), (∀ l : Layout, l.Room x → Planned l p) →
      Plans (Planning.update (·.reserve x)) (Plants p) := by
    intro x p hp
    refine (Plans.update _).mono ?_
    rintro l _ rfl hs
    exact ⟨⟨hs.locals, hs.slot⟩, l.extends_reserve x, hp _ (l.room_reserve x)⟩
  apply Stmt.forall_of
  case var =>
    intro v
    refine ((declare_plans functions v).bind (Plans.update _)).mono ?_
    rintro l _ ⟨_, ⟨hnone, type, ty, hty, hv, rfl⟩, rfl⟩ hs
    have hadd := hs.add v.name hty
    refine ⟨⟨hadd.locals, hadd.slot⟩, (l.extends_add _ _ _).trans (Layout.extends_reserve _ _), ?_⟩
    refine .var (w := ⟨l.locals.toUInt16, type, ty⟩) ?_ (fun h => hv (.inl h))
      (Layout.room_reserve _ _)
    change (l.add v.name type ty).var? v.name = _
    rw [l.var?_add, hnone]
    simp
  case assign => exact fun pos name nt x => hreserve x _ fun _ => .assign
  case ret => exact fun pos x => hreserve x _ fun _ => .ret
  case expr => exact fun pos x => hreserve x _ fun _ => .expr
  case cond =>
    intro pos test body more hbody hmore
    rw [planStmt_cond]
    refine ((Plans.update _).bind (hbody.bind hmore)).mono ?_
    rintro l l₂ ⟨_, rfl, l₁, h₁, h₂⟩ hs
    obtain ⟨hs₁, he₁, hp₁⟩ := h₁ ⟨hs.locals, hs.slot⟩
    obtain ⟨hs₂, he₂, hp₂⟩ := h₂ hs₁
    have he := l.extends_reserve test
    have he₀ : l.Extends { l.reserve test with labels := l.labels + branchLabels } :=
      ⟨rfl, rfl, rfl, he.var, he.locals, he.temps, he.staging⟩
    have hroom : Layout.Room { l.reserve test with labels := l.labels + branchLabels } test :=
      l.room_reserve test
    exact ⟨hs₂, he₀.trans (he₁.trans he₂),
      .cond (hroom.extend (he₁.trans he₂)) (hp₁.extend he₂) hp₂⟩
  case other =>
    intro kind pos
    refine Plans.nothing.mono ?_
    rintro l _ rfl hs
    exact ⟨hs, .refl _, .other⟩
  case nil =>
    refine Plans.nothing.mono ?_
    rintro l _ rfl hs
    exact ⟨hs, .refl _, .nil⟩
  case cons =>
    intro x rest hx hrest
    refine (hx.bind hrest).mono ?_
    rintro l l₂ ⟨l₁, h₁, h₂⟩ hs
    obtain ⟨hs₁, he₁, hp₁⟩ := h₁ hs
    obtain ⟨hs₂, he₂, hp₂⟩ := h₂ hs₁
    exact ⟨hs₂, he₁.trans he₂, .cons (hp₁.extend he₂) hp₂⟩

theorem declareAll_plans (functions : List Function) (params : List Var) :
    Plans (params.forM (declare functions)) fun l l' => l.Slotted → l'.Slotted ∧ l.Extends l' ∧
      l'.locals = l.locals + params.length ∧ ∀ i p, params[i]? = some p → ∃ v,
        l'.var? p.name = some v ∧ v.reg = (l.locals + i).toUInt16 ∧
        (p.init.isMissing = true → v.ty = p.type) := by
  induction params with
  | nil =>
    refine Plans.nothing.mono ?_
    rintro l _ rfl hs
    exact ⟨hs, .refl _, rfl, fun i p hp => by simp at hp⟩
  | cons p params ih =>
    refine ((declare_plans functions p).bind ih).mono ?_
    rintro l l' ⟨_, ⟨hnone, type, ty, hty, hp, rfl⟩, hrest⟩ hs
    obtain ⟨hs', he, hlocals, hparams⟩ := hrest (hs.add p.name hty)
    refine ⟨hs', (l.extends_add _ _ _).trans he, ?_, fun i q hq => ?_⟩
    · rw [hlocals]
      change l.locals + 1 + params.length = l.locals + (params.length + 1)
      omega
    · cases i with
      | zero =>
        cases hq
        refine ⟨⟨l.locals.toUInt16, type, ty⟩, he.var _ _ ?_, rfl, fun h => hp (.inr h)⟩
        rw [l.var?_add, hnone]
        simp
      | succ i =>
        obtain ⟨v, hv, hreg, hty'⟩ := hparams i q hq
        refine ⟨v, hv, ?_, hty'⟩
        rw [hreg]
        change (l.locals + 1 + i).toUInt16 = (l.locals + (i + 1)).toUInt16
        rw [Nat.add_assoc, Nat.add_comm 1 i]

structure Layout.Sound (l : Layout) : Prop extends l.Slotted where
  params : ∀ (i : Nat) (p : Var), l.function.params[i]? = some p → ∃ v, l.var? p.name = some v ∧
    v.reg = i.toUInt16 ∧ (p.init.isMissing = true → v.ty = p.type)
  body : Planned l (.all l.function.body)
  args : l.args ≤ l.locals
  regs : l.regs ≤ maxRegs

theorem planFunction_plans (functions : List Function) :
    Plans (planFunction functions) fun l l' => l.vars = [] → l.locals = 0 →
      l'.Sound ∧ l.Extends l' := by
  unfold planFunction
  refine Plans.get fun l₀ _ => ?_
  refine ((declareAll_plans functions l₀.function.params).bind
    (((plan_plants functions).2 l₀.function.body).bind (Plans.get fun l _ =>
      (?_ : Plans _ fun l₁ l₂ => l₁ = l → l₂ = l₁ ∧ l₁.regs ≤ maxRegs)))).mono ?_
  · dsimp only
    split
    next => exact (Plans.report _).mono fun _ _ hf => hf.elim
    next hregs =>
      refine Plans.nothing.mono ?_
      rintro l₁ _ rfl rfl
      exact ⟨rfl, Nat.le_of_not_lt hregs⟩
  · rintro l l₃ ⟨l₁, hparams, l₂, hbody, rfl, hregs⟩ rfl hvars hlocals
    have hs : l.Slotted := ⟨by simp [hlocals, hvars], fun i n v hv => by simp [hvars] at hv⟩
    obtain ⟨hs₁, he₁, hlocals₁, hp₁⟩ := hparams hs
    obtain ⟨hs₂, he₂, hp₂⟩ := hbody hs₁
    have he := he₁.trans he₂
    refine ⟨{ hs₂ with params := ?_, body := ?_, args := ?_, regs := hregs }, he⟩
    · rw [he.function]
      intro i p hp
      obtain ⟨v, hv, hreg, hty⟩ := hp₁ i p hp
      exact ⟨v, he₂.var _ _ hv, by rw [hreg, hlocals, Nat.zero_add], hty⟩
    · rw [he.function]
      exact hp₂
    · have h := he₂.locals
      rw [hlocals₁] at h
      rw [Layout.args, he.function]
      omega

namespace Layout.Sound
variable {l : Layout} (h : l.Sound)
include h

theorem exists_slot {name : String} {v : Variable} (hv : l.var? name = some v) :
    ∃ i, l.vars[i]? = some (name, v) ∧ i < l.locals ∧ v.reg.toNat = i := by
  obtain ⟨before, after, hvars, -⟩ := List.lookup_eq_some_iff.mp hv
  have hi : l.vars[before.length]? = some (name, v) := by simp [hvars]
  have hlt : before.length < l.locals := by
    rw [h.locals]
    exact (List.getElem?_eq_some_iff.mp hi).1
  have hregs := h.regs
  unfold Layout.regs maxRegs at hregs
  refine ⟨before.length, hi, hlt, ?_⟩
  rw [(h.slot _ _ _ hi).1, Nat.toUInt16, UInt16.toNat_ofNat', Nat.mod_eq_of_lt]
  have := Nat.le_max_right 1 (l.locals + l.temps + l.staging)
  omega

theorem reg_lt {name : String} {v : Variable} (hv : l.var? name = some v) :
    v.reg.toNat < l.locals := by
  obtain ⟨i, -, hi, hreg⟩ := h.exists_slot hv
  omega

theorem regType?_eq {name : String} {v : Variable} (hv : l.var? name = some v) :
    regType? v.ty = some v.type := by
  obtain ⟨i, hi, -⟩ := h.exists_slot hv
  exact (h.slot _ _ _ hi).2

/-- Variables of different names have different registers. -/
theorem eq_of_reg_eq {name name' : String} {v v' : Variable} (hv : l.var? name = some v)
    (hv' : l.var? name' = some v') (hreg : v.reg.toNat = v'.reg.toNat) : name = name' := by
  obtain ⟨i, hi, -, hri⟩ := h.exists_slot hv
  obtain ⟨j, hj, -, hrj⟩ := h.exists_slot hv'
  obtain rfl : i = j := by omega
  rw [hi] at hj
  cases hj
  rfl

end Layout.Sound

def Numbered (index label : Nat) (layouts : List Layout) : Prop :=
  ∀ i l, layouts[i]? = some l → l.index = index + i ∧
    l.labelBase = label + Layout.labelCount (layouts.take i) ∧ l.Sound

theorem planAll_sound (functions fs : List Function) (index label : Nat) (done : Array Layout)
    (ds : Array Diagnostic) :
    ds.size ≤ (planAll functions index label done ds fs).2.size ∧
    ((planAll functions index label done ds fs).2.size = ds.size →
      ∃ layouts, (planAll functions index label done ds fs).1 = done.toList ++ layouts ∧
        layouts.map Layout.function = fs ∧ Numbered index label layouts) := by
  induction fs generalizing index label done ds with
  | nil => exact ⟨Nat.le_refl _, fun _ => ⟨[], by simp [planAll], rfl, fun i l hl => by simp at hl⟩⟩
  | cons f fs ih =>
    have hf := planFunction_plans functions ({ function := f, index, labelBase := label }, ds)
    rw [planAll]
    generalize (planFunction functions).run
      ({ function := f, index, labelBase := label }, ds) = r at hf ⊢
    obtain ⟨_, l, ds₁⟩ := r
    obtain ⟨hle, hrest⟩ := ih (index + 1) (label + l.labels) (done.push l) ds₁
    dsimp only at hf ⊢
    refine ⟨Nat.le_trans hf.1 hle, fun hq => ?_⟩
    obtain ⟨layouts, hl, hfs, hn⟩ := hrest (by have := hf.1; omega)
    obtain ⟨hsound, he⟩ := hf.2 (by have := hf.1; omega) rfl rfl
    refine ⟨l :: layouts, by rw [hl]; simp, by rw [List.map_cons, hfs, he.function], ?_⟩
    intro i m hm
    cases i with
    | zero =>
      cases hm
      exact ⟨he.index, he.labelBase, hsound⟩
    | succ i =>
      obtain ⟨hi, hb, hs⟩ := hn i m hm
      refine ⟨by omega, ?_, hs⟩
      rw [hb, List.take_succ_cons, Layout.labelCount]
      omega

theorem distinct_quiet (seen : List String) (ds : Array Diagnostic) (fs : List Function) :
    ds.size ≤ (distinct seen ds fs).2.size ∧ ((distinct seen ds fs).2.size = ds.size →
      (distinct seen ds fs).1 = fs ∧ (fs.map Function.name).Nodup ∧
        ∀ f ∈ fs, f.name ∉ seen) := by
  induction fs generalizing seen ds with
  | nil => exact ⟨Nat.le_refl _, fun _ => ⟨rfl, List.nodup_nil, by simp⟩⟩
  | cons f fs ih =>
    rw [distinct]
    by_cases hseen : seen.contains f.name = true
    · rw [if_pos hseen]
      have h := (ih seen (ds.push
        { message := "function " ++ Text.quote f.name ++ " is already defined", pos := f.pos })).1
      rw [Array.size_push] at h
      exact ⟨by omega, fun hq => by omega⟩
    · rw [if_neg hseen]
      obtain ⟨hle, hq⟩ := ih (f.name :: seen) ds
      refine ⟨hle, fun hq' => ?_⟩
      obtain ⟨hfs, hnodup, hnot⟩ := hq hq'
      have hnew : f.name ∉ fs.map Function.name := by
        intro hmem
        obtain ⟨g, hg, hname⟩ := List.mem_map.mp hmem
        exact hnot g hg (hname ▸ List.mem_cons_self)
      refine ⟨by simp only [hfs], ?_, ?_⟩
      · rw [List.map_cons, List.nodup_cons]
        exact ⟨hnew, hnodup⟩
      · intro g hg
        rcases List.mem_cons.mp hg with rfl | hg
        · simpa using hseen
        · exact fun h => hnot g hg (List.mem_cons_of_mem _ h)

def mainFirst (fs : List Function) : List Function :=
  (fs.filter fun f => f.name = mainName) ++ fs.filter fun f => f.name ≠ mainName

theorem mainFirst_perm (fs : List Function) : (mainFirst fs).Perm fs := by
  simpa [mainFirst] using List.filter_append_perm (fun f => decide (f.name = mainName)) fs

theorem order_quiet (file : File) (ds : Array Diagnostic) :
    ds.size ≤ (order file ds).2.size ∧ ((order file ds).2.size = ds.size →
      (file.functions.map Function.name).Nodup ∧ (order file ds).1 = mainFirst file.functions ∧
      ∃ main rest, (order file ds).1 = main :: rest ∧ main.name = mainName) := by
  obtain ⟨hle, hdistinct⟩ := distinct_quiet [] ds file.functions
  unfold order
  generalize distinct [] ds file.functions = r at hle hdistinct ⊢
  obtain ⟨fs, ds₁⟩ := r
  dsimp only at hle hdistinct ⊢
  rw [List.partition_eq_filter_filter]
  dsimp only
  generalize hmain : (fs.filter fun f => decide (f.name = mainName)) = main
  cases main with
  | nil =>
    rw [List.isEmpty_nil, if_pos rfl, Array.size_push]
    exact ⟨by omega, fun hq => by omega⟩
  | cons f rest =>
    refine ⟨hle, fun hq => ?_⟩
    obtain ⟨hfs, hnodup, -⟩ := hdistinct hq
    refine ⟨hnodup, ?_, f, _, rfl, ?_⟩
    · rw [← hmain, ← hfs, mainFirst]
      congr 2
      funext g
      simp
    · have hf : f ∈ fs.filter fun f => decide (f.name = mainName) := by simp [hmain]
      simpa using (List.mem_filter.mp hf).2

structure Layouts (file : File) (layouts : List Layout) : Prop where
  names : (file.functions.map Function.name).Nodup
  order : layouts.map Layout.function = mainFirst file.functions
  main : ∃ l rest, layouts = l :: rest ∧ l.function.name = mainName
  numbered : Numbered 0 0 layouts

theorem Layouts.perm {file : File} {layouts : List Layout} (h : Layouts file layouts) :
    (layouts.map Layout.function).Perm file.functions :=
  h.order ▸ mainFirst_perm file.functions

theorem plan_layouts {file : File} {ds : Array Diagnostic}
    (h : (plan file ds).2.size = ds.size) : Layouts file (plan file ds).1 := by
  obtain ⟨hle, horder⟩ := order_quiet file ds
  obtain ⟨hle', hall⟩ := planAll_sound (order file ds).1 (order file ds).1 0 0 #[] (order file ds).2
  change (planAll (order file ds).1 0 0 #[] (order file ds).2 (order file ds).1).2.size = _ at h
  obtain ⟨hnames, horder, f, rest, hf, hmain⟩ := horder (by omega)
  obtain ⟨layouts, hl, hfs, hnumbered⟩ := hall (by omega)
  have hplan : (plan file ds).1 = layouts := hl
  rw [hplan]
  refine ⟨hnames, hfs.trans horder, ?_, hnumbered⟩
  cases layouts with
  | nil => simp [hf] at hfs
  | cons l layouts =>
    rw [hf, List.map_cons] at hfs
    obtain ⟨hl, -⟩ := List.cons.inj hfs
    exact ⟨l, layouts, rfl, hl ▸ hmain⟩

/-- The function that a call finds is the one of its name in the file. -/
theorem Layouts.function?_eq {file : File} {layouts : List Layout} (h : Layouts file layouts)
    {l : Layout} (hl : l ∈ layouts) : function? file.functions l.function.name = some l.function := by
  have hmem : l.function ∈ file.functions := h.perm.subset (List.mem_map_of_mem hl)
  have hnodup := h.names
  unfold function?
  generalize file.functions = fs at hmem hnodup
  induction fs with
  | nil => cases hmem
  | cons f fs ih =>
    rw [List.map_cons, List.nodup_cons] at hnodup
    by_cases hf : f.name = l.function.name
    · rcases List.mem_cons.mp hmem with hm | hm
      · simp [hm]
      · exact absurd (hf ▸ List.mem_map_of_mem hm) hnodup.1
    · rw [List.find?_cons_of_neg (by simpa using hf)]
      rcases List.mem_cons.mp hmem with hm | hm
      · exact absurd (by rw [hm]) hf
      · exact ih hm hnodup.2

end RegisterLang.Lowering
