import RegisterLang.Proofs.Twins

/-!
# Generating without annotations

The image of a parsed file is the one of the file as checking annotates it. Planning gives both the
same layouts, or reports something in both: `InStep` is what one plan keeps, and `Matched` what holds
of the layouts in the end. From these the same code is lowered.
-/
namespace RegisterLang
open Lowering Typing

namespace Lowering

/-- Plans that go in step. From twins that know the types of `vars` both report something, or neither
does and they end in twins that know those of `vars'`. -/
def InStep (vars vars' : TypeEnv) (m m' : Planning Unit) : Prop :=
  ∀ l l' ds, Twin l l' → KnowsTypes l.vars vars →
    (ds.size < (m.run (l, ds)).2.2.size ∧ ds.size < (m'.run (l', ds)).2.2.size) ∨
    ∃ l₁ l₁', m.run (l, ds) = ((), l₁, ds) ∧ m'.run (l', ds) = ((), l₁', ds) ∧ Twin l₁ l₁' ∧
      KnowsTypes l₁.vars vars'

section
variable {vars vars₁ vars₂ : TypeEnv} {m m' n n' : Planning Unit}

theorem InStep.bind {P P' : Layout → Layout → Prop} (h : InStep vars vars₁ m m')
    (h' : InStep vars₁ vars₂ n n') (hn : Plans n P) (hn' : Plans n' P') :
    InStep vars vars₂ (m >>= fun _ => n) (m' >>= fun _ => n') := by
  intro l l' ds htwin hknown
  change (ds.size < (n.run (m.run (l, ds)).2).2.2.size ∧
    ds.size < (n'.run (m'.run (l', ds)).2).2.2.size) ∨ ∃ l₂ l₂',
      n.run (m.run (l, ds)).2 = ((), l₂, ds) ∧ n'.run (m'.run (l', ds)).2 = ((), l₂', ds) ∧
      Twin l₂ l₂' ∧ KnowsTypes l₂.vars vars₂
  rcases h l l' ds htwin hknown with ⟨hr, hr'⟩ | ⟨l₁, l₁', hr, hr', htwin₁, hknown₁⟩
  · exact .inl ⟨Nat.lt_of_lt_of_le hr (hn _).1, Nat.lt_of_lt_of_le hr' (hn' _).1⟩
  · rw [hr, hr']
    exact h' l₁ l₁' ds htwin₁ hknown₁

theorem InStep.nothing : InStep vars vars (pure ()) (pure ()) :=
  fun l l' _ htwin hknown => .inr ⟨l, l', rfl, rfl, htwin, hknown⟩

theorem InStep.update {f f' : Layout → Layout} (hf : ∀ l l', Twin l l' → Twin (f l) (f' l'))
    (hvars : ∀ l, (f l).vars = l.vars) :
    InStep vars vars (Planning.update f) (Planning.update f') := by
  intro l l' ds htwin hknown
  refine .inr ⟨f l, f' l', rfl, rfl, hf l l' htwin, ?_⟩
  rw [hvars]
  exact hknown

theorem Twin.reserve {l l' : Layout} (h : Twin l l') {x x' : Expr} (hx : SameCost x x') :
    Twin (l.reserve x) (l'.reserve x') := by
  obtain ⟨nt, body, rfl⟩ := h
  exact ⟨nt, body, by simp only [Layout.reserve, hx.temps, hx.widest]⟩

theorem reserve_inStep {x x' : Expr} (hx : SameCost x x') :
    InStep vars vars (Planning.update (·.reserve x)) (Planning.update (·.reserve x')) :=
  InStep.update (fun _ _ h => h.reserve hx) fun _ => rfl

end

def declaredType (functions : List Function) (known : Variables) (v : Var) : Option Ty :=
  if v.type.isNone && !v.init.isMissing then typeOf functions known none v.init else v.type

theorem declare_run (functions : List Function) (v : Var) (l : Layout) (ds : Array Diagnostic) :
    (declare functions v).run (l, ds) =
      if (l.var? v.name).isSome then ((), l, ds.push
        { message := "variable " ++ Text.quote v.name ++ " is already defined", pos := v.pos })
      else
        let ty := declaredType functions l.vars v
        ((), l.add v.name ((regType? ty).getD .s32) ty,
          if (regType? ty).isNone then ds.push (unfit v.pos ty) else ds) := by
  by_cases hv : (l.var? v.name).isSome = true
  · rw [if_pos hv]
    change ((if (l.var? v.name).isSome = true then _ else _ : Planning Unit)).run (l, ds) = _
    rw [if_pos hv]
    rfl
  · rw [if_neg hv]
    change ((if (l.var? v.name).isSome = true then _ else _ : Planning Unit)).run (l, ds) = _
    rw [if_neg hv]
    unfold declaredType
    generalize (if (v.type.isNone && !v.init.isMissing) = true
      then typeOf functions l.vars none v.init else v.type) = ty
    dsimp only
    cases regType? ty <;> rfl

theorem knows_add {l : Layout} {vars : TypeEnv} (h : KnowsTypes l.vars vars) {name : String}
    (hname : l.vars.lookup name = none) (type : RegType) (t : Ty) :
    KnowsTypes (l.add name type (some t)).vars ((name, some t) :: vars) := by
  have hadd : ∀ n, (l.add name type (some t)).vars.lookup n =
      (l.vars.lookup n).or (if n = name then some ⟨l.locals.toUInt16, type, some t⟩ else none) :=
    fun n => l.var?_add name n type (some t)
  intro n u hu
  by_cases hn : n = name
  · subst hn
    rw [List.lookup_cons_self] at hu
    cases hu
    rw [hadd, hname, if_pos rfl]
    rfl
  · have hb : (n == name) = false := by simpa using hn
    rw [List.lookup_cons, hb] at hu
    rw [hadd, if_neg hn, Option.or_none]
    exact h n u hu

/-- A variable and its annotated form are declared in step. -/
theorem declare_inStep {functions functions' : List Function} {vars : TypeEnv} {v v' : Var} {t : Ty}
    (hname : v'.name = v.name)
    (htype : ∀ known, KnowsTypes known vars → declaredType functions known v = some t)
    (htype' : v'.type = some t) :
    InStep vars ((v.name, some t) :: vars) (declare functions v) (declare functions' v') := by
  intro l l' ds htwin hknown
  have hdeclared : declaredType functions' l'.vars v' = some t := by
    rw [declaredType, htype']
    rfl
  obtain ⟨nt, body, hl⟩ := htwin
  have hvar : l'.var? v'.name = l.var? v.name := by
    rw [hl, hname]
    rfl
  rw [declare_run, declare_run, htype l.vars hknown, hdeclared, hvar]
  by_cases hv : (l.var? v.name).isSome = true
  · rw [if_pos hv, if_pos hv]
    exact .inl (by simp)
  · rw [if_neg hv, if_neg hv]
    dsimp only
    cases regType? (some t) with
    | none => exact .inl (by simp)
    | some type =>
      refine .inr ⟨l.add v.name type (some t), l'.add v'.name type (some t), rfl, rfl, ?_,
        knows_add hknown (Option.not_isSome_iff_eq_none.mp hv) type t⟩
      rw [hl, hname]
      exact ⟨nt, body, rfl⟩

def planPiece (functions : List Function) : Piece → Planning Unit
  | .one x => planStmt functions x
  | .all xs => planBlock functions xs

theorem planPiece_plans (functions : List Function) (p : Piece) :
    Plans (planPiece functions p) (Plants p) := by
  cases p with
  | one x => exact (plan_plants functions).1 x
  | all xs => exact (plan_plants functions).2 xs

/-- Statements and their annotated form are planned in step. -/
theorem planPiece_inStep {functions : List Function} (functions' : List Function)
    {ret : Option Ty} {vars vars' : TypeEnv} {p p' : Piece}
    (hp : ElaboratesStmt (signatures functions) ret vars p p' vars')
    (hsettled : p.settled ret p' = true) :
    InStep vars vars' (planPiece functions p) (planPiece functions' p') := by
  induction hp with
  | declared =>
    exact InStep.bind (declare_inStep rfl (fun _ _ => rfl) rfl)
      (reserve_inStep ⟨rfl, rfl, rfl, rfl, rfl⟩) (Plans.update _) (Plans.update _)
  | typed hinit =>
    exact InStep.bind (declare_inStep rfl (fun _ _ => rfl) rfl)
      (reserve_inStep hinit.cost) (Plans.update _) (Plans.update _)
  | inferred hinit =>
    rw [Piece.settled, Stmt.settled, Expr.settled, Bool.and_eq_true] at hsettled
    refine InStep.bind (declare_inStep rfl (fun known hknown => ?_) rfl)
      (reserve_inStep hinit.cost) (Plans.update _) (Plans.update _)
    rw [declaredType, hinit.types.2.2.1]
    exact hinit.typeOf_eq hknown hsettled.1
  | assign _ hx | ret hx | expr hx => exact reserve_inStep hx.cost
  | retNothing => exact reserve_inStep ⟨rfl, rfl, rfl, rfl, rfl⟩
  | cond htest _ _ ihbody ihmore =>
    obtain ⟨-, hbody, hmore⟩ := settled_cond hsettled
    rw [planPiece, planPiece, planStmt_cond, planStmt_cond]
    refine InStep.bind (InStep.update (fun l l' h => ?_) fun _ => rfl) (InStep.bind (ihbody hbody)
      (ihmore hmore) (planPiece_plans _ (.all _)) (planPiece_plans _ (.all _)))
      (Plans.bind (planPiece_plans _ (.all _)) (planPiece_plans _ (.all _)))
      (Plans.bind (planPiece_plans _ (.all _)) (planPiece_plans _ (.all _)))
    obtain ⟨nt, body, h⟩ := h.reserve htest.cost
    obtain ⟨nt', body', rfl⟩ := ‹Twin l l'›
    exact ⟨nt, body, by rw [h]⟩
  | nil => exact InStep.nothing
  | cons _ _ ihx ihrest =>
    rw [Piece.settled, blockSettled, Bool.and_eq_true] at hsettled
    exact InStep.bind (ihx hsettled.1) (ihrest hsettled.2) (planPiece_plans _ (.all _))
      (planPiece_plans _ (.all _))

structure Agrees (sig : Signatures) (f f' : Function) : Prop extends ElaboratesFunction sig f f' where
  settled : blockSettled f.ret f.body f'.body = true

theorem declareAll_inStep (functions functions' : List Function) {vars : TypeEnv} {params : List Var}
    (hparams : ∀ p ∈ params, p.init.isMissing = true ∧ ∃ t, p.type = some t) :
    InStep vars ((params.map fun p => (p.name, p.type)).reverse ++ vars)
      (params.forM (declare functions)) (params.forM (declare functions')) := by
  induction params generalizing vars with
  | nil => exact InStep.nothing
  | cons p params ih =>
    rw [List.forall_mem_cons] at hparams
    obtain ⟨⟨hinit, t, ht⟩, hparams⟩ := hparams
    have hp : InStep vars ((p.name, some t) :: vars) (declare functions p) (declare functions' p) :=
      declare_inStep rfl (fun _ _ => by rw [declaredType, ht]; rfl) ht
    have hall := InStep.bind hp (ih hparams) (declareAll_plans functions params)
      (declareAll_plans functions' params)
    rw [List.map_cons, List.reverse_cons, List.append_assoc, ht]
    exact hall

def limitRegs (f : Function) : Planning Unit := do
  let (l, _) ← get
  if maxRegs < l.regs then
    Planning.report
      { message := "function " ++ Text.quote f.name ++ " needs " ++ toString l.regs ++
          " registers, max " ++ toString maxRegs
        pos := f.pos }

theorem limitRegs_plans (f : Function) : Plans (limitRegs f) fun _ _ => True := by
  refine Plans.get fun l _ => ?_
  dsimp only
  split
  · exact (Plans.report _).mono fun _ _ _ _ => trivial
  · exact Plans.nothing.mono fun _ _ _ _ => trivial

theorem limitRegs_inStep (vars : TypeEnv) (f f' : Function) :
    InStep vars vars (limitRegs f) (limitRegs f') := by
  have hrun : ∀ (f : Function) (l : Layout) (ds : Array Diagnostic), (limitRegs f).run (l, ds) =
      ((), l, if maxRegs < l.regs then ds.push
        { message := "function " ++ Text.quote f.name ++ " needs " ++ toString l.regs ++
            " registers, max " ++ toString maxRegs
          pos := f.pos } else ds) := by
    intro f l ds
    change (if maxRegs < l.regs then _ else _ : Planning Unit).run (l, ds) = _
    split <;> rfl
  intro l l' ds htwin hknown
  have hregs : l'.regs = l.regs := by
    obtain ⟨nt, body, rfl⟩ := htwin
    rfl
  rw [hrun, hrun, hregs]
  by_cases hmax : maxRegs < l.regs
  · rw [if_pos hmax, if_pos hmax]
    exact .inl (by simp)
  · rw [if_neg hmax, if_neg hmax]
    exact .inr ⟨l, l', rfl, rfl, htwin, hknown⟩

theorem planFunction_run (functions : List Function) (l : Layout) (ds : Array Diagnostic) :
    (planFunction functions).run (l, ds) = (do
      l.function.params.forM (declare functions)
      planPiece functions (.all l.function.body)
      limitRegs l.function : Planning Unit).run (l, ds) := rfl

structure Matched (sig : Signatures) (l l' : Layout) : Prop where
  twin : Twin l l'
  agrees : Agrees sig l.function l'.function
  sound : l.Sound
  annotated : l'.Sound

/-- A function and its annotated form are planned in step. -/
theorem planFunction_matched {functions : List Function} (functions' : List Function)
    {f f' : Function} (h : Agrees (signatures functions) f f') (index label : Nat) (ds : Array Diagnostic) :
    (ds.size < ((planFunction functions).run
        ({ function := f, index, labelBase := label }, ds)).2.2.size ∧
      ds.size < ((planFunction functions').run
        ({ function := f', index, labelBase := label }, ds)).2.2.size) ∨
    ∃ l l', (planFunction functions).run ({ function := f, index, labelBase := label }, ds) =
        ((), l, ds) ∧
      (planFunction functions').run ({ function := f', index, labelBase := label }, ds) =
        ((), l', ds) ∧ Matched (signatures functions) l l' := by
  obtain ⟨vars, hbody⟩ := h.body
  have hplans := planFunction_plans functions ({ function := f, index, labelBase := label }, ds)
  have hplans' := planFunction_plans functions' ({ function := f', index, labelBase := label }, ds)
  have hrest : ∀ (fs : List Function) (g : Function), Plans (do
      planPiece fs (.all g.body)
      limitRegs g) fun _ _ => True := fun fs g =>
    ((planPiece_plans fs (.all g.body)).bind (limitRegs_plans g)).mono fun _ _ _ => trivial
  have hparams : InStep [] _ _ _ := declareAll_inStep functions functions' h.params
  rw [List.append_nil] at hparams
  have hstep := InStep.bind hparams (InStep.bind (planPiece_inStep functions' hbody h.settled)
    (limitRegs_inStep _ f f') (limitRegs_plans f) (limitRegs_plans f')) (hrest functions f)
    (hrest functions' f')
  obtain ⟨nt, body, hf'⟩ := h.same
  have hsame : f'.params = f.params := by rw [hf']
  rcases hstep { function := f, index, labelBase := label }
    { function := f', index, labelBase := label } ds ⟨nt, body, by rw [hf']⟩ nofun with
    hreport | ⟨l, l', hr, hr', htwin, -⟩
  · left
    rw [planFunction_run, planFunction_run, hsame]
    exact hreport
  · right
    rw [← hsame] at hr'
    have hrun := (planFunction_run functions { function := f, index, labelBase := label } ds).trans hr
    have hrun' :=
      (planFunction_run functions' { function := f', index, labelBase := label } ds).trans hr'
    rw [hrun] at hplans
    rw [hrun'] at hplans'
    obtain ⟨hsound, he⟩ := hplans.2 rfl rfl rfl
    obtain ⟨hsound', he'⟩ := hplans'.2 rfl rfl rfl
    exact ⟨l, l', hrun, hrun', htwin, by rw [he.function, he'.function]; exact h, hsound, hsound'⟩

theorem planAll_matched {functions functions' fs fs' : List Function}
    (h : List.Forall₂ (Agrees (signatures functions)) fs fs') (index label : Nat)
    {done done' : Array Layout} (ds : Array Diagnostic)
    (hdone : List.Forall₂ (Matched (signatures functions)) done.toList done'.toList) :
    (ds.size < (planAll functions index label done ds fs).2.size ∧
      ds.size < (planAll functions' index label done' ds fs').2.size) ∨
    ((planAll functions index label done ds fs).2 = ds ∧
      (planAll functions' index label done' ds fs').2 = ds ∧
      List.Forall₂ (Matched (signatures functions)) (planAll functions index label done ds fs).1
        (planAll functions' index label done' ds fs').1) := by
  induction h generalizing index label done done' with
  | nil => exact .inr ⟨rfl, rfl, hdone⟩
  | @cons f f' fs fs' hf _ ih =>
    rw [planAll, planAll]
    rcases planFunction_matched functions' hf index label ds with
      ⟨hr, hr'⟩ | ⟨l, l', hr, hr', hl⟩
    · exact .inl ⟨Nat.lt_of_lt_of_le hr (planAll_sound _ _ _ _ _ _).1,
        Nat.lt_of_lt_of_le hr' (planAll_sound _ _ _ _ _ _).1⟩
    · rw [hr, hr']
      have hlabels : l'.labels = l.labels := by
        obtain ⟨nt, body, rfl⟩ := hl.twin
        rfl
      dsimp only
      rw [hlabels]
      refine ih (index + 1) (label + l.labels) ?_
      rw [Array.toList_push, Array.toList_push]
      exact List.rel_append hdone (.cons hl .nil)

theorem distinct_agrees {sig : Signatures} {fs fs' : List Function}
    (h : List.Forall₂ (Agrees sig) fs fs') (seen : List String) (ds : Array Diagnostic) :
    (distinct seen ds fs').2 = (distinct seen ds fs).2 ∧
      List.Forall₂ (Agrees sig) (distinct seen ds fs).1 (distinct seen ds fs').1 := by
  induction h generalizing seen ds with
  | nil => exact ⟨rfl, .nil⟩
  | @cons f f' fs fs' hf _ ih =>
    obtain ⟨nt, body, hf'⟩ := hf.same
    have hname : f'.name = f.name := by rw [hf']
    have hpos : f'.pos = f.pos := by rw [hf']
    rw [distinct, distinct, hname, hpos]
    by_cases hseen : seen.contains f.name = true
    · rw [if_pos hseen, if_pos hseen]
      exact ih _ _
    · rw [if_neg hseen, if_neg hseen]
      obtain ⟨hds, hall⟩ := ih (f.name :: seen) ds
      exact ⟨hds, .cons hf hall⟩

theorem order_agrees {sig : Signatures} {file file' : File}
    (h : List.Forall₂ (Agrees sig) file.functions file'.functions) (ds : Array Diagnostic) :
    (order file' ds).2 = (order file ds).2 ∧
      List.Forall₂ (Agrees sig) (order file ds).1 (order file' ds).1 := by
  obtain ⟨hds, hall⟩ := distinct_agrees h [] ds
  have hname : ∀ f f', Agrees sig f f' → f'.name = f.name := by
    intro f f' hf
    obtain ⟨nt, body, hf'⟩ := hf.same
    rw [hf']
  have hfilter : ∀ p : String → Bool, List.Forall₂ (Agrees sig)
      ((distinct [] ds file.functions).1.filter fun f => p f.name)
      ((distinct [] ds file'.functions).1.filter fun f => p f.name) := by
    intro p
    refine List.rel_filter (fun f f' hf => ?_) hall
    dsimp only
    rw [hname f f' hf]
  have hmain := hfilter fun n => decide (n = mainName)
  have hothers := hfilter fun n => !decide (n = mainName)
  unfold order
  simp only [List.partition_eq_filter_filter]
  have hempty : ∀ {ms ms'}, List.Forall₂ (Agrees sig) ms ms' → ms'.isEmpty = ms.isEmpty := by
    intro ms ms' hms
    cases hms <;> rfl
  refine ⟨?_, List.rel_append hmain hothers⟩
  rw [hempty hmain, hds]

/-- With distinct names the signatures do not depend on the order of the functions. -/
theorem signatures_perm {fs gs : List Function} (h : fs.Perm gs)
    (hnames : (gs.map Function.name).Nodup) : signatures fs = signatures gs := by
  have hnames' : (fs.map Function.name).Nodup := (h.map Function.name).nodup_iff.mpr hnames
  have hsome : ∀ {fs : List Function}, (fs.map Function.name).Nodup → ∀ name f,
      function? fs name = some f ↔ f ∈ fs ∧ f.name = name := by
    intro fs hfs name f
    refine ⟨fun hf => ⟨List.mem_of_find?_eq_some hf, by simpa using List.find?_some hf⟩, ?_⟩
    rintro ⟨hmem, rfl⟩
    induction fs with
    | nil => cases hmem
    | cons g fs ih =>
      rw [List.map_cons, List.nodup_cons] at hfs
      by_cases hg : g.name = f.name
      · rcases List.mem_cons.mp hmem with rfl | hmem
        · simp [function?]
        · exact absurd (hg ▸ List.mem_map_of_mem hmem) hfs.1
      · rw [function?, List.find?_cons_of_neg (by simpa using hg)]
        rcases List.mem_cons.mp hmem with rfl | hmem
        · exact absurd rfl hg
        · exact ih hfs.2 hmem
  funext name
  rw [signatures, signatures]
  congr 1
  ext f
  rw [hsome hnames', hsome hnames, h.mem_iff]

theorem plan_eq (file : File) (ds : Array Diagnostic) : plan file ds =
    planAll (order file ds).1 0 0 #[] (order file ds).2 (order file ds).1 := rfl

/-- A file and its annotated form have matching layouts, or planning reports something in both. -/
theorem plan_matched {file file' : File}
    (h : List.Forall₂ (Agrees (signatures file.functions)) file.functions file'.functions)
    (ds : Array Diagnostic) :
    (ds.size < (plan file ds).2.size ∧ ds.size < (plan file' ds).2.size) ∨
    ((plan file ds).2.size = ds.size ∧ (plan file' ds).2 = (plan file ds).2 ∧
      List.Forall₂ (Matched (signatures ((plan file ds).1.map Layout.function)))
        (plan file ds).1 (plan file' ds).1) := by
  obtain ⟨hds, hall⟩ := order_agrees h ds
  obtain ⟨hle, horder⟩ := order_quiet file ds
  obtain ⟨hle₁, hquiet⟩ :=
    planAll_sound (order file ds).1 (order file ds).1 0 0 #[] (order file ds).2
  rw [plan_eq, plan_eq, hds]
  rcases Nat.lt_or_eq_of_le hle with hlt | heq
  · exact .inl ⟨Nat.lt_of_lt_of_le hlt hle₁,
      Nat.lt_of_lt_of_le hlt (planAll_sound _ _ _ _ _ _).1⟩
  · obtain ⟨hnames, hfirst, -⟩ := horder heq.symm
    have hperm : (order file ds).1.Perm file.functions := hfirst ▸ mainFirst_perm file.functions
    rw [← signatures_perm hperm hnames] at hall
    rcases planAll_matched hall 0 0 (order file ds).2 (.nil : List.Forall₂ _ #[].toList #[].toList)
      with ⟨hr, hr'⟩ | ⟨hr, hr', hlayouts⟩
    · rw [← heq] at hr hr'
      exact .inl ⟨hr, hr'⟩
    · obtain ⟨layouts, hl, hfs, -⟩ := hquiet (by rw [hr])
      have hfunctions : (planAll (order file ds).1 0 0 #[] (order file ds).2
          (order file ds).1).1.map Layout.function = (order file ds).1 := by
        rw [hl, ← hfs]
        rfl
      rw [hfunctions]
      exact .inr ⟨by rw [hr, heq], by rw [hr, hr'], hlayouts⟩

theorem Twin.labelCount_eq {layouts layouts' : List Layout}
    (h : List.Forall₂ Twin layouts layouts') :
    Layout.labelCount layouts' = Layout.labelCount layouts := by
  induction h with
  | nil => rfl
  | cons hl _ ih =>
    obtain ⟨nt, body, rfl⟩ := hl
    rw [Layout.labelCount, Layout.labelCount, ih]

def ReturnsAlike : Piece → Piece → Prop
  | .one x, .one x' => isReturn x' = isReturn x
  | .all xs, .all xs' => xs'.map isReturn = xs.map isReturn
  | _, _ => True

theorem returnsAlike {sig : Signatures} {ret : Option Ty} {vars vars' : TypeEnv} {p p' : Piece}
    (h : ElaboratesStmt sig ret vars p p' vars') : ReturnsAlike p p' := by
  induction h with
  | cons _ _ hx hrest =>
    rw [ReturnsAlike] at hx
    rw [ReturnsAlike] at hrest
    rw [ReturnsAlike, List.map_cons, List.map_cons, hx, hrest]
  | _ => rfl

theorem ends_with_return (xs : Block) :
    xs.getLast?.any isReturn = ((xs.map isReturn).getLast?.getD false) := by
  rw [List.getLast?_map]
  cases xs.getLast? <;> rfl

theorem Matched.knows {sig : Signatures} {l l' : Layout} (h : Matched sig l l') :
    KnowsTypes l.vars (l.function.params.map fun p => (p.name, p.type)).reverse := by
  intro name t hlookup
  obtain ⟨before, after, hsplit, -⟩ := List.lookup_eq_some_iff.mp hlookup
  have hmem : (name, t) ∈ (l.function.params.map fun p => (p.name, p.type)).reverse := by
    rw [hsplit]
    simp
  obtain ⟨p, hp, heq⟩ := List.mem_map.mp (List.mem_reverse.mp hmem)
  obtain ⟨i, hi, rfl⟩ := List.getElem_of_mem hp
  obtain ⟨v, hv, -, hty⟩ := h.sound.params i _ (List.getElem?_eq_getElem hi)
  cases heq
  change (l.var? _).bind Variable.ty = _
  rw [hv]
  exact hty (h.agrees.params _ hp).1

/-- A function and its annotated form have the same code. -/
theorem lowerFunction_eq {layouts layouts' : List Layout}
    (hlayouts : List.Forall₂ Twin layouts layouts') {l l' : Layout}
    (h : Matched (signatures (layouts.map Layout.function)) l l') :
    lowerFunction ⟨layouts, l⟩ = lowerFunction ⟨layouts', l'⟩ := by
  obtain ⟨vars, hbody⟩ := h.agrees.body
  have htwins : Twins ⟨layouts, l⟩ ⟨layouts', l'⟩ := ⟨hlayouts, h.twin⟩
  obtain ⟨-, hcode⟩ := lowerPiece_eq htwins rfl hbody h.annotated.body h.knows h.agrees.settled
  rw [lowerPiece, lowerPiece] at hcode
  have hend : l'.function.body.getLast?.any isReturn = l.function.body.getLast?.any isReturn := by
    rw [ends_with_return, ends_with_return, returnsAlike hbody]
  have hsizes : l'.regs = l.regs ∧ l'.args = l.args := by
    obtain ⟨nt, body, heq⟩ := h.twin
    rw [heq]
    exact ⟨rfl, rfl⟩
  unfold lowerFunction
  dsimp only
  rw [hcode, hend, hsizes.1, hsizes.2]

end Lowering

namespace Generated

theorem writeFunction_eq {layouts layouts' : List Layout}
    (hlayouts : List.Forall₂ Twin layouts layouts') {l l' : Layout}
    (h : Matched (signatures (layouts.map Layout.function)) l l') (b : Builder)
    (ds : Array Diagnostic) :
    writeFunction layouts l b ds = writeFunction layouts' l' b ds := by
  unfold writeFunction
  rw [lowerFunction_eq hlayouts h]
  obtain ⟨nt, body, heq⟩ := h.twin
  rw [heq]

theorem writeAll_eq {layouts layouts' : List Layout}
    (hlayouts : List.Forall₂ Twin layouts layouts') {rest rest' : List Layout}
    (hrest : List.Forall₂ (Matched (signatures (layouts.map Layout.function))) rest rest')
    (b : Builder) {g g' : Generated} (hg : g'.diagnostics = g.diagnostics) :
    (writeAll layouts' b g' rest').result = (writeAll layouts b g rest).result ∧
      (writeAll layouts' b g' rest').diagnostics = (writeAll layouts b g rest).diagnostics := by
  induction hrest generalizing b g g' with
  | nil => exact ⟨rfl, hg⟩
  | cons hl _ ih =>
    rw [writeAll, writeAll, hg, ← writeFunction_eq hlayouts hl]
    dsimp only
    split
    · exact ⟨rfl, rfl⟩
    · exact ih _ rfl

theorem settle_eq {g g' : Generated}
    (h : g'.result = g.result ∧ g'.diagnostics = g.diagnostics) (before : Nat) :
    (g'.settle before).result = (g.settle before).result := by
  unfold settle
  rw [h.1, h.2]
  split
  next hg => rw [h.1, hg]
  · split <;> simp [h.1]

end Generated

/-- Wherever lowering infers a type in a file, it is the one that checking gives. -/
def File.settled (file annotated : File) : Bool :=
  (file.functions.zip annotated.functions).all fun (f, f') => blockSettled f.ret f.body f'.body

theorem agrees_of_settled {sig : Signatures} {fs fs' : List Function}
    (h : List.Forall₂ (ElaboratesFunction sig) fs fs')
    (hsettled : ((fs.zip fs').all fun (f, f') => blockSettled f.ret f.body f'.body) = true) :
    List.Forall₂ (Agrees sig) fs fs' := by
  induction h with
  | nil => exact .nil
  | cons hf _ ih =>
    rw [List.zip_cons_cons, List.all_cons, Bool.and_eq_true] at hsettled
    exact .cons { hf with settled := hsettled.1 } (ih hsettled.2)

theorem generate_eq {file file' : File}
    (h : List.Forall₂ (Agrees (signatures file.functions)) file.functions file'.functions)
    (ds : Array Diagnostic) (buffer : Int) :
    (∃ e e', (generate file ds buffer).result = .error e ∧
      (generate file' ds buffer).result = .error e') ∨
    (generate file' ds buffer).result = (generate file ds buffer).result := by
  unfold generate
  dsimp only
  rcases plan_matched h ds with ⟨hr, hr'⟩ | ⟨hr, hr', hlayouts⟩
  · rw [if_pos (by omega), if_pos (by omega)]
    exact .inl ⟨_, _, rfl, rfl⟩
  · have htwins : List.Forall₂ Twin (plan file ds).1 (plan file' ds).1 :=
      hlayouts.imp fun _ _ hl => hl.twin
    have hlength : (plan file' ds).1.length = (plan file ds).1.length := hlayouts.length_eq.symm
    have hlabels : Layout.labelCount (plan file' ds).1 = Layout.labelCount (plan file ds).1 :=
      Twin.labelCount_eq htwins
    rw [hr', if_neg (by omega), if_neg (by omega), hlength, hlabels]
    refine .inr (Generated.settle_eq (Generated.writeAll_eq htwins hlayouts _ ?_) ds.size)
    rfl

/-- A text that is parsed and checked without a report gives the same image without annotations and
with them, or none in both cases, if every number that decides a type by itself has the type that is
inferred for it. -/
theorem generate_plain_eq_annotated {name : String} {text : Text.Bytes} {file : File}
    (hfile : parseChecked name text = .ok file)
    (hsettled : File.settled (Parser.parse name text).file file = true) (buffer : Int) :
    (∃ e e', (generate (Parser.parse name text).file #[] buffer).result = .error e ∧
      (generate file #[] buffer).result = .error e') ∨
    ∃ b, (generate (Parser.parse name text).file #[] buffer).result = .ok b ∧
      (generate file #[] buffer).result = .ok b := by
  unfold parseChecked at hfile
  dsimp only at hfile
  split at hfile
  · cases hfile
  next hparse =>
    split at hfile
    · cases hfile
    next hcheck =>
      cases hfile
      have hplain : Parser.PlainFile (Parser.parse name text) :=
        Parser.parse_plain (by simpa using hparse)
      have hquiet : (check (Parser.parse name text).file #[]).2.size = (#[] : Array Diagnostic).size := by
        simpa using hcheck
      have helaborates := check_elaborates hplain.functions hquiet
      rcases generate_eq (agrees_of_settled helaborates hsettled) #[] buffer with herror | heq
      · exact .inl herror
      · rw [heq]
        cases (generate (Parser.parse name text).file #[] buffer).result with
        | error e => exact .inl ⟨e, e, rfl, rfl⟩
        | ok b => exact .inr ⟨b, rfl, rfl⟩

def imageSizes? (text : Text.Bytes) : Option (Bool × Nat × Nat) := do
  let file ← (parseChecked "p" text).toOption
  let plain ← (generate (Parser.parse "p" text).file #[] 64).result.toOption
  let annotated ← (generate file #[] 64).result.toOption
  return (File.settled (Parser.parse "p" text).file file, plain.size, annotated.size)

theorem exists_of_imageSizes? {text : Text.Bytes} {settled : Bool} {m n : Nat}
    (h : imageSizes? text = some (settled, m, n)) : ∃ file b b', parseChecked "p" text = .ok file ∧
      File.settled (Parser.parse "p" text).file file = settled ∧
      (generate (Parser.parse "p" text).file #[] 64).result = .ok b ∧ b.size = m ∧
      (generate file #[] 64).result = .ok b' ∧ b'.size = n := by
  have hok : ∀ {ε α : Type} {r : Except ε α} {a : α}, r.toOption = some a → r = .ok a := by
    intro ε α r a hr
    cases r with
    | error e => cases hr
    | ok b => exact congrArg Except.ok (Option.some.inj hr)
  simp only [imageSizes?, Option.bind_eq_bind, Option.bind_eq_some_iff, Option.pure_def,
    Option.some.injEq, Prod.mk.injEq] at h
  obtain ⟨file, hfile, b, hb, b', hb', hsettled, hm, hn⟩ := h
  exact ⟨file, b, b', hok hfile, hsettled, hok hb, hm, hok hb', hn⟩

/-- A variable decides the type of the smallest number, which is compared with it and assigned. -/
def smallest : Text.Bytes :=
  "main::()->s32{a:=-7;if a>-2147483648{a=-2147483648;}return a;}".toList.map
    fun c => c.toNat.toUInt8

theorem generate_plain_eq_annotated_smallest : ∃ file b, parseChecked "p" smallest = .ok file ∧
    File.settled (Parser.parse "p" smallest).file file = true ∧
    (generate (Parser.parse "p" smallest).file #[] 64).result = .ok b ∧
    (generate file #[] 64).result = .ok b := by
  have h : imageSizes? smallest = some (true, 106, 106) := by
    decide +kernel
  obtain ⟨file, b, -, hfile, hsettled, hb, -⟩ := exists_of_imageSizes? h
  rcases generate_plain_eq_annotated hfile hsettled 64 with ⟨e, -, he, -⟩ | ⟨b', hb', hannotated⟩
  · rw [hb] at he
    cases he
  · exact ⟨file, b', hfile, hsettled, hb', hannotated⟩

def undecided : Text.Bytes :=
  "main::()->s32{a:=-2147483648;return 0;}".toList.map fun c => c.toNat.toUInt8

/-- Checking gives the smallest number 32 bits and inference gives it 64. -/
theorem generate_plain_ne_annotated : ∃ file b b', parseChecked "p" undecided = .ok file ∧
    (generate (Parser.parse "p" undecided).file #[] 64).result = .ok b ∧
    (generate file #[] 64).result = .ok b' ∧ b.image ≠ b'.image := by
  have h : imageSizes? undecided = some (false, 52, 48) := by
    decide +kernel
  obtain ⟨file, b, b', hfile, -, hb, hm, hb', hn⟩ := exists_of_imageSizes? h
  refine ⟨file, b, b', hfile, hb, hb', fun heq => ?_⟩
  rw [Builder.size, heq, ← Builder.size, hn] at hm
  cases hm

end RegisterLang
