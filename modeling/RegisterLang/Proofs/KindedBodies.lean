import RegisterLang.Proofs.Kinds

/-!
# Functions that keep the kinds of variables

Statements are followed along the ways of the analysis that looks for declarations: where a variable is
declared on all ways that lead to an item, its register is known to have its kind there. So the body of
a function that declares its variables before it reads them keeps their kinds, and where it returns a
value its first register has the kind of that.
-/
namespace RegisterLang.Lowering

section
variable {s : Scope} {functions : List Function}

/-- A value is put into a register; the other variables stay. -/
theorem kinded_value (hk : Knows s functions) {want : Option Ty} {dst : Reg} {x : Expr}
    {code : List Instr} {declared : List String} {g : Kinds} {rest : List Item}
    (h : Lowers s (.value want dst s.current.free x) code) (hroom : s.current.Room x)
    (hcovers : s.current.Covers g declared) (htyped : Typed (signatures functions) s.current x)
    (hreads : x.readsOnly declared = true) (hadmits : s.current.Admits dst (regType? x.type) rest)
    (hnext : Continues s g (fun r => r ≠ dst.toNat ∧ r < s.current.locals)
      (fun g' => g' dst.toNat = regType? x.type) rest) :
    Kinded s g (code.map .instr ++ rest) := by
  have hfree := hk.sound.toNat_free
  have htemps := hroom.1
  refine h.keeps hk declared g rest hcovers htyped hreads (by omega) (by omega) hroom.2 hadmits
    fun g' hg hvalue => hnext g' (fun r hr => hg r ⟨hr.1, .inl ?_⟩) hvalue
  rw [hfree]
  exact hr.2

/-- Jumps to a label, of which none may be taken. -/
theorem kinded_jumps (js : List Opcode) {g : Kinds} {l : Nat} {before after : List Item}
    (hafter : Kinded s g after) (hbefore : Kinded s g (before ++ .label l :: after)) :
    Kinded s g ((js.map (Instr.jump · l.toUInt32)).map .instr ++ (before ++ .label l :: after)) := by
  induction js with
  | nil => exact hbefore
  | cons j js ih =>
    simp only [List.map_cons, List.cons_append]
    rw [← List.append_assoc] at ih ⊢
    exact .jump hafter fun _ => ih

/-- The code of a condition leads to two labels and keeps the variables. -/
theorem LowersTest.kinded (hk : Knows s functions) {n : Nat} {test : Expr} {code : List Instr}
    {declared : List String} {g : Kinds} {before no : List Item} (h : LowersTest s n test code)
    (hpair : test.IsPair) (hroom : s.current.Room test) (hcovers : s.current.Covers g declared)
    (htyped : Typed (signatures functions) s.current test) (hreads : test.readsOnly declared = true)
    (hyes : ∀ g', s.current.Covers g' declared → Kinded s g' (before ++ .label (n + 1) :: no))
    (hno : ∀ g', s.current.Covers g' declared → Kinded s g' no) :
    Kinded s g (code.map .instr ++ .label n :: (before ++ .label (n + 1) :: no)) := by
  cases test with
  | op pos ty op binary left right =>
    obtain rfl : binary = true := hpair
    have hfree := hk.sound.toNat_free
    have hsizes := hk.sound.sizes
    have htemps : max (operandTemporaries left) (1 + operandTemporaries right) ≤ s.current.temps :=
      hroom.1
    rw [Expr.readsOnly, Bool.and_eq_true] at hreads
    cases h with
    | @intro op left right t js a b codeA codeB hcomparison _ _ hleft hright =>
      cases hcomparison
      rw [List.append_assoc, List.map_append, List.append_assoc]
      refine kinded_operands hk.sound (hleft.keeps hk) (hright.keeps hk) hcovers
        ⟨(htyped.1 rfl).1, htyped.2.1⟩ hreads (by omega) (by omega) hroom.2 fun g₁ hg₁ _ => ?_
      have hcovers₁ := hcovers.congr hk.sound fun r hr => hg₁ r (.inl (by omega))
      simp only [List.cons_append, List.map_cons, List.map_append, List.map_nil, List.append_assoc,
        List.nil_append]
      have hlast : Kinded s g₁ ([Item.instr (.jump .jmp (n + 1).toUInt32)] ++ .label n ::
          (before ++ .label (n + 1) :: no)) := by
        rw [List.singleton_append, ← List.cons_append]
        exact .jump (hno g₁ hcovers₁) fun hne => absurd rfl hne
      exact .cmp (kinded_jumps js (hyes g₁ hcovers₁) hlast)
  | _ => exact hpair.elim

def KeepsPiece (s : Scope) (p : Piece) (items : List Item) : Prop :=
  ∀ declared reach g rest, p.reach? s.current.function.gives declared = some reach →
    s.current.Covers g declared →
    (∀ declared' g', reach = some declared' → s.current.Covers g' declared' → Kinded s g' rest) →
    Kinded s g (items ++ rest)

/-- Statements that read an expression, after which the variables `after` are declared. -/
theorem keepsPiece_of_reads {p : Piece} {x : Expr} {items : List Item}
    {after : List String → List String} (hp : ∀ declared, p.reach? s.current.function.gives declared =
      if x.readsOnly declared then some (some (after declared)) else none)
    (h : ∀ declared g rest, x.readsOnly declared = true → s.current.Covers g declared →
      (∀ g', s.current.Covers g' (after declared) → Kinded s g' rest) →
      Kinded s g (items ++ rest)) : KeepsPiece s p items := by
  intro declared reach g rest hreach hcovers hnext
  rw [hp] at hreach
  split at hreach
  next hreads =>
    cases hreach
    exact h declared g rest hreads hcovers fun g' => hnext _ g' rfl
  · cases hreach

/-- A value that has the type of a variable is put into its register, which declares it. -/
theorem kinded_variable (hk : Knows s functions) {name : String} {w : Variable} {x : Expr}
    {code : List Instr} {declared : List String} {g : Kinds} {rest : List Item}
    (hw : s.current.var? name = some w) (h : Lowers s (.value w.ty w.reg s.current.free x) code)
    (hroom : s.current.Room x) (hcovers : s.current.Covers g declared)
    (htyped : Typed (signatures functions) s.current x) (htype : x.type = w.ty)
    (hreads : x.readsOnly declared = true)
    (hnext : ∀ g', s.current.Covers g' (name :: declared) → Kinded s g' rest) :
    Kinded s g (code.map .instr ++ rest) := by
  have hkind : regType? x.type = some w.type := by
    rw [htype]
    exact hk.sound.regType?_eq hw
  exact kinded_value hk h hroom hcovers htyped hreads (hkind ▸ admits_var hk.sound hw _)
    fun g' hg hvalue => hnext g' (hcovers.write hk.sound hw hg (hvalue.trans hkind))

theorem keepsPiece_declare (hs : s.current.Sound) {v : Var} {w : Variable}
    (hw : s.current.var? v.name = some w) :
    KeepsPiece s (.one (.var v)) [.instr (.set w.type w.reg 0)] := by
  refine keepsPiece_of_reads (fun _ => rfl) fun declared g rest _ hcovers hnext => ?_
  refine .write rfl (admits_var hs hw _) (hnext _ (hcovers.write hs hw (fun r hr => ?_) ?_))
  · exact Function.update_of_ne hr.1 _ _
  · exact Function.update_self _ _ _

theorem keepsPiece_init (hk : Knows s functions) {ret : Option Ty} {v : Var} {w : Variable}
    {code : List Instr} (hinit : v.init.isMissing = false) (hw : s.current.var? v.name = some w)
    (hty : v.type ≠ none → w.ty = v.type) (hroom : s.current.Room v.init)
    (h : Lowers s (.value w.ty w.reg s.current.free v.init) code)
    (htyped : WellTyped (signatures functions) s.current ret (.one (.var v))) :
    KeepsPiece s (.one (.var v)) (code.map .instr) := by
  refine keepsPiece_of_reads (fun _ => rfl) fun declared g rest hreads hcovers hnext => ?_
  cases htyped with
  | var hne htyped =>
    obtain ⟨htyped, htype⟩ := htyped hinit
    exact kinded_variable hk hw h hroom hcovers htyped (htype.trans (hty hne).symm) hreads hnext

theorem keepsPiece_assign (hk : Knows s functions) {ret : Option Ty} {pos : Pos} {name : String}
    {nt : Option Ty} {x : Expr} {w : Variable} {code : List Instr}
    (hw : s.current.var? name = some w) (hroom : s.current.Room x)
    (h : Lowers s (.value w.ty w.reg s.current.free x) code)
    (htyped : WellTyped (signatures functions) s.current ret (.one (.assign pos name nt x))) :
    KeepsPiece s (.one (.assign pos name nt x)) (code.map .instr) := by
  refine keepsPiece_of_reads (fun _ => rfl) fun declared g rest hreads hcovers hnext => ?_
  cases htyped with
  | assign hv hvty htyped htype =>
    rw [hw] at hv
    cases hv
    exact kinded_variable hk hw h hroom hcovers htyped (htype.trans hvty.symm) hreads
      fun g' hg => hnext g' (hg.mono fun _ => List.mem_cons_of_mem _)

theorem keepsPiece_retNothing {pos : Pos} {x : Expr} (hx : x.isMissing = true) :
    KeepsPiece s (.one (.ret pos x)) [.instr (.set .s32 0 0), .instr (.ret 0)] := by
  intro declared reach g rest hreach _ _
  rw [Piece.reach?, Stmt.reach?, hx] at hreach
  split at hreach
  next hgives =>
    refine .write rfl (.inr ⟨rfl, rest, rfl⟩) (.ret fun t ht => ?_)
    rw [Function.gives, ht] at hgives
    simp at hgives
  · cases hreach

theorem keepsPiece_ret (hk : Knows s functions) {pos : Pos} {x : Expr} {code : List Instr}
    (hx : x.isMissing = false) (hroom : s.current.Room x)
    (h : Lowers s (.value s.current.function.ret 0 s.current.free x) code)
    (htyped : WellTyped (signatures functions) s.current s.current.function.ret (.one (.ret pos x))) :
    KeepsPiece s (.one (.ret pos x)) (code.map .instr ++ [Item.instr (.ret 0)]) := by
  intro declared reach g rest hreach hcovers _
  rw [Piece.reach?, Stmt.reach?] at hreach
  split at hreach
  next hreads =>
    cases htyped with
    | ret htyped =>
      obtain ⟨htyped, htype⟩ := htyped hx
      rw [List.append_assoc]
      refine kinded_value hk h hroom hcovers htyped (Bool.and_eq_true_iff.mp hreads).1
        (.inr ⟨rfl, rest, rfl⟩) fun g' _ hvalue => .ret fun t ht => ?_
      rw [← ht, ← htype]
      exact hvalue
  · cases hreach

/-- The code of a call, as arguments that are put in place and the call itself. -/
theorem stagesKinds_of_lowers (hk : Knows s functions) {want : Option Ty} {dst free : Reg} {pos : Pos}
    {ty : Option Ty} {name : String} {nt : Option Ty} {args : List Expr} {code : List Instr}
    (h : Lowers s (.value want dst free (.call pos ty name nt args)) code)
    (hfree : s.current.locals ≤ free.toNat)
    (htemps : free.toNat + argTemporaries (args.any makesCall) 0 0 args ≤
      s.current.locals + s.current.temps)
    (hstaging : widestArg args.length args ≤ s.current.staging) :
    ∃ callee codeA, s.callee? name = some callee ∧ args.length = callee.args ∧
      StagesKinds s functions free (callee.function.params.map Var.type) args codeA ∧
      code = codeA ++ .call callee.index.toUInt32 :: moveTo dst (s.current.base args.length) := by
  cases h with
  | literal _ hbits => cases hbits
  | call hcallee hlen hany hargs =>
    exact ⟨_, _, hcallee, hlen, stagesKinds_direct hk.sound hany hfree htemps hstaging (hargs.keeps hk),
      rfl⟩
  | callWaiting hcallee hlen hany hargs =>
    exact ⟨_, _, hcallee, hlen, stagesKinds_waiting hk.sound hany hfree htemps hstaging (hargs.keeps hk),
      rfl⟩

theorem keepsPiece_call (hk : Knows s functions) {ret : Option Ty} {pos' pos : Pos}
    {ty : Option Ty} {name : String} {nt : Option Ty} {args : List Expr} {code : List Instr}
    (hroom : s.current.Room (.call pos ty name nt args))
    (h : Lowers s (.value none (s.current.base args.length) s.current.free
      (.call pos none name none args)) code)
    (htyped : WellTyped (signatures functions) s.current ret
      (.one (.expr pos' (.call pos ty name nt args)))) :
    KeepsPiece s (.one (.expr pos' (.call pos ty name nt args))) (code.map .instr) := by
  refine keepsPiece_of_reads (fun _ => rfl) fun declared g rest hreads hcovers hnext => ?_
  have hfree := hk.sound.toNat_free
  have htemps : argTemporaries (args.any makesCall) 0 0 args ≤ s.current.temps := hroom.1
  have hstaging : widestArg args.length args ≤ s.current.staging := hroom.2
  have hwidest := (le_widestArg args.length args).1
  obtain ⟨callee, codeA, hcallee, hlen, hstages, rfl⟩ :=
    stagesKinds_of_lowers hk h (by omega) (by omega) hstaging
  have hmove : moveTo (s.current.base args.length) (s.current.base args.length) = [] :=
    if_neg fun hne => hne rfl
  rw [hmove]
  cases htyped with
  | expr htyped =>
    obtain ⟨-, hargs⟩ := typed_call (function?_of_callee? hk.function?_eq hcallee) htyped
    refine kinded_call hk.sound hcallee hlen (by omega) (by omega) hstages hcovers hargs hreads
      fun g' hg _ => hnext _ (hcovers.congr hk.sound fun r hr => hg r ?_)
    rw [hfree]
    exact hr

theorem keepsPiece_cond (hk : Knows s functions) {n : Nat} {pos : Pos} {test : Expr}
    {body : Block} {more : Option Block} {code : List Instr} {items items' : List Item}
    (htest : LowersTest s n test code) (hpair : test.IsPair) (hroom : s.current.Room test)
    (htyped : Typed (signatures functions) s.current test) (hbody : KeepsPiece s (.all body) items)
    (hmore : KeepsPiece s (.all (elseStmts more)) items') :
    KeepsPiece s (.one (.cond pos test body more))
      (code.map .instr ++ .label n :: items ++ .instr (.jump .jmp (n + 2).toUInt32) ::
        .label (n + 1) :: items' ++ [Item.label (n + 2)]) := by
  intro declared reach g rest hreach hcovers hnext
  rw [Piece.reach?, reach?_cond] at hreach
  split at hreach
  next hreads =>
    obtain ⟨r, hr, hreach⟩ := Option.bind_eq_some_iff.mp hreach
    obtain ⟨r', hr', rfl⟩ := Option.map_eq_some_iff.mp hreach
    -- where the two ways come together less is known than on each of them
    have hend : ∀ declared' g', declared' ∈ r ∨ declared' ∈ r' → s.current.Covers g' declared' →
        Kinded s g' rest := by
      intro declared' g' hd hcovers'
      obtain ⟨d, hjoin, hsub⟩ := Reach.of_join hd
      exact hnext d g' hjoin (hcovers'.mono hsub)
    have hitems : code.map .instr ++ .label n :: items ++ .instr (.jump .jmp (n + 2).toUInt32) ::
        .label (n + 1) :: items' ++ [Item.label (n + 2)] ++ rest = code.map .instr ++ Item.label n ::
        ((items ++ [Item.instr (.jump .jmp (n + 2).toUInt32)]) ++ Item.label (n + 1) ::
          (items' ++ Item.label (n + 2) :: rest)) := by
      simp
    rw [hitems]
    refine htest.kinded hk hpair hroom hcovers htyped hreads (fun g₁ hg₁ => ?_) fun g₁ hg₁ => ?_
    · rw [List.append_assoc]
      refine hbody declared r g₁ _ hr hg₁ fun declared' g₂ hd hg₂ => ?_
      rw [List.singleton_append, ← List.cons_append]
      exact .jump (hend declared' g₂ (.inl hd) hg₂) fun hne => absurd rfl hne
    · exact hmore declared r' g₁ _ hr' hg₁ fun declared' g₂ hd hg₂ =>
        .label (hend declared' g₂ (.inr hd) hg₂)
  · cases hreach

theorem keepsPiece_nil : KeepsPiece s (.all []) [] := by
  intro declared reach g rest hreach hcovers hnext
  cases hreach
  exact hnext _ _ rfl hcovers

theorem keepsPiece_cons {x : Stmt} {rest : Block} {items items' : List Item}
    (hx : KeepsPiece s (.one x) items) (hrest : KeepsPiece s (.all rest) items') :
    KeepsPiece s (.all (x :: rest)) (items ++ items') := by
  intro declared reach g after hreach hcovers hnext
  obtain ⟨r, hr, hreach⟩ := Option.bind_eq_some_iff.mp hreach
  rw [List.append_assoc]
  refine hx declared r g _ hr hcovers fun declared' g' hd hg' => ?_
  subst hd
  exact hrest declared' reach g' after hreach hg' hnext

/-- The code of all statements keeps the kinds of variables. -/
theorem LowersStmt.keeps (hk : Knows s functions) {p : Piece} {n n' : Nat} {items : List Item}
    (h : LowersStmt s p n items n') (hplanned : Planned s.current p) (hpaired : Paired p)
    (htyped : WellTyped (signatures functions) s.current s.current.function.ret p) :
    KeepsPiece s p items := by
  induction h with
  | declare hinit =>
    cases hplanned with
    | var hw _ _ =>
      rw [hw]
      exact keepsPiece_declare hk.sound hw
  | init hinit hcode =>
    cases hplanned with
    | var hw hty hroom =>
      rw [hw] at hcode
      exact keepsPiece_init hk hinit hw hty hroom hcode htyped
  | assign hw hcode =>
    cases hplanned with
    | assign hroom => exact keepsPiece_assign hk hw hroom hcode htyped
  | retNothing hx => exact keepsPiece_retNothing hx
  | ret hx hcode =>
    cases hplanned with
    | ret hroom => exact keepsPiece_ret hk hx hroom hcode htyped
  | call hcode =>
    cases hplanned with
    | expr hroom => exact keepsPiece_call hk hroom hcode htyped
  | cond htest _ _ ihbody ihmore =>
    cases hplanned with
    | cond hroom hbody hmore =>
      cases hpaired with
      | cond hpair hbody' hmore' =>
        cases htyped with
        | cond htyped hbody₂ hmore₂ =>
          exact keepsPiece_cond hk htest hpair hroom htyped (ihbody hbody hbody' hbody₂)
            (ihmore hmore hmore' hmore₂)
  | nil => exact keepsPiece_nil
  | cons _ _ ihx ihrest =>
    cases hplanned with
    | cons hx hrest =>
      cases hpaired with
      | cons hx' hrest' =>
        cases htyped with
        | cons hx₂ hrest₂ => exact keepsPiece_cons (ihx hx hx' hx₂) (ihrest hrest hrest' hrest₂)

def Layout.paramKinds (l : Layout) : Kinds :=
  fun r => (l.function.params[r]?).bind fun p => regType? p.type

theorem Layout.Sound.toNat_param {l : Layout} (hl : l.Sound) {i : Nat} {p : Var}
    (hp : l.function.params[i]? = some p) : i.toUInt16.toNat = i := by
  have hlen : i < l.args := (List.getElem?_eq_some_iff.mp hp).1
  have hargs := hl.args
  have hsizes := hl.sizes
  unfold maxRegs at hsizes
  rw [Nat.toUInt16, UInt16.toNat_ofNat']
  omega

theorem covers_params {l : Layout} (hl : l.Sound)
    (hmissing : ∀ p ∈ l.function.params, p.init.isMissing = true) :
    l.Covers l.paramKinds (l.function.params.map Var.name) := by
  intro name hname v hv
  obtain ⟨p, hp, rfl⟩ := List.mem_map.mp hname
  obtain ⟨i, hi⟩ := List.getElem?_of_mem hp
  obtain ⟨w, hw, hreg, hty⟩ := hl.params i p hi
  rw [hv] at hw
  cases hw
  have hkind := hl.regType?_eq hv
  rw [hty (hmissing p hp)] at hkind
  rw [hreg, hl.toNat_param hi, Layout.paramKinds, hi]
  exact hkind

/-- The code of a function keeps the kinds of variables. -/
theorem LowersBody.kinded (hk : Knows s functions) {items : List Item} (h : LowersBody s items)
    (hmissing : ∀ p ∈ s.current.function.params, p.init.isMissing = true)
    (hpaired : Paired (.all s.current.function.body))
    (htyped : WellTyped (signatures functions) s.current s.current.function.ret
      (.all s.current.function.body)) (hdefinite : s.current.function.isDefinite = true) :
    Kinded s s.current.paramKinds items := by
  obtain ⟨n, n', body, hbody, rfl⟩ := h
  obtain ⟨reach, hreach, hgives⟩ := (Option.any_eq_true _ _).mp hdefinite
  refine hbody.keeps hk hk.sound.body hpaired htyped _ reach _ _ hreach
    (covers_params hk.sound hmissing) fun declared g hd _ => ?_
  -- control comes to the end of a body only where nothing is returned
  subst hd
  split
  next hlast =>
    obtain ⟨x, hx, hret⟩ := (Option.any_eq_true _ _).mp hlast
    cases x with
    | ret pos x => cases blockReach?_of_getLast? hreach hx
    | _ => cases hret
  · refine .ret fun t ht => ?_
    rw [Function.gives, ht] at hgives
    cases hgives

end

end RegisterLang.Lowering
