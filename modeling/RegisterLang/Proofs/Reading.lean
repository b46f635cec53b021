import RegisterLang.Proofs.Grammar

/-!
# The parser reads expressions

Where the next tokens spell an expression, and those after them do not go on with it, the parser takes
exactly these tokens and gives that expression with the positions of the tokens.
-/
namespace RegisterLang.Parser
open Text Number Source

def Cursor.tokens (c : Cursor) : List Token := c.rest.map (·.token)

/-- A rule gives what `P` says and leaves the tokens `more`. -/
def Takes {α : Type} {n : Nat} (r : Result (α × Cursor.Below n)) (P : α → Prop) (more : List Token) :
    Prop :=
  ∃ a d, r = .ok (a, d) ∧ P a ∧ d.val.tokens = more

namespace Takes
variable {α β : Type} {m n : Nat} {r : Result (α × Cursor.Below n)} {P : α → Prop} {Q : β → Prop}
  {more more' : List Token}

theorem bind {f : α × Cursor.Below n → Result (β × Cursor.Below m)} (h : Takes r P more)
    (hf : ∀ a d, P a → d.val.tokens = more → Takes (f (a, d)) Q more') : Takes (r >>= f) Q more' := by
  obtain ⟨a, d, rfl, ha, hd⟩ := h
  exact hf a d ha hd

theorem inside (h : Takes r P more) (context : Context) : Takes (r.inside context) P more := by
  obtain ⟨a, d, rfl, ha, hd⟩ := h
  exact ⟨a, d, rfl, ha, hd⟩

theorem ofOk {a : α} {d : Cursor.Below n} (ha : P a) (hd : d.val.tokens = more) :
    Takes (.ok (a, d)) P more :=
  ⟨a, d, rfl, ha, hd⟩

end Takes

theorem Cursor.tokens_cons {c : Cursor} {t : Token} {ts : List Token} (h : c.tokens = t :: ts) :
    ∃ l rest, c.rest = l :: rest ∧ l.token = t ∧ ∀ stop, Cursor.tokens ⟨stop, rest⟩ = ts := by
  obtain ⟨l, rest, hrest, hl, hts⟩ := List.map_eq_cons_iff.mp h
  exact ⟨l, rest, hrest, hl, fun _ => hts⟩

theorem expect_eq {p : Punct} {c : Cursor} {more : List Token} (h : c.tokens = .punct p :: more) :
    ∃ d, expect p c = .ok d ∧ d.val.tokens = more := by
  obtain ⟨stop, rest⟩ := c
  obtain ⟨l, rest, rfl, hl, hmore⟩ := Cursor.tokens_cons h
  rw [expect]
  dsimp only
  rw [if_pos hl]
  exact ⟨_, rfl, hmore _⟩

theorem expectIdent_eq {c : Cursor} {name : String} {more : List Token}
    (h : c.tokens = .ident name :: more) :
    ∃ l d, expectIdent c = .ok (name, l, d) ∧ d.val.tokens = more := by
  obtain ⟨stop, rest⟩ := c
  obtain ⟨l, rest, rfl, hl, hrest⟩ := Cursor.tokens_cons h
  rw [expectIdent]
  dsimp only
  rw [hl]
  exact ⟨_, _, rfl, hrest _⟩

variable {lines : LineTable} {c : Cursor} {more : List Token}

/-- What follows binds no more tightly than `n` and is no parenthesis. -/
def Follows (n : Nat) (more : List Token) : Prop :=
  ∀ t ∈ more.head?, tighterOp? n t = none ∧ t ≠ .punct .lparen

theorem parseOperators_stop {prec bound : Nat} {x : Expr} {hc : c.size < bound}
    (h : ∀ t ∈ c.tokens.head?, tighterOp? prec t = none) :
    parseOperators lines prec x bound c hc = .ok (x, ⟨c, hc⟩) := by
  obtain ⟨stop, rest⟩ := c
  rw [parseOperators]
  cases rest with
  | nil => rfl
  | cons l rest =>
    dsimp only
    rw [h l.token rfl]

theorem readNumber_erase (pos pos' : Pos) (text : Bytes) :
    (readNumber pos text).map Expr.erase = (readNumber pos' text).map Expr.erase := by
  unfold readNumber
  dsimp only
  split
  · cases readUInt64 text <;> rfl
  · split
    · cases Format.single.read text.dropLast <;> rfl
    · split
      · cases Format.double.read text.dropLast <;> rfl
      · split
        · cases Format.double.read text <;> rfl
        · cases readUInt64 text <;> rfl

/-- A literal is the same wherever it stands. -/
theorem literal?_erase {pos : Pos} {t : Token} {x : Expr} (h : literal? pos t = some (.ok x))
    (pos' : Pos) : ∃ y, literal? pos' t = some (.ok y) ∧ y.erase = x.erase := by
  cases t with
  | number text =>
    have hx : readNumber pos text = .ok x := Option.some.inj h
    have hmap := readNumber_erase pos' pos text
    rw [hx] at hmap
    cases hy : readNumber pos' text with
    | error e =>
      rw [hy] at hmap
      cases hmap
    | ok y =>
      rw [hy] at hmap
      exact ⟨y, congrArg some hy, Except.ok.inj hmap⟩
  | string value =>
    cases h
    exact ⟨_, rfl, rfl⟩
  | char value =>
    cases h
    exact ⟨_, rfl, rfl⟩
  | _ => cases h

theorem parsePrimary_literal {t : Token} {pos : Pos} {x : Expr} (h : c.tokens = t :: more)
    (hx : literal? pos t = some (.ok x)) :
    Takes (parsePrimary lines c) (fun y => y.erase = x.erase) more := by
  obtain ⟨stop, rest⟩ := c
  obtain ⟨l, rest, rfl, rfl, hmore⟩ := Cursor.tokens_cons h
  obtain ⟨y, hy, herase⟩ := literal?_erase hx (lines.locate l.start)
  rw [parsePrimary]
  dsimp only
  rw [hy]
  exact .ofOk herase (hmore _)

theorem parsePrimary_name {name : String} {pos : Pos} (h : c.tokens = .ident name :: more)
    (hmore : ∀ t ∈ more.head?, t ≠ .punct .lparen) :
    Takes (parsePrimary lines c) (fun y => y.erase = Expr.erase (.ident pos none name)) more := by
  obtain ⟨stop, rest⟩ := c
  obtain ⟨l, rest, rfl, hl, hrest⟩ := Cursor.tokens_cons h
  rw [parsePrimary]
  dsimp only
  rw [hl]
  dsimp only [literal?]
  have hrest' := hrest l.stop
  cases rest with
  | nil => exact .ofOk rfl hrest'
  | cons l' rest =>
    subst hrest'
    dsimp only
    rw [if_neg (hmore _ rfl)]
    exact .ofOk rfl rfl

theorem parseUnary_primary {t : Token} (h : c.tokens = t :: more) (ht : t ≠ .punct .minus) :
    parseUnary lines c = parsePrimary lines c := by
  obtain ⟨stop, rest⟩ := c
  obtain ⟨l, rest, rfl, rfl, _⟩ := Cursor.tokens_cons h
  rw [parseUnary]
  dsimp only
  rw [if_neg ht]

def ReadsPart : Part → List Token → Prop
  | .operand x, ts => ∀ lines c more, c.tokens = ts ++ more →
      (∀ t ∈ more.head?, t ≠ .punct .lparen) →
      Takes (parseUnary lines c) (fun y => y.erase = x.erase) more
  | .level n x, ts => ∀ lines prec c more, prec < n → c.tokens = ts ++ more → Follows n more →
      ∃ y d hd, parseExpr lines prec c = parseOperators lines prec y c.size d hd ∧
        y.erase = x.erase ∧ d.tokens = more
  | .args sep xs, ts => ∀ lines done bound c hc more, c.tokens = ts ++ more →
      sep = (if done.isEmpty then [] else [.punct .comma]) →
      Takes (parseArgs lines done bound c hc) (fun all => ∃ ys, all.toList = done.toList ++ ys ∧
        ys.map Expr.erase = xs.map Expr.erase) more

theorem tighterOp?_mono {m n : Nat} (h : m ≤ n) {t : Token} (ht : tighterOp? m t = none) :
    tighterOp? n t = none := by
  cases t with
  | punct p =>
    simp only [tighterOp?, Option.filter_eq_none_iff, decide_eq_true_eq] at ht ⊢
    intro o ho hlt
    exact ht o ho (by omega)
  | _ => rfl

theorem Follows.mono {m n : Nat} (h : Follows m more) (hle : m ≤ n) : Follows n more :=
  fun t ht => ⟨tighterOp?_mono hle (h t ht).1, (h t ht).2⟩

/-- An expression ends where no operator follows. -/
theorem parseExpr_takes {x : Expr} {ts : List Token} (hx : ReadsPart (.level 1 x) ts)
    (h : c.tokens = ts ++ more) (hmore : Follows 0 more) :
    Takes (parseExpr lines 0 c) (fun y => y.erase = x.erase) more := by
  obtain ⟨y, d, hd, heq, herase, hd'⟩ := hx lines 0 c more (by decide) h (hmore.mono (by decide))
  rw [heq, parseOperators_stop fun t ht => (hmore t (by rwa [hd'] at ht)).1]
  exact .ofOk herase hd'

theorem read_call {pos : Pos} {name : String} {xs : List Expr} {ts : List Token}
    (hargs : ReadsPart (.args [] xs) ts) :
    ReadsPart (.operand (.call pos none name none xs)) (.ident name :: .punct .lparen :: ts) := by
  intro lines c more h _
  rw [parseUnary_primary h nofun]
  obtain ⟨stop, rest⟩ := c
  obtain ⟨l, rest, rfl, hl, hrest⟩ := Cursor.tokens_cons h
  obtain ⟨l', rest, rfl, hl', hrest'⟩ := Cursor.tokens_cons (hrest stop)
  rw [parsePrimary]
  dsimp only
  rw [hl]
  dsimp only [literal?]
  rw [if_pos hl']
  refine (hargs lines #[] _ ⟨l'.stop, rest⟩ _ more (hrest' _) rfl).bind ?_
  rintro all d ⟨ys, hall, herase⟩ hd
  refine .ofOk ?_ hd
  rw [Expr.erase, Expr.erase, eraseArgs_eq, eraseArgs_eq, hall, ← herase]
  rfl

theorem read_group {x : Expr} {ts : List Token} (hx : ReadsPart (.level 1 x) ts) :
    ReadsPart (.operand x) (.punct .lparen :: ts ++ [Token.punct .rparen]) := by
  intro lines c more h _
  rw [List.cons_append, List.cons_append, List.append_assoc, List.singleton_append] at h
  rw [parseUnary_primary h (by decide)]
  obtain ⟨stop, rest⟩ := c
  obtain ⟨l, rest, rfl, hl, hrest⟩ := Cursor.tokens_cons h
  rw [parsePrimary]
  dsimp only
  rw [hl]
  dsimp only [literal?]
  refine (parseExpr_takes hx (hrest _) (by rintro t ⟨⟩; exact ⟨rfl, nofun⟩)).bind ?_
  rintro y ⟨d, hd⟩ herase hd'
  obtain ⟨e, he, hmore⟩ := expect_eq hd'
  dsimp only
  rw [he]
  exact .ofOk herase hmore

theorem read_minus {pos : Pos} {x : Expr} {ts : List Token} (hx : ReadsPart (.operand x) ts) :
    ReadsPart (.operand (negate pos x)) (.punct .minus :: ts) := by
  intro lines c more h hmore
  obtain ⟨stop, rest⟩ := c
  obtain ⟨l, rest, rfl, hl, hrest⟩ := Cursor.tokens_cons h
  rw [parseUnary]
  dsimp only
  rw [if_pos hl]
  refine (hx lines ⟨l.stop, rest⟩ more (hrest _) hmore).bind ?_
  rintro y ⟨d, hd⟩ herase hd'
  refine .ofOk ?_ hd'
  rw [erase_negate, erase_negate, herase]

theorem read_operand {n : Nat} {x : Expr} {ts : List Token} (hx : ReadsPart (.operand x) ts) :
    ReadsPart (.level n x) ts := by
  intro lines prec c more _ h hmore
  obtain ⟨y, ⟨d, hd⟩, heq, herase, hd'⟩ := hx lines c more h fun t ht => (hmore t ht).2
  refine ⟨y, d, hd, ?_, herase, hd'⟩
  rw [parseExpr, heq]
  rfl

theorem read_pair {pos : Pos} {p : Punct} {op : Op} {k n : Nat} {x y : Expr} {ts us : List Token}
    (hop : binaryOp? p = some (op, k)) (hle : n ≤ k) (hx : ReadsPart (.level k x) ts)
    (hy : ReadsPart (.level (k + 1) y) us) :
    ReadsPart (.level n (.op pos none op true x y)) (ts ++ .punct p :: us) := by
  intro lines prec c more hprec h hmore
  have hopen : p ≠ .lparen := by
    rintro rfl
    cases hop
  have hfollow : Follows k (.punct p :: us ++ more) := by
    rintro t ⟨⟩
    simp [tighterOp?, hop, hopen]
  rw [List.append_assoc] at h
  obtain ⟨x', d, hd, hparse, hx', hd'⟩ := hx lines prec c _ (by omega) h hfollow
  obtain ⟨stop, rest⟩ := d
  obtain ⟨l, rest, rfl, hl, hrest⟩ := Cursor.tokens_cons hd'
  have htight : tighterOp? prec l.token = some (op, k) := by
    rw [hl, tighterOp?, hop, Option.filter_some, if_pos (decide_eq_true (by omega))]
  have hmore' := hmore.mono hle
  obtain ⟨y', e, he, hparse', hy', he'⟩ := hy lines k ⟨l.stop, rest⟩ more (by omega) (hrest _)
    (hmore'.mono (by omega))
  refine ⟨.op (lines.locate l.start) none op true x' y', e, Nat.lt_trans he (Nat.lt_of_succ_lt hd),
    ?_, ?_, he'⟩
  · rw [hparse, parseOperators]
    dsimp only
    rw [htight]
    dsimp only
    rw [hparse', parseOperators_stop fun t ht => (hmore' t (by rwa [he'] at ht)).1]
    rfl
  · rw [Expr.erase, Expr.erase, hx', hy']

theorem read_nil {sep : List Token} : ReadsPart (.args sep []) [.punct .rparen] := by
  intro lines done bound c hc more h _
  obtain ⟨stop, rest⟩ := c
  obtain ⟨l, rest, rfl, hl, hrest⟩ := Cursor.tokens_cons h
  rw [parseArgs]
  dsimp only
  rw [if_pos hl]
  exact .ofOk ⟨[], by simp⟩ (hrest _)

theorem follows_args {xs : List Expr} {ts : List Token} (h : Phrase (.args [.punct .comma] xs) ts) :
    Follows 0 (ts ++ more) := by
  cases h with
  | nil =>
    rintro t ⟨⟩
    exact ⟨rfl, nofun⟩
  | cons _ _ =>
    rintro t ⟨⟩
    exact ⟨rfl, nofun⟩

theorem read_cons {sep : List Token} {x : Expr} {xs : List Expr} {ts us : List Token}
    (hx : ReadsPart (.level 1 x) ts) (hopen : ∃ t rest, ts = t :: rest ∧ t.BeginsExpr)
    (hxs : ReadsPart (.args [.punct .comma] xs) us) (hfollow : ∀ more, Follows 0 (us ++ more)) :
    ReadsPart (.args sep (x :: xs)) (sep ++ ts ++ us) := by
  intro lines done bound c hc more h hsep
  have hnext : ∀ (done' : Array Expr) (y : Expr) (d : Cursor) (hd : d.size < bound),
      done'.toList = done.toList ++ [y] → y.erase = x.erase → d.tokens = us ++ more →
      Takes (parseArgs lines done' bound d hd) (fun all => ∃ ys, all.toList = done.toList ++ ys ∧
        ys.map Expr.erase = (x :: xs).map Expr.erase) more := by
    intro done' y d hd hdone hy hd'
    have hcomma : [.punct .comma] = if done'.isEmpty then [] else [Token.punct .comma] := by
      rw [if_neg]
      simp [← Array.toList_eq_nil_iff, hdone]
    obtain ⟨all, e, heq, ⟨ys, hall, hys⟩, he⟩ := hxs lines done' bound d hd more hd' hcomma
    refine ⟨all, e, heq, ⟨y :: ys, ?_, ?_⟩, he⟩
    · rw [hall, hdone, List.append_assoc, List.singleton_append]
    · rw [List.map_cons, List.map_cons, hy, hys]
  rw [List.append_assoc, List.append_assoc] at h
  cases hdone : done.isEmpty with
  | true =>
    rw [hdone, if_pos rfl] at hsep
    subst hsep
    obtain ⟨t, ts, rfl, ht⟩ := hopen
    have hexpr : Takes (parseExpr lines 0 c) (fun y => y.erase = x.erase) (us ++ more) :=
      parseExpr_takes hx h (hfollow _)
    obtain ⟨stop, rest⟩ := c
    obtain ⟨l, rest, rfl, rfl, _⟩ := Cursor.tokens_cons h
    have hclose : l.token ≠ .punct .rparen := by
      intro heq
      rw [heq] at ht
      exact ht
    rw [parseArgs]
    dsimp only
    rw [if_neg hclose, hdone, if_pos rfl]
    refine (hexpr.inside _).bind ?_
    rintro y ⟨d, hd⟩ hy hd'
    apply hnext _ y _ _ _ hy hd'
    simpa using hdone
  | false =>
    rw [hdone, if_neg (by decide)] at hsep
    subst hsep
    obtain ⟨stop, rest⟩ := c
    obtain ⟨l, rest, rfl, hl, hrest⟩ := Cursor.tokens_cons h
    rw [parseArgs]
    dsimp only
    rw [hl, if_neg (by decide), hdone, if_neg (by decide), if_pos rfl]
    refine ((parseExpr_takes hx (hrest _) (hfollow _)).inside _).bind ?_
    rintro y ⟨d, hd⟩ hy hd'
    apply hnext _ y _ _ _ hy hd'
    simp

/-- The parser reads what the grammar derives. -/
theorem Phrase.reads {p : Part} {ts : List Token} (h : Phrase p ts) : ReadsPart p ts := by
  induction h with
  | literal hx =>
    intro lines c more h _
    rw [parseUnary_primary h]
    · exact parsePrimary_literal h hx
    · rintro rfl
      cases hx
  | name =>
    intro lines c more h hmore
    rw [parseUnary_primary h nofun]
    exact parsePrimary_name h hmore
  | call _ ih => exact read_call ih
  | group _ ih => exact read_group ih
  | minus _ ih => exact read_minus ih
  | operand _ ih => exact read_operand ih
  | pair hop hle _ _ ihx ihy => exact read_pair hop hle ihx ihy
  | nil => exact read_nil
  | cons hx hxs ihx ihxs => exact read_cons ihx hx.opened ihxs fun _ => follows_args hxs

end RegisterLang.Parser
