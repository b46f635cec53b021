import RegisterLang.Proofs.Rules
import RegisterLang.Proofs.Widening

/-!
# Trees that source text can spell

A tree that comes from a text without a report has no annotations. Its names are words and no
keywords, its types are those of the registry by their names, its numbers are finite, a minus stands in
front of what is no number, a variable without a type has an initial value, and every record was made
when those before it were defined.
-/
namespace RegisterLang
open Text Number Source

def IsName (name : String) : Prop :=
  ∃ b more, (Lexeme.isLetter b = true ∨ b = 95) ∧ (∀ c ∈ more, Lexeme.isIdentByte c = true) ∧
    name = Bytes.toText (b :: more) ∧ Lexeme.word name = .ident name

def Token.Named : Token → Prop
  | ident name => IsName name
  | _ => True

namespace Lexeme

theorem word_cases (name : String) : (∃ k, word name = .keyword k) ∨ word name = .ident name := by
  unfold word
  split
  · exact .inl ⟨_, rfl⟩
  · exact .inr rfl

theorem named_word {b : UInt8} {rest : Bytes} (hb : isLetter b = true ∨ b = 95) :
    (word (Bytes.toText (b :: rest.takeWhile isIdentByte))).Named := by
  rcases word_cases (Bytes.toText (b :: rest.takeWhile isIdentByte)) with ⟨k, hk⟩ | hname
  · rw [hk]
    trivial
  · rw [hname]
    refine ⟨b, rest.takeWhile isIdentByte, hb, fun c hc => ?_, rfl, hname⟩
    exact List.all_eq_true.mp List.all_takeWhile c hc

/-- What is read from a first byte; only a single quote starts a character. -/
theorem read_cases (b : UInt8) (rest : Bytes) :
    (∃ p, (read b rest).1 = .punct p) ∨ (∃ value, (read b rest).1 = .string value) ∨
      (b = 39 ∧ ∃ c, (read b rest).1 = .char c) ∨
      ((isLetter b = true ∨ b = 95) ∧
        (read b rest).1 = word (Bytes.toText (b :: rest.takeWhile isIdentByte))) ∨
      (∃ digits, (read b rest).1 = .number digits) ∨ ∃ slice, (read b rest).1 = .stray slice := by
  unfold read
  split
  · exact .inl ⟨_, rfl⟩
  · split
    · exact .inl ⟨_, rfl⟩
    · split
      next hquote =>
        dsimp only
        split
        · unfold stringToken
          split
          · exact .inr (.inl ⟨_, rfl⟩)
          · exact .inr (.inr (.inr (.inr (.inr ⟨_, rfl⟩))))
        next hdouble =>
          unfold charToken
          split
          · exact .inr (.inr (.inr (.inr (.inr ⟨_, rfl⟩))))
          · split
            · exact .inr (.inr (.inl ⟨hquote.resolve_left hdouble, _, rfl⟩))
            · exact .inr (.inr (.inr (.inr (.inr ⟨_, rfl⟩))))
      · split
        next hb => exact .inr (.inr (.inr (.inl ⟨hb, rfl⟩)))
        · split
          · exact .inr (.inr (.inr (.inr (.inl ⟨_, rfl⟩))))
          · exact .inr (.inr (.inr (.inr (.inr ⟨_, rfl⟩))))

theorem named_read (b : UInt8) (rest : Bytes) : (read b rest).1.Named := by
  rcases read_cases b rest with ⟨_, h⟩ | ⟨_, h⟩ | ⟨_, _, h⟩ | ⟨hb, h⟩ | ⟨_, h⟩ | ⟨_, h⟩ <;> rw [h]
  case inr.inr.inr.inl => exact named_word hb
  all_goals trivial

theorem named_next (offset : Nat) (text : Bytes) : (next offset text).1.token.Named := by
  unfold next
  split
  · trivial
  · exact named_read _ _

theorem scanFrom_eq (acc : Array Lexeme) (offset : Nat) (text : Bytes) :
    scanFrom acc offset text =
      if (next offset text).1.token = .eof then acc.push (next offset text).1
      else scanFrom (acc.push (next offset text).1) (next offset text).1.stop (next offset text).2 := by
  rw [scanFrom]
  rfl

theorem named_scanFrom (acc : Array Lexeme) (offset : Nat) (text : Bytes)
    (hacc : ∀ l ∈ acc, l.token.Named) : ∀ l ∈ scanFrom acc offset text, l.token.Named := by
  induction hn : text.length using Nat.strongRecOn generalizing acc offset text with
  | ind n ih =>
    have hpush : ∀ l ∈ acc.push (next offset text).1, l.token.Named := by
      intro l hl
      rcases Array.mem_push.mp hl with hl | rfl
      · exact hacc l hl
      · exact named_next offset text
    rw [scanFrom_eq]
    split
    · exact hpush
    next he =>
      have hlength := next_length offset text he
      exact ih _ (by omega) _ _ _ hpush rfl

theorem named_scan (text : Bytes) : ∀ l ∈ scan text, l.token.Named :=
  fun l hl => named_scanFrom #[] 0 text (by simp) l (by simpa [scan] using hl)

end Lexeme

namespace Number.Format
variable {f : Format}

theorem ofRatio?_lt {num den bits : Nat} (h : f.ofRatio? false num den = some bits) :
    bits = 0 ∨ bits < f.top * 2 ^ f.fraction := by
  unfold ofRatio? at h
  simp only [Bool.false_eq_true, if_false, Nat.zero_add] at h
  split at h
  · exact .inl (Option.some.inj h).symm
  · obtain ⟨hpattern, hbits⟩ := Option.ite_none_left_eq_some.mp h
    exact .inr (Option.some.inj hbits ▸ Nat.lt_of_not_le hpattern)

theorem read_lt {s : Bytes} {bits : Nat} (h : f.read s = .ok bits) :
    bits = 0 ∨ bits < f.top * 2 ^ f.fraction := by
  unfold read at h
  dsimp only at h
  split at h
  · cases h
  · split at h
    · split at h
      · cases h
      · split at h
        · exact .inl (Except.ok.inj h).symm
        · split at h
          · cases h
          · split at h
            · exact .inl (Except.ok.inj h).symm
            · split at h
              next hpattern =>
                cases h
                split at hpattern <;> exact ofRatio?_lt hpattern
              · cases h
    · cases h

theorem finite_single {s : Bytes} {bits : Nat} (h : single.read s = .ok bits) :
    single.IsFinite bits.toUInt32.toNat := by
  have hlt : bits < 255 * 2 ^ 23 := by
    rcases read_lt h with rfl | hlt
    · decide
    · exact hlt
  change bits % 2 ^ 32 % 2 ^ 31 < 255 * 2 ^ 23
  omega

theorem finite_double {s : Bytes} {bits : Nat} (h : double.read s = .ok bits) :
    double.IsFinite bits.toUInt64.toNat := by
  have hlt : bits < 2047 * 2 ^ 52 := by
    rcases read_lt h with rfl | hlt
    · decide
    · exact hlt
  change bits % 2 ^ 64 % 2 ^ 63 < 2047 * 2 ^ 52
  omega

end Number.Format

namespace Expr

/-- Expressions that a text can spell. -/
inductive Plain : Expr → Prop
  | ident {pos : Pos} {name : String} : IsName name → Plain (.ident pos none name)
  | int {pos : Pos} {value : UInt64} {negative : Bool} : Plain (.int pos none value negative)
  | float {pos : Pos} {bits : UInt32} : Format.single.IsFinite bits.toNat →
      Plain (.float pos none bits)
  | double {pos : Pos} {bits : UInt64} : Format.double.IsFinite bits.toNat →
      Plain (.double pos none bits)
  | char {pos : Pos} {c : Char} : Plain (.char pos none (Int32.ofNat c.toNat))
  | string {pos : Pos} {value : Bytes} : Plain (.string pos none value)
  | neg {pos : Pos} {x : Expr} : Plain x → x.isNumber = false →
      Plain (.op pos none .neg false .missing x)
  | pair {pos : Pos} {p : Punct} {op : Op} {n : Nat} {x y : Expr} :
      Parser.binaryOp? p = some (op, n) → Plain x → Plain y → Plain (.op pos none op true x y)
  | call {pos : Pos} {name : String} {args : List Expr} : IsName name → (∀ a ∈ args, Plain a) →
      Plain (.call pos none name none args)

theorem Plain.negate {x : Expr} (h : x.Plain) (pos : Pos) : (Parser.negate pos x).Plain := by
  cases h with
  | int => exact .int
  | @float _ bits hbits =>
    refine .float ?_
    rw [UInt32.toNat_xor]
    exact (Format.isFinite_xor Format.single bits.toNat).mpr hbits
  | @double _ bits hbits =>
    refine .double ?_
    rw [UInt64.toNat_xor]
    exact (Format.isFinite_xor Format.double bits.toNat).mpr hbits
  | ident hname => exact .neg (.ident hname) rfl
  | char => exact .neg .char rfl
  | string => exact .neg .string rfl
  | neg hx hnumber => exact .neg (.neg hx hnumber) rfl
  | pair hop hx hy => exact .neg (.pair hop hx hy) rfl
  | call hname hargs => exact .neg (.call hname hargs) rfl

end Expr

namespace Parser

theorem readNumber_plain (pos : Pos) (text : Bytes) : (readNumber pos text).Yields Expr.Plain := by
  intro x hx
  unfold readNumber at hx
  dsimp only at hx
  repeat' split at hx
  all_goals cases hx
  all_goals first
    | exact .int
    | exact .float (Format.finite_single ‹_›)
    | exact .double (Format.finite_double ‹_›)

theorem plain_exprs : ExprsKept Token.Named Expr.Plain where
  literal {pos t r} _ h := by
    unfold literal? at h
    split at h <;> cases h
    · exact readNumber_plain _ _
    · exact .ok .string
    · exact .ok .char
  ident _ _ hname := .ident hname
  negate pos _ hx := hx.negate pos
  op _ _ _ _ _ _ hop hx hy := .pair hop hx hy
  call _ _ _ hname hargs := .call hname hargs

end Parser

def Registry.Known (g : Registry) (t : Ty) : Prop := g.get? t.name = some t ∧ IsName t.name

theorem Ty.name_of_primitive? {name : String} {t : Ty} (h : Ty.primitive? name = some t) :
    t.name = name := by
  simpa using List.find?_some h

theorem Registry.known_of_get? {g : Registry} {name : String} {t : Ty} (hname : IsName name)
    (h : g.get? name = some t) : g.Known t := by
  suffices hname' : t.name = name by
    unfold Registry.Known
    rw [hname']
    exact ⟨h, hname⟩
  unfold Registry.get? at h
  split at h
  next t' ht' =>
    cases h
    exact Ty.name_of_primitive? ht'
  next =>
    obtain ⟨r, hr, rfl⟩ := Option.map_eq_some_iff.mp h
    have hfound := List.find?_some hr
    exact of_decide_eq_true hfound

/-- Statements that a text can spell, where the types of `g` are defined. -/
inductive Plain (g : Registry) : Piece → Prop
  | typed {pos : Pos} {name : String} {t : Ty} {init : Expr} : IsName name → g.Known t →
      init.isMissing = true ∨ init.Plain →
      Plain g (.one (.var { pos, name, type := some t, init }))
  | inferred {pos : Pos} {name : String} {init : Expr} : IsName name → init.Plain →
      Plain g (.one (.var { pos, name, init }))
  | assign {pos : Pos} {name : String} {x : Expr} : IsName name → x.Plain →
      Plain g (.one (.assign pos name none x))
  | ret {pos : Pos} {x : Expr} : x.isMissing = true ∨ x.Plain → Plain g (.one (.ret pos x))
  | call {pos : Pos} {name : String} {args : List Expr} : IsName name → (∀ a ∈ args, a.Plain) →
      Plain g (.one (.expr pos (.call pos none name none args)))
  | cond {pos : Pos} {test : Expr} {body : Block} {more : Option Block} :
      Parser.isCondition test = true → test.Plain → Plain g (.all body) →
      Plain g (.all (elseStmts more)) → Plain g (.one (.cond pos test body more))
  | nil : Plain g (.all [])
  | cons {x : Stmt} {rest : Block} : Plain g (.one x) → Plain g (.all rest) →
      Plain g (.all (x :: rest))

namespace Plain
variable {g g' : Registry}

theorem concat {xs : List Stmt} {x : Stmt} (h : Plain g (.all xs)) (hx : Plain g (.one x)) :
    Plain g (.all (xs ++ [x])) := by
  induction xs with
  | nil => exact .cons hx .nil
  | cons y ys ih =>
    cases h with
    | cons hy hys => exact .cons hy (ih hys)

theorem mono (hg : ∀ t, g.Known t → g'.Known t) {p : Piece} (h : Plain g p) : Plain g' p := by
  induction h with
  | typed hname ht hinit => exact .typed hname (hg _ ht) hinit
  | inferred hname hinit => exact .inferred hname hinit
  | assign hname hx => exact .assign hname hx
  | ret hx => exact .ret hx
  | call hname hargs => exact .call hname hargs
  | cond hcondition htest _ _ hbody hmore => exact .cond hcondition htest hbody hmore
  | nil => exact .nil
  | cons _ _ hx hrest => exact .cons hx hrest

end Plain

structure PlainFunction (g : Registry) (f : Function) : Prop where
  name : IsName f.name
  nameType : f.nameType = none
  params : ∀ p ∈ f.params, IsName p.name ∧
    ∃ t, g.Known t ∧ p = { pos := p.pos, name := p.name, nameType := some t, type := some t }
  ret : ∃ t, f.ret = some t ∧ (t = .void ∨ g.Known t)
  body : Plain g (.all f.body)

theorem PlainFunction.mono {g g' : Registry} (hg : ∀ t, g.Known t → g'.Known t) {f : Function}
    (h : PlainFunction g f) : PlainFunction g' f where
  name := h.name
  nameType := h.nameType
  params p hp := by
    obtain ⟨hname, t, ht, heq⟩ := h.params p hp
    exact ⟨hname, t, hg t ht, heq⟩
  ret := by
    obtain ⟨t, hret, ht⟩ := h.ret
    exact ⟨t, hret, ht.imp_right (hg t)⟩
  body := h.body.mono hg

/-- Records in the order of their definition, each made when those before it were defined. -/
inductive Defines : Registry → List Typedef → Prop
  | nil : Defines {} []
  | concat {g g' : Registry} {ts : List Typedef} {pos : Pos} {name : String}
      {fields : List (String × Ty)} : Defines g ts → IsName name →
      (∀ f ∈ fields, IsName f.1 ∧ g.Known f.2) →
      g.register? (g.makeRecord name fields) = some g' →
      Defines g' (ts ++ [⟨pos, g.makeRecord name fields⟩])

theorem Registry.Known.register? {g g' : Registry} {r : Record} (h : g.register? r = some g') {t : Ty}
    (ht : g.Known t) : g'.Known t := by
  refine ⟨?_, ht.2⟩
  unfold Registry.register? at h
  split at h
  · cases h
  · cases h
    have hget := ht.1
    unfold Registry.get? at hget ⊢
    split at hget
    next t' ht' => exact hget
    next hnone =>
      obtain ⟨r', hr', ht'⟩ := Option.map_eq_some_iff.mp hget
      refine Option.map_eq_some_iff.mpr ⟨r', ?_, ht'⟩
      simp only [Registry.find?] at hr' ⊢
      rw [List.find?_append, hr']
      rfl

namespace Parser

theorem plain_stmts (g : Registry) :
    StmtsKept true Token.Named g.Known Expr.Plain (Plain g) where
  exprs := plain_exprs
  typed _ _ _ _ hname htype hinit := by
    obtain ⟨t, rfl, ht⟩ := htype rfl
    exact .typed hname ht hinit
  inferred _ _ _ hname hinit := .inferred hname hinit
  assign _ _ _ hname hx := .assign hname hx
  ret _ _ hx := .ret hx
  call _ _ _ hname hargs := .call hname hargs
  cond _ _ _ _ hcondition htest hbody hmore := .cond hcondition htest hbody hmore
  nil := .nil
  concat _ _ h hx := h.concat hx

section
variable (s : Scope)

/-- A type that is looked up by a name is known. -/
theorem known_of_named (name : String) (t : Ty) (hname : Token.Named (.ident name))
    (h : s.types.get? name = some t) : s.types.Known t :=
  Registry.known_of_get? hname h

theorem parseFunction_plain (pos : Pos) (name : String) (c : Cursor) :
    Ensures true (parseFunction s pos name c) fun r =>
      IsName name → c.Over Token.Named → Left Token.Named (PlainFunction s.types) r := by
  unfold parseFunction
  refine (expect_ensures Token.Named _ c).bind ?_
  rintro ⟨d, hd⟩
  refine (expect_ensures Token.Named _ d).bind ?_
  rintro ⟨e, he⟩
  refine (parseParams_ensures (K := s.types.Known) (V := fun p => IsName p.name ∧
      ∃ t, s.types.Known t ∧ p = { pos := p.pos, name := p.name, nameType := some t, type := some t })
    (known_of_named s) (fun pos name type hname htype => ?_) #[] d.size e he).bind ?_
  · obtain ⟨t, rfl, ht⟩ := htype rfl
    exact ⟨hname, t, ht, rfl⟩
  rintro ⟨params, g, hg⟩
  refine (parseRet_ensures (known_of_named s) c.size g _).bind ?_
  rintro ⟨ret, r, hr⟩
  refine (stmtsLeft (plain_stmts s.types) (known_of_named s) r).block.bind ?_
  rintro ⟨body, b, hb⟩
  refine .ofPure fun hbody hret hparams hlparen hdefine hname hover => ?_
  obtain ⟨hp, hg'⟩ := hparams (by simp) (hlparen (hdefine hover))
  obtain ⟨ht, hr'⟩ := hret hg'
  obtain ⟨hplain, hb'⟩ := hbody hr'
  exact ⟨⟨hname, rfl, fun p hmem => hp p (by simpa using hmem), ⟨ret, rfl, ht rfl⟩, hplain⟩, hb'⟩

theorem parseFields_plain (fields : Array (String × Ty)) (bound : Nat) (c : Cursor)
    (hc : c.size < bound) :
    Ensures true (parseFields s fields bound c hc) fun r =>
      (∀ f ∈ fields, IsName f.1 ∧ s.types.Known f.2) → c.Over Token.Named →
        Left Token.Named (fun fields => ∀ f ∈ fields, IsName f.1 ∧ s.types.Known f.2) r := by
  induction hn : c.size using Nat.strongRecOn generalizing c fields with
  | ind n ih =>
    unfold parseFields
    split
    · exact .quietly (.error _)
    next l rest hrest =>
      have hl : Cursor.size ⟨l.stop, rest⟩ < c.size := Cursor.size_tail hrest
      dsimp only
      split
      · exact .ofPure fun hfields hover => ⟨hfields, hover.tail hrest _⟩
      next name hname =>
        refine (expect_ensures Token.Named _ _).bind ?_
        rintro ⟨d, hd⟩
        refine (parseType_ensures (known_of_named s) d).bind ?_
        rintro ⟨type, e, he⟩
        refine (expect_ensures Token.Named _ e).bind ?_
        rintro ⟨g, hg⟩
        refine (ih g.size (by omega) _ g _ rfl).mono ?_
        intro r hr hsemicolon htype hcolon hfields hover
        obtain ⟨hfound, he'⟩ := htype (hcolon (hover.tail hrest _))
        obtain ⟨t, rfl, ht⟩ := hfound rfl
        refine hr (fun f hf => ?_) (hsemicolon he')
        rcases Array.mem_push.mp hf with hf | rfl
        · exact hfields f hf
        · exact ⟨(hname ▸ hover.head hrest : Token.Named (.ident name)), ht⟩
      · exact .quietly (.error _)

theorem parseRecord_plain (c : Cursor) :
    Ensures true (parseRecord s c) fun r => c.Over Token.Named → IsName r.1 ∧
      Left Token.Named (fun fields => ∀ f ∈ fields, IsName f.1 ∧ s.types.Known f.2) r.2 := by
  unfold parseRecord
  refine Ensures.bind (P := fun r => c.Over Token.Named →
      Token.Named (.ident r.1) ∧ r.2.2.val.Over Token.Named)
    (.quietly fun a ha hover => expectIdent_over hover a ha) ?_
  rintro ⟨name, l, d, hd⟩
  refine (expect_ensures Token.Named _ d).bind ?_
  rintro ⟨e, he⟩
  refine (parseFields_plain s #[] c.size e _).bind ?_
  rintro ⟨fields, g⟩
  refine .ofPure fun hfields hlbrace hident hover => ?_
  obtain ⟨hname, hd'⟩ := hident hover
  obtain ⟨hf, hg⟩ := hfields (by simp) (hlbrace hd')
  exact ⟨hname, fun f hmem => hf f (by simpa using hmem), hg⟩

end

structure PlainFile (p : Parsed) : Prop where
  typedefs : Defines p.types p.file.typedefs
  functions : ∀ f ∈ p.file.functions, PlainFunction p.types f
  error : p.error = none

theorem size_define (p : Parsed) (pos : Pos) (name : String) (fields : List (String × Ty)) :
    p.diagnostics.size ≤ (p.define pos name fields).diagnostics.size := by
  unfold Parsed.define
  dsimp only
  split <;> simp

/-- A record whose name is not taken is defined. -/
theorem PlainFile.define {p : Parsed} (h : PlainFile p) {name : String} {fields : List (String × Ty)}
    (hname : IsName name) (hfields : ∀ f ∈ fields, IsName f.1 ∧ p.types.Known f.2) (pos : Pos)
    (hquiet : (p.define pos name fields).diagnostics.size = p.diagnostics.size) :
    PlainFile (p.define pos name fields) := by
  unfold Parsed.define at hquiet ⊢
  dsimp only at hquiet ⊢
  split at hquiet
  next types htypes =>
    exact ⟨h.typedefs.concat hname hfields htypes,
      fun f hf => (h.functions f hf).mono fun _ => Registry.Known.register? htypes, h.error⟩
  · simp at hquiet

/-- Nothing that was reported is taken back, and without a report what was plain stays so. -/
theorem parseItems_plain (lines : LineTable) (p : Parsed) (c : Cursor) :
    p.diagnostics.size ≤ (parseItems lines p c).diagnostics.size ∧
      ((parseItems lines p c).diagnostics.size = p.diagnostics.size → c.Over Token.Named →
        PlainFile p → PlainFile (parseItems lines p c)) := by
  induction hn : c.size using Nat.strongRecOn generalizing c p with
  | ind n ih =>
    unfold parseItems
    split
    · exact ⟨Nat.le_refl _, fun _ _ hp => hp⟩
    next l rest hrest =>
      have hl : Cursor.size ⟨l.stop, rest⟩ < c.size := Cursor.size_tail hrest
      dsimp only
      split
      · exact ⟨Nat.le_refl _, fun _ _ hp => hp⟩
      · have hrun := parseRecord_plain ⟨lines, p.types⟩ ⟨l.stop, rest⟩ p.diagnostics
        split
        next name fields d hd ds heq =>
          rw [heq] at hrun
          have hrest' := ih d.size (by omega)
            ({ p with diagnostics := ds }.define (lines.locate l.start) name fields) d rfl
          have hdefine := size_define { p with diagnostics := ds } (lines.locate l.start) name fields
          have hle : p.diagnostics.size ≤ ds.size := hrun.1
          dsimp only at hdefine
          refine ⟨by omega, fun hquiet hover hp => ?_⟩
          obtain ⟨hname, hfields, hd'⟩ := hrun.2 _ rfl (fun _ => by dsimp only; omega)
            (hover.tail hrest _)
          refine hrest'.2 (by omega) hd' ?_
          exact PlainFile.define (p := { p with diagnostics := ds })
            ⟨hp.typedefs, hp.functions, hp.error⟩ hname hfields _ (by dsimp only; omega)
        next e ds heq =>
          rw [heq] at hrun
          have hle : p.diagnostics.size ≤ ds.size := hrun.1
          simp only [Parsed.stop, Array.size_push]
          exact ⟨by omega, fun hquiet => by omega⟩
      next name hname =>
        have hrun := parseFunction_plain ⟨lines, p.types⟩ (lines.locate l.start) name
          ⟨l.stop, rest⟩ p.diagnostics
        split
        next f d hd ds heq =>
          rw [heq] at hrun
          have hrest' := ih d.size (by omega) { p with
            diagnostics := ds, file := { p.file with functions := p.file.functions ++ [f] } } d rfl
          have hle : p.diagnostics.size ≤ ds.size := hrun.1
          have hle' := hrest'.1
          dsimp only at hle'
          refine ⟨by omega, fun hquiet hover hp => ?_⟩
          obtain ⟨hf, hd'⟩ := hrun.2 _ rfl (fun _ => by dsimp only; omega)
            (hname ▸ hover.head hrest : Token.Named (.ident name)) (hover.tail hrest _)
          refine hrest'.2 (by dsimp only; omega) hd' ⟨hp.typedefs, fun g hg => ?_, hp.error⟩
          rcases List.mem_append.mp hg with hg | hg
          · exact hp.functions g hg
          · obtain rfl := List.mem_singleton.mp hg
            exact hf
        next e ds heq =>
          rw [heq] at hrun
          have hle : p.diagnostics.size ≤ ds.size := hrun.1
          simp only [Parsed.stop, Array.size_push]
          exact ⟨by omega, fun hquiet => by omega⟩
      · simp only [Parsed.stop, Array.size_push]
        exact ⟨by omega, fun hquiet => by omega⟩

/-- A text that is parsed without a report gives a plain file. -/
theorem parse_plain {name : String} {text : Bytes} (h : (parse name text).diagnostics = #[]) :
    PlainFile (parse name text) := by
  refine (parseItems_plain _ _ _).2 ?_ (Lexeme.named_scan text) ⟨.nil, by simp, rfl⟩
  exact congrArg Array.size h

end Parser

end RegisterLang
