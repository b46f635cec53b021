import RegisterLang.Proofs.Reading

/-!
# Precedence climbing and the layered grammar

A grammar gives every class of operators a rule of its own: comparisons stand between sums, sums are
made of products, and products of operands with their minuses. Its parser descends through the rules
and takes the operators of one layer at a time, from left to right. Precedence climbing has one loop
for all of them, which compares how tightly operators bind. The two are the same function.
-/
namespace RegisterLang.Parser
open Text Number Source

/-! ### The layered parser -/

inductive Layer where
  | comparison
  | sum
  | product

namespace Layer

def op? : Layer → Token → Option Op
  | comparison, .punct .lt => some .lt
  | comparison, .punct .gt => some .gt
  | comparison, .punct .le => some .le
  | comparison, .punct .ge => some .ge
  | comparison, .punct .eq => some .eq
  | comparison, .punct .ne => some .ne
  | sum, .punct .plus => some .add
  | sum, .punct .minus => some .sub
  | product, .punct .star => some .mul
  | product, .punct .slash => some .div
  | product, .punct .percent => some .mod
  | _, _ => none

@[simp]
def height : Layer → Nat
  | comparison => 2
  | sum => 1
  | product => 0

end Layer

/-- A minus before an operand. An integer, a float or a double directly behind it takes it as its
sign, which of a float or a double is the first bit. -/
def withMinus (pos : Pos) : Expr → Expr
  | .int _ type value negative => .int pos type value (!negative)
  | .float _ type bits => .float pos type (bits ^^^ 0x80000000)
  | .double _ type bits => .double pos type (bits ^^^ 0x8000000000000000)
  | x => .op pos none .neg false .missing x

mutual

def parseLayer (lines : LineTable) (layer : Layer) (c : Cursor) : Result (Expr × c.After) := do
  let (x, ⟨d, hd⟩) ← parseOperand lines layer c
  parseChain lines layer x c.size d hd
termination_by (c.size, 2 * layer.height + 4)

def parseOperand (lines : LineTable) (layer : Layer) (c : Cursor) : Result (Expr × c.After) :=
  match layer with
  | .comparison => parseLayer lines .sum c
  | .sum => parseLayer lines .product c
  | .product => parseSigned lines c
termination_by (c.size, 2 * layer.height + 3)

def parseChain (lines : LineTable) (layer : Layer) (x : Expr) (bound : Nat) (c : Cursor)
    (hc : c.size < bound) : Result (Expr × Cursor.Below bound) :=
  match h : c.rest with
  | [] => .ok (x, ⟨c, hc⟩)
  | l :: rest =>
    match layer.op? l.token with
    | none => .ok (x, ⟨c, hc⟩)
    | some op => do
      have hl : Cursor.size ⟨l.stop, rest⟩ < c.size := Cursor.size_tail h
      let (y, ⟨d, hd⟩) ← Result.inside (.rhs op) (parseOperand lines layer ⟨l.stop, rest⟩)
      have hd : d.size < c.size := Nat.lt_trans hd hl
      parseChain lines layer (.op (lines.locate l.start) none op true x y) bound d
        (Nat.lt_trans hd hc)
termination_by (c.size, 0)

def parseSigned (lines : LineTable) (c : Cursor) : Result (Expr × c.After) :=
  match h : c.rest with
  | [] => parseAtom lines c
  | l :: rest =>
    if l.token = .punct .minus then do
      have hl : Cursor.size ⟨l.stop, rest⟩ < c.size := Cursor.size_tail h
      let (x, ⟨d, hd⟩) ← parseSigned lines ⟨l.stop, rest⟩
      return (withMinus (lines.locate l.start) x, ⟨d, Nat.lt_trans hd hl⟩)
    else parseAtom lines c
termination_by (c.size, 2)

def parseAtom (lines : LineTable) (c : Cursor) : Result (Expr × c.After) :=
  match h : c.rest with
  | [] => unexpected c.peek [.number, .identifier, .punct .lparen]
  | l :: rest =>
    have hl : Cursor.size ⟨l.stop, rest⟩ < c.size := Cursor.size_tail h
    let pos := lines.locate l.start
    match literal? pos l.token with
    | some literal => do
      let x ← literal
      return (x, ⟨⟨l.stop, rest⟩, hl⟩)
    | none =>
      match l.token with
      | .ident name =>
        match h' : rest with
        | [] => .ok (.ident pos none name, ⟨⟨l.stop, rest⟩, h' ▸ hl⟩)
        | l' :: rest' =>
          if l'.token = .punct .lparen then do
            have hl' : Cursor.size ⟨l'.stop, rest'⟩ < c.size := Nat.lt_of_succ_lt hl
            let (args, d) ← parseList lines #[] c.size ⟨l'.stop, rest'⟩ hl'
            return (.call pos none name none args.toList, d)
          else .ok (.ident pos none name, ⟨⟨l.stop, rest⟩, h' ▸ hl⟩)
      | .punct .lparen => do
        let (x, ⟨d, hd⟩) ← parseLayer lines .comparison ⟨l.stop, rest⟩
        let ⟨d', hd'⟩ ← expect .rparen d
        return (x, ⟨d', Nat.lt_trans hd' (Nat.lt_trans hd hl)⟩)
      | _ => unexpected l [.number, .identifier, .punct .lparen]
termination_by (c.size, 1)

def parseList (lines : LineTable) (args : Array Expr) (bound : Nat) (c : Cursor)
    (hc : c.size < bound) : Result (Array Expr × Cursor.Below bound) :=
  match h : c.rest with
  | [] => unexpected c.peek [.punct .comma, .punct .rparen]
  | l :: rest =>
    have hl : Cursor.size ⟨l.stop, rest⟩ < c.size := Cursor.size_tail h
    if l.token = .punct .rparen then .ok (args, ⟨⟨l.stop, rest⟩, Nat.lt_trans hl hc⟩)
    else if args.isEmpty then do
      let (x, ⟨d, hd⟩) ← Result.inside (.arg 0) (parseLayer lines .comparison c)
      parseList lines #[x] bound d (Nat.lt_trans hd hc)
    else if l.token = .punct .comma then do
      let (x, ⟨d, hd⟩) ← Result.inside (.arg args.size) (parseLayer lines .comparison ⟨l.stop, rest⟩)
      have hd : d.size < c.size := Nat.lt_trans hd hl
      parseList lines (args.push x) bound d (Nat.lt_trans hd hc)
    else unexpected l [.punct .comma, .punct .rparen]
termination_by (c.size, 9)

end

/-! ### The loop of precedence climbing, layer by layer -/

theorem Result.bind_congr {α β : Type} {r : Result α} {f g : α → Result β}
    (h : ∀ a, r = .ok a → f a = g a) : r >>= f = r >>= g := by
  cases r with
  | error e => rfl
  | ok a => exact h a rfl

theorem Result.eq_ok_of_inside {α : Type} {r : Result α} {context : Context} {a : α}
    (h : r.inside context = .ok a) : r = .ok a := by
  cases r with
  | error e => cases h
  | ok b => exact h

variable {lines : LineTable} {prec bound : Nat} {c : Cursor} {x : Expr}

def Cursor.Stops (prec : Nat) (c : Cursor) : Prop :=
  ∀ t ∈ c.tokens.head?, tighterOp? prec t = none

theorem Cursor.stops_nil (stop : Nat) : Cursor.Stops prec ⟨stop, []⟩ := by
  rintro t ⟨⟩

theorem Cursor.stops_cons {stop : Nat} {l : Lexeme} {rest : List Lexeme}
    (h : tighterOp? prec l.token = none) : Cursor.Stops prec ⟨stop, l :: rest⟩ := by
  rintro t ⟨⟩
  exact h

/-- An operator that binds more tightly than `k` also does so than what is looser. -/
theorem tighterOp?_of_le {k : Nat} (hk : prec ≤ k) {t : Token} {o : Op × Nat}
    (h : tighterOp? k t = some o) : tighterOp? prec t = some o := by
  cases t with
  | punct p =>
    simp only [tighterOp?, Option.filter_eq_some_iff, decide_eq_true_eq] at h ⊢
    exact ⟨h.1, Nat.lt_of_le_of_lt hk h.2⟩
  | _ => cases h

theorem parseOperators_cons {stop o : Nat} {l : Lexeme} {rest : List Lexeme} {op : Op}
    (h : tighterOp? prec l.token = some (op, o)) (hc : Cursor.size ⟨stop, l :: rest⟩ < bound) :
    parseOperators lines prec x bound ⟨stop, l :: rest⟩ hc =
      (Result.inside (.rhs op) (parseExpr lines o ⟨l.stop, rest⟩) >>= fun r =>
        parseOperators lines prec (.op (lines.locate l.start) none op true x r.1) bound r.2.val
          (Nat.lt_trans r.2.property (Nat.lt_of_succ_lt hc))) := by
  rw [parseOperators]
  dsimp only
  rw [h]

theorem parseChain_cons {layer : Layer} {stop : Nat} {l : Lexeme} {rest : List Lexeme} {op : Op}
    (h : layer.op? l.token = some op) (hc : Cursor.size ⟨stop, l :: rest⟩ < bound) :
    parseChain lines layer x bound ⟨stop, l :: rest⟩ hc =
      (Result.inside (.rhs op) (parseOperand lines layer ⟨l.stop, rest⟩) >>= fun r =>
        parseChain lines layer (.op (lines.locate l.start) none op true x r.1) bound r.2.val
          (Nat.lt_trans r.2.property (Nat.lt_of_succ_lt hc))) := by
  rw [parseChain]
  dsimp only
  rw [h]

/-- The loop ends at a token that is no operator for it. -/
theorem parseOperators_stops {hc : c.size < bound} {y : Expr} {d : Cursor.Below bound}
    (h : parseOperators lines prec x bound c hc = .ok (y, d)) : d.val.Stops prec := by
  induction hn : c.size using Nat.strongRecOn generalizing c x with
  | ind n ih =>
    obtain ⟨stop, rest⟩ := c
    cases rest with
    | nil =>
      rw [parseOperators_stop (Cursor.stops_nil stop)] at h
      cases h
      exact Cursor.stops_nil stop
    | cons l rest =>
      cases ht : tighterOp? prec l.token with
      | none =>
        rw [parseOperators_stop (Cursor.stops_cons ht)] at h
        cases h
        exact Cursor.stops_cons ht
      | some o =>
        rw [parseOperators_cons ht] at h
        cases hr : Result.inside (.rhs o.1) (parseExpr lines o.2 ⟨l.stop, rest⟩) with
        | error e =>
          rw [hr] at h
          cases h
        | ok r =>
          rw [hr] at h
          have hlt : r.2.val.size < Cursor.size ⟨stop, l :: rest⟩ :=
            Nat.lt_trans r.2.property (Cursor.size_tail rfl)
          exact ih _ (hn ▸ hlt) h rfl

theorem parseExpr_stops {y : Expr} {d : c.After} (h : parseExpr lines prec c = .ok (y, d)) :
    d.val.Stops prec := by
  rw [parseExpr] at h
  cases hu : parseUnary lines c with
  | error e =>
    rw [hu] at h
    cases h
  | ok r =>
    rw [hu] at h
    exact parseOperators_stops h

/-- The loop first takes what binds more tightly than `k`, and then goes on. -/
theorem parseOperators_restart {k : Nat} (hk : prec ≤ k) (hc : c.size < bound) :
    parseOperators lines prec x bound c hc =
      (parseOperators lines k x bound c hc >>= fun r =>
        parseOperators lines prec r.1 bound r.2.val r.2.property) := by
  induction hn : c.size using Nat.strongRecOn generalizing c x with
  | ind n ih =>
    obtain ⟨stop, rest⟩ := c
    cases rest with
    | nil =>
      have hstop : Cursor.Stops k ⟨stop, []⟩ := Cursor.stops_nil stop
      rw [parseOperators_stop hstop]
      rfl
    | cons l rest =>
      cases ht : tighterOp? k l.token with
      | none =>
        rw [parseOperators_stop (Cursor.stops_cons ht)]
        rfl
      | some o =>
        rw [parseOperators_cons ht, parseOperators_cons (tighterOp?_of_le hk ht), bind_assoc]
        refine congrArg (Bind.bind _) (funext fun r => ?_)
        have hlt : r.2.val.size < Cursor.size ⟨stop, l :: rest⟩ :=
          Nat.lt_trans r.2.property (Cursor.size_tail rfl)
        exact ih _ (hn ▸ hlt) _ rfl

namespace Layer

/-- The operators of a layer and of those inside it bind more tightly than this. -/
def threshold : Layer → Nat
  | comparison => 0
  | sum => 5
  | product => 10

def binding : Layer → Nat
  | comparison => 5
  | sum => 10
  | product => 20

theorem threshold_le_binding (layer : Layer) : layer.threshold ≤ layer.binding := by
  cases layer <;> decide

/-- After what binds more tightly than a layer, the loop takes exactly the operators of the layer. -/
theorem tighterOp?_threshold {layer : Layer} {t : Token} (h : tighterOp? layer.binding t = none) :
    tighterOp? layer.threshold t = (layer.op? t).map fun op => (op, layer.binding) := by
  cases t with
  | punct p => cases layer <;> cases p <;> first | rfl | cases h
  | _ => cases layer <;> rfl

end Layer

/-- Where the operators of the layers inside are taken, the loop is the chain of a layer. -/
theorem parseOperators_eq_parseChain {layer : Layer} (hc : c.size < bound) (hstop : c.Stops layer.binding)
    (ih : ∀ d : Cursor, d.size < c.size →
      parseExpr lines layer.binding d = parseOperand lines layer d) :
    parseOperators lines layer.threshold x bound c hc = parseChain lines layer x bound c hc := by
  induction hn : c.size using Nat.strongRecOn generalizing c x with
  | ind n hind =>
    obtain ⟨stop, rest⟩ := c
    cases rest with
    | nil =>
      rw [parseOperators_stop (Cursor.stops_nil stop), parseChain]
    | cons l rest =>
      have ht := Layer.tighterOp?_threshold (hstop l.token rfl)
      cases hop : layer.op? l.token with
      | none =>
        rw [hop] at ht
        rw [parseOperators_stop (Cursor.stops_cons ht), parseChain]
        dsimp only
        rw [hop]
      | some op =>
        rw [hop] at ht
        have hrest : Cursor.size ⟨l.stop, rest⟩ < Cursor.size ⟨stop, l :: rest⟩ :=
          Cursor.size_tail rfl
        rw [parseOperators_cons ht, parseChain_cons hop, ← ih _ hrest]
        refine Result.bind_congr fun r hr => ?_
        have hlt : r.2.val.size < Cursor.size ⟨stop, l :: rest⟩ := Nat.lt_trans r.2.property hrest
        -- the operand has taken all that binds more tightly, so the loop is again where it was
        exact hind _ (hn ▸ hlt) _ (parseExpr_stops (Result.eq_ok_of_inside hr))
          (fun d hd => ih d (Nat.lt_trans hd hlt)) rfl

/-! ### The rules -/

theorem negate_eq_withMinus (pos : Pos) (x : Expr) : negate pos x = withMinus pos x := by
  cases x <;> rfl

/-- Precedence climbing and the layered grammar do the same from a cursor on. -/
structure Climbs (lines : LineTable) (c : Cursor) : Prop where
  signed : parseUnary lines c = parseSigned lines c
  operand : ∀ layer : Layer, parseExpr lines layer.binding c = parseOperand lines layer c
  layer : ∀ layer : Layer, parseExpr lines layer.threshold c = parseLayer lines layer c
  args : ∀ args bound hc, parseArgs lines args bound c hc = parseList lines args bound c hc

section
variable (ih : ∀ d : Cursor, d.size < c.size → Climbs lines d)
include ih

theorem parsePrimary_eq_parseAtom : parsePrimary lines c = parseAtom lines c := by
  obtain ⟨stop, rest⟩ := c
  rw [parsePrimary, parseAtom]
  cases rest with
  | nil => rfl
  | cons l rest =>
    dsimp only
    cases literal? (lines.locate l.start) l.token with
    | some r => rfl
    | none =>
      dsimp only
      cases l.token with
      | ident name =>
        cases rest with
        | nil => rfl
        | cons l' rest =>
          have hlt : Cursor.size ⟨l'.stop, rest⟩ < Cursor.size ⟨stop, l :: l' :: rest⟩ :=
            Nat.lt_succ_of_lt (Nat.lt_succ_self _)
          dsimp only
          rw [(ih _ hlt).args]
      | punct p =>
        cases p with
        | lparen =>
          have hlt : Cursor.size ⟨l.stop, rest⟩ < Cursor.size ⟨stop, l :: rest⟩ :=
            Cursor.size_tail rfl
          dsimp only
          rw [← (ih _ hlt).layer .comparison]
          rfl
        | _ => rfl
      | _ => rfl

theorem parseUnary_eq_parseSigned : parseUnary lines c = parseSigned lines c := by
  have hatom := parsePrimary_eq_parseAtom ih
  obtain ⟨stop, rest⟩ := c
  rw [parseUnary, parseSigned]
  cases rest with
  | nil => exact hatom
  | cons l rest =>
    have hlt : Cursor.size ⟨l.stop, rest⟩ < Cursor.size ⟨stop, l :: rest⟩ := Cursor.size_tail rfl
    dsimp only
    simp only [(ih _ hlt).signed, hatom, negate_eq_withMinus]

/-- If the operands of a layer are read alike, so is the layer. -/
theorem parseExpr_eq_parseLayer {layer : Layer}
    (hoperand : parseExpr lines layer.binding c = parseOperand lines layer c) :
    parseExpr lines layer.threshold c = parseLayer lines layer c := by
  have hsplit : parseExpr lines layer.threshold c =
      (parseExpr lines layer.binding c >>= fun r =>
        parseOperators lines layer.threshold r.1 c.size r.2.val r.2.property) := by
    rw [parseExpr, parseExpr, bind_assoc]
    exact congrArg (Bind.bind _) (funext fun r =>
      parseOperators_restart layer.threshold_le_binding r.2.property)
  rw [hsplit, parseLayer, ← hoperand]
  refine Result.bind_congr fun r hr => ?_
  exact parseOperators_eq_parseChain r.2.property (parseExpr_stops hr) fun d hd =>
    (ih d (Nat.lt_trans hd r.2.property)).operand layer

/-- No operator binds as tightly as a minus in front. -/
theorem parseExpr_twenty : parseExpr lines 20 c = parseSigned lines c := by
  have hstop : ∀ d : Cursor, d.Stops 20 := by
    intro d t _
    cases t with
    | punct p => cases p <;> rfl
    | _ => rfl
  rw [parseExpr, ← parseUnary_eq_parseSigned ih]
  cases parseUnary lines c with
  | error e => rfl
  | ok r => exact parseOperators_stop (hstop r.2.val)

theorem parseExpr_binding (layer : Layer) :
    parseExpr lines layer.binding c = parseOperand lines layer c := by
  have hproduct : parseExpr lines 20 c = parseOperand lines .product c := by
    rw [parseOperand, parseExpr_twenty ih]
  have hsum : parseExpr lines 10 c = parseOperand lines .sum c := by
    rw [parseOperand]
    have hbinding : parseExpr lines Layer.product.binding c = _ := hproduct
    exact parseExpr_eq_parseLayer ih hbinding
  cases layer with
  | product => exact hproduct
  | sum => exact hsum
  | comparison =>
    rw [parseOperand]
    have hbinding : parseExpr lines Layer.sum.binding c = _ := hsum
    exact parseExpr_eq_parseLayer ih hbinding

theorem parseArgs_eq_parseList (args : Array Expr) (hc : c.size < bound) :
    parseArgs lines args bound c hc = parseList lines args bound c hc := by
  have hexpr := parseExpr_eq_parseLayer ih (parseExpr_binding ih .comparison)
  obtain ⟨stop, rest⟩ := c
  rw [parseArgs, parseList]
  cases rest with
  | nil => rfl
  | cons l rest =>
    have hlt : Cursor.size ⟨l.stop, rest⟩ < Cursor.size ⟨stop, l :: rest⟩ := Cursor.size_tail rfl
    dsimp only
    by_cases hclose : l.token = .punct .rparen
    · rw [if_pos hclose, if_pos hclose]
    rw [if_neg hclose, if_neg hclose]
    by_cases hempty : args.isEmpty = true
    · rw [if_pos hempty, if_pos hempty, ← hexpr]
      exact congrArg (Bind.bind _) (funext fun r => (ih _ r.2.property).args _ _ _)
    rw [if_neg hempty, if_neg hempty]
    by_cases hcomma : l.token = .punct .comma
    · rw [if_pos hcomma, if_pos hcomma, ← (ih _ hlt).layer]
      exact congrArg (Bind.bind _) (funext fun r =>
        (ih _ (Nat.lt_trans r.2.property hlt)).args _ _ _)
    · rw [if_neg hcomma, if_neg hcomma]

end

theorem climbs (lines : LineTable) (c : Cursor) : Climbs lines c := by
  induction hn : c.size using Nat.strongRecOn generalizing c with
  | ind n ih =>
    have hnext : ∀ d : Cursor, d.size < c.size → Climbs lines d :=
      fun d hd => ih d.size (hn ▸ hd) d rfl
    exact ⟨parseUnary_eq_parseSigned hnext, parseExpr_binding hnext,
      fun layer => parseExpr_eq_parseLayer hnext (parseExpr_binding hnext layer),
      fun args bound hc => parseArgs_eq_parseList hnext args hc⟩

def Cursor.ofText (text : Bytes) (start : Nat) : Cursor :=
  ⟨start, (Lexeme.scanFrom #[] start (text.drop start)).toList⟩

/-- From every offset of every text on, precedence climbing and the layered parser read an expression
alike: both succeed with the same tree and at the same end, or both stop with the same error. -/
theorem parseExpr_eq_layered (text : Bytes) (start : Nat) :
    parseExpr (LineTable.ofText text) 0 (.ofText text start) =
      parseLayer (LineTable.ofText text) .comparison (.ofText text start) :=
  (climbs _ _).layer .comparison

end RegisterLang.Parser
