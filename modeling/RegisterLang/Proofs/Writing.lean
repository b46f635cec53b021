import Mathlib.Data.List.Forall2
import RegisterLang.Proofs.Spelling
import RegisterLang.Proofs.Grammar

/-!
# The printer writes the grammar

What is printed of a tree that a text can spell are the tokens of that tree: no two tokens run into
each other, parentheses stand where the grammar wants them, and an `else` that is only another `if` goes
on in its line. Numbers that are written with an exponent are left out: a sign inside them ends the token.
-/
namespace RegisterLang
open Text Number

mutual

/-- Whether a float or a double of the expression is written with an exponent. -/
def Expr.scientific : Expr → Bool
  | .float _ _ bits => 'e' ∈ (Format.single.text bits.toNat).toList
  | .double _ _ bits => 'e' ∈ (Format.double.text bits.toNat).toList
  | .op _ _ _ _ left right => left.scientific || right.scientific
  | .call _ _ _ _ args => argsScientific args
  | _ => false
termination_by structural x => x

def argsScientific : List Expr → Bool
  | [] => false
  | a :: rest => a.scientific || argsScientific rest
termination_by structural x => x

end

mutual

def Stmt.scientific : Stmt → Bool
  | .var v => v.init.scientific
  | .assign _ _ _ x => x.scientific
  | .ret _ x => x.scientific
  | .expr _ x => x.scientific
  | .cond _ test body none => test.scientific || blockScientific body
  | .cond _ test body (some more) =>
    test.scientific || blockScientific body || blockScientific more
  | .other _ _ => false
termination_by structural x => x

def blockScientific : List Stmt → Bool
  | [] => false
  | x :: rest => x.scientific || blockScientific rest
termination_by structural x => x

end

def File.scientific (f : File) : Bool := f.functions.any fun g => blockScientific g.body

theorem argsScientific_eq_false {xs : List Expr} :
    argsScientific xs = false ↔ ∀ x ∈ xs, x.scientific = false := by
  induction xs with
  | nil => simp [argsScientific]
  | cons x xs ih => rw [argsScientific, Bool.or_eq_false_iff, ih, List.forall_mem_cons]

namespace Printer
open Lexeme RegisterLang.Parser

theorem eq_ok_of_bind {ε α β : Type} {r : Except ε α} {f : α → Except ε β} {b : β}
    (h : (r >>= f) = .ok b) : ∃ a, r = .ok a ∧ f a = .ok b := by
  cases r with
  | error e => cases h
  | ok a => exact ⟨a, rfl, h⟩

theorem eq_ok_of_inside {c : Context} {r : Result} {s : String} (h : Result.inside c r = .ok s) :
    r = .ok s := by
  cases r with
  | error e => cases e <;> cases h
  | ok a => exact h

/-- The printed expression is one of the grammar. -/
def Written (prec : Nat) (x : Expr) (s : String) : Prop :=
  ∃ ts, Spells s ts ∧ Phrase (.level prec x) ts

theorem Numeric.written {pos : Pos} {s : String} {x : Expr} (h : Numeric pos s x) (prec : Nat) :
    Written prec x s := by
  cases h with
  | plain hnumeral hread =>
    have hliteral : literal? pos (.number (Bytes.ofString s)) = some (.ok x) := congrArg some hread
    exact ⟨_, spells_numeral hnumeral, .operand (.literal hliteral)⟩
  | @minus s x hnumeral hread =>
    have hliteral : literal? pos (.number (Bytes.ofString s)) = some (.ok x) := congrArg some hread
    exact ⟨_, (spells_numeral hnumeral).minus, .operand (.minus (.literal hliteral))⟩

theorem written_char (pos : Pos) (c : Char) (prec : Nat) :
    Written prec (.char pos none (Int32.ofNat c.toNat)) (quoteChar (Int32.ofNat c.toNat).toInt) := by
  have hvalue : (Int32.ofNat c.toNat).toInt = c.toNat := by
    have hlt := Utf8.toNat_lt c
    rw [Int32.toInt_ofNat_of_lt]
    omega
  have hliteral : literal? pos (.char c) = some (.ok (.char pos none (Int32.ofNat c.toNat))) := rfl
  rw [hvalue]
  exact ⟨_, spells_char c, .operand (.literal hliteral)⟩

theorem written_neg {pos : Pos} {x : Expr} {s : String} (hx : x.isNumber = false)
    (h : Written signPrecedence x s) (prec : Nat) :
    Written prec (.op pos none .neg false .missing x) ("-" ++ s) := by
  obtain ⟨ts, hs, hts⟩ := h
  have hnegate : negate pos x = .op pos none .neg false .missing x := by
    cases x with
    | int => cases hx
    | float => cases hx
    | double => cases hx
    | _ => rfl
  refine ⟨_, hs.minus, .operand ?_⟩
  rw [← hnegate]
  exact .minus (hts.operand_of_level (by decide))

theorem binaryOp?_written {p : Punct} {op : Op} {n : Nat} (h : binaryOp? p = some (op, n)) :
    op.symbol = p.text ∧ precedence op = n := by
  cases p <;> cases h <;> exact ⟨rfl, rfl⟩

theorem glue_lparen : Glue "(" [.punct .lparen] :=
  glue_byte (by rw [Bytes.ofString_eq]; rfl) rfl (fun _ => rfl) (by decide) rfl rfl

theorem glue_rparen : Glue ")" [.punct .rparen] :=
  glue_byte (by rw [Bytes.ofString_eq]; rfl) rfl (fun _ => rfl) (by decide) rfl rfl

theorem spells_lparen : Spells "(" [.punct .lparen] :=
  glue_lparen.closed.spells ⟨40, [], by rw [Bytes.ofString_eq]; rfl, by decide⟩

theorem written_group {x : Expr} {s : String} (h : Written 0 x s) (prec : Nat) :
    Written prec x ("(" ++ s ++ ")") := by
  obtain ⟨ts, hs, hts⟩ := h
  have hclosed := glue_lparen.closed.append (hs.glue glue_rparen)
  rw [← String.append_assoc] at hclosed
  refine ⟨_, hclosed.spells ?_, .operand (.group hts.level_one)⟩
  rw [String.append_assoc]
  exact spells_lparen.first_append _

theorem written_pair {pos : Pos} {p : Punct} {op : Op} {n : Nat} {x y : Expr} {l r : String}
    (hop : binaryOp? p = some (op, n)) (hx : Written n x l) (hy : Written (n + 1) y r) {prec : Nat}
    (hprec : prec ≤ n) :
    Written prec (.op pos none op true x y) (l ++ " " ++ op.symbol ++ " " ++ r) := by
  obtain ⟨ts, hl, hts⟩ := hx
  obtain ⟨us, hr, hus⟩ := hy
  have hspells := hl.between (glue_space.append (glue_symbol p).closed) hr
  rw [← String.append_assoc, ← String.append_assoc, List.nil_append, List.append_assoc,
    List.singleton_append, ← (binaryOp?_written hop).1] at hspells
  exact ⟨_, hspells, .pair hop hprec hts hus⟩

theorem glue_comma : Glue ", " [.punct .comma] := glue_symbol .comma

/-- The printed arguments and the parenthesis after them; what stands before them is kept. -/
theorem printArgs_written {xs : List Expr}
    (hxs : ∀ x ∈ xs, ∀ s, printExpr 0 x = .ok s → Written 0 x s) {done s : String} {index : Nat}
    (h : printArgs done index xs = .ok s) :
    ∃ t ts, s = done ++ t ∧ Closed t ts ∧ (index ≠ 0 → Glue t ts) ∧
      Phrase (.args (if index = 0 then [] else [.punct .comma]) xs) ts := by
  induction xs generalizing done index with
  | nil =>
    cases h
    exact ⟨")", _, rfl, glue_rparen.closed, fun _ => glue_rparen, .nil⟩
  | cons x xs ih =>
    rw [List.forall_mem_cons] at hxs
    rw [printArgs] at h
    obtain ⟨a, ha, h⟩ := eq_ok_of_bind h
    obtain ⟨ts, hspells, hts⟩ := hxs.1 a (eq_ok_of_inside ha)
    obtain ⟨t, us, rfl, _, hglue, hus⟩ := ih hxs.2 h
    rw [if_neg (Nat.succ_ne_zero _)] at hus
    have harg := hspells.glue (hglue (Nat.succ_ne_zero _))
    by_cases hindex : index = 0
    · subst hindex
      refine ⟨a ++ t, ts ++ us, by simp [String.append_assoc], harg, fun hne => absurd rfl hne, ?_⟩
      exact .cons hts.level_one hus
    · rw [if_neg hindex, if_neg hindex]
      refine ⟨", " ++ (a ++ t), [Token.punct .comma] ++ ts ++ us, ?_, ?_, ?_, .cons hts.level_one hus⟩
      · simp [String.append_assoc]
      · rw [List.append_assoc]
        exact glue_comma.closed.append harg
      · intro _
        rw [List.append_assoc]
        exact glue_comma.append harg

/-- What is printed of an expression is one of the grammar. -/
theorem printExpr_written {x : Expr} (h : x.Plain) (hx : x.scientific = false) {prec : Nat}
    {s : String} (hs : printExpr prec x = .ok s) : Written prec x s := by
  induction h generalizing prec s with
  | ident hname =>
    cases hs
    exact ⟨_, spells_name hname, .operand .name⟩
  | int =>
    cases hs
    exact Numeric.written (.int _ _ _) prec
  | float hfinite =>
    cases hs
    exact Numeric.written (.float _ hfinite (of_decide_eq_false hx)) prec
  | double hfinite =>
    cases hs
    exact Numeric.written (.double _ hfinite (of_decide_eq_false hx)) prec
  | char =>
    cases hs
    exact written_char _ _ prec
  | @string pos value =>
    cases hs
    have hliteral : literal? pos (.string value) = some (.ok (.string pos none value)) := rfl
    exact ⟨_, spells_string value, .operand (.literal hliteral)⟩
  | neg _ hnumber ih =>
    rw [printExpr] at hs
    obtain ⟨r, hr, hs⟩ := eq_ok_of_bind hs
    cases hs
    exact written_neg hnumber (ih hx hr) prec
  | @pair pos p op n x y hop _ _ ihx ihy =>
    rw [Expr.scientific, Bool.or_eq_false_iff] at hx
    rw [printExpr, (binaryOp?_written hop).2] at hs
    obtain ⟨l, hl, hs⟩ := eq_ok_of_bind hs
    obtain ⟨r, hr, hs⟩ := eq_ok_of_bind hs
    cases hs
    have hwritten := ihx hx.1 (eq_ok_of_inside hl)
    have hwritten' := ihy hx.2 (eq_ok_of_inside hr)
    split
    · exact written_group (written_pair hop hwritten hwritten' (Nat.zero_le _)) prec
    · exact written_pair hop hwritten hwritten' (by omega)
  | @call pos name args hname _ ih =>
    rw [Expr.scientific, argsScientific_eq_false] at hx
    rw [printExpr] at hs
    obtain ⟨t, ts, rfl, hclosed, _, hts⟩ := printArgs_written (fun a ha s => ih a ha (hx a ha)) hs
    have hcall := ((spells_name hname).glue glue_lparen).append hclosed
    refine ⟨_, hcall.spells ?_, .operand (.call hts)⟩
    rw [String.append_assoc]
    exact (spells_name hname).first_append _

theorem glue_semicolon : Glue ";\n" [.punct .semicolon] := by
  have hbyte : Glue ";" [.punct .semicolon] :=
    glue_byte (by rw [Bytes.ofString_eq]; rfl) rfl (fun _ => rfl) (by decide) rfl rfl
  exact hbyte.append glue_newline.closed

theorem glue_lbrace : Glue "\x7b" [.punct .lbrace] :=
  glue_byte (by rw [Bytes.ofString_eq]; rfl) rfl (fun _ => rfl) (by decide) rfl rfl

theorem glue_rbrace : Glue "\x7d" [.punct .rbrace] :=
  glue_byte (by rw [Bytes.ofString_eq]; rfl) rfl (fun _ => rfl) (by decide) rfl rfl

/-- The brace that opens a block. -/
theorem glue_open : Glue " \x7b\n" [.punct .lbrace] :=
  glue_space.append (glue_lbrace.closed.append glue_newline.closed)

theorem glue_assign : Glue " = " [.punct .assign] := glue_space.append (glue_symbol .assign).closed

theorem glue_declare : Glue " := " [.punct .declare] := glue_space.append (glue_symbol .declare).closed

theorem glue_colon : Glue ": " [.punct .colon] := glue_symbol .colon

theorem closed_empty : Closed "" [] := by
  intro rest
  rw [Bytes.ofString_eq]
  rfl

theorem closed_indent {depth : Nat} {tabs : String} (h : indent depth = .ok tabs) : Closed tabs [] := by
  unfold indent at h
  split at h
  · cases h
  · cases h
    apply closed_blanks
    rw [Bytes.ofString_eq, String.toList_ofList]
    intro b hb
    obtain ⟨c, hc, hb⟩ := List.mem_flatMap.mp hb
    rw [List.eq_of_mem_replicate hc] at hb
    cases List.mem_singleton.mp hb
    rfl

def WrittenStmt (g : Registry) (x : Stmt) : Prop :=
  ∀ goesOn depth s, printStmt goesOn depth x = .ok s → ∃ ts, Closed s ts ∧ Clause g (.stmt x) ts

variable {g : Registry}

theorem printBlock_written {xs : Block} (hxs : ∀ x ∈ xs, WrittenStmt g x) {depth : Nat} {s : String}
    (h : printBlock depth xs = .ok s) :
    ∃ ts, Closed s ts ∧ Clause g (.block xs) (ts ++ [Token.punct .rbrace]) := by
  induction xs generalizing s with
  | nil =>
    cases h
    exact ⟨[], closed_empty, .nil⟩
  | cons x xs ih =>
    rw [List.forall_mem_cons] at hxs
    rw [printBlock] at h
    obtain ⟨a, ha, h⟩ := eq_ok_of_bind h
    obtain ⟨b, hb, h⟩ := eq_ok_of_bind h
    cases h
    obtain ⟨ts, hts, hx⟩ := hxs.1 false depth a ha
    obtain ⟨us, hus, hxs⟩ := ih hxs.2 hb
    refine ⟨ts ++ us, hts.append hus, ?_⟩
    rw [List.append_assoc]
    exact .cons hx hxs

variable {pos : Pos} {name : String} {x : Expr}

theorem eq_missing (h : x.isMissing = true) : x = .missing := by
  cases x with
  | missing => rfl
  | _ => cases h

theorem isMissing_of_plain (h : x.Plain) : x.isMissing = false := by
  cases h <;> rfl

theorem writtenStmt_declared {t : Ty} (hname : IsName name) (ht : g.Known t) :
    WrittenStmt g (.var { pos, name, type := some t }) := by
  intro goesOn depth s hs
  rw [printStmt, printVar] at hs
  obtain ⟨tabs, htabs, hs⟩ := eq_ok_of_bind hs
  have hclosed := ((closed_indent htabs).word (spells_name hname) glue_colon).word (spells_name ht.2)
    glue_semicolon
  have hmissing : Expr.isMissing .missing = true := rfl
  dsimp only at hs
  rw [hmissing, if_pos rfl, if_pos rfl, String.append_empty] at hs
  cases hs
  exact ⟨_, hclosed, .declared ht.1⟩

theorem writtenStmt_typed {t : Ty} (hname : IsName name) (ht : g.Known t) (hx : x.Plain)
    (hscientific : x.scientific = false) :
    WrittenStmt g (.var { pos, name, type := some t, init := x }) := by
  intro goesOn depth s hs
  rw [printStmt, printVar] at hs
  obtain ⟨tabs, htabs, hs⟩ := eq_ok_of_bind hs
  dsimp only at hs
  rw [isMissing_of_plain hx, if_neg (by decide), if_neg (by decide)] at hs
  obtain ⟨v, hv, hs⟩ := eq_ok_of_bind hs
  obtain ⟨ts, hspells, hts⟩ := printExpr_written hx hscientific (eq_ok_of_inside hv)
  have hassign : Glue (" =" ++ " ") [.punct .assign] := glue_assign
  have hhead := ((closed_indent htabs).word (spells_name hname) glue_colon).word (spells_name ht.2)
    hassign
  rw [← String.append_assoc] at hhead
  cases hs
  exact ⟨_, hhead.word hspells glue_semicolon, .typed ht.1 hts.level_one⟩

theorem writtenStmt_inferred (hname : IsName name) (hx : x.Plain) (hscientific : x.scientific = false) :
    WrittenStmt g (.var { pos, name, init := x }) := by
  intro goesOn depth s hs
  rw [printStmt, printVar] at hs
  obtain ⟨tabs, htabs, hs⟩ := eq_ok_of_bind hs
  dsimp only at hs
  rw [isMissing_of_plain hx, if_neg (by decide)] at hs
  obtain ⟨v, hv, hs⟩ := eq_ok_of_bind hs
  obtain ⟨ts, hspells, hts⟩ := printExpr_written hx hscientific (eq_ok_of_inside hv)
  have hdeclare : Glue (" :=" ++ " ") [.punct .declare] := glue_declare
  have hhead := (closed_indent htabs).word (spells_name hname) hdeclare
  rw [← String.append_assoc] at hhead
  cases hs
  exact ⟨_, hhead.word hspells glue_semicolon, .inferred hts.level_one⟩

theorem writtenStmt_assign (hname : IsName name) (hx : x.Plain) (hscientific : x.scientific = false) :
    WrittenStmt g (.assign pos name none x) := by
  intro goesOn depth s hs
  rw [printStmt] at hs
  obtain ⟨tabs, htabs, hs⟩ := eq_ok_of_bind hs
  obtain ⟨v, hv, hs⟩ := eq_ok_of_bind hs
  obtain ⟨ts, hspells, hts⟩ := printExpr_written hx hscientific (eq_ok_of_inside hv)
  have hhead := (closed_indent htabs).word (spells_name hname) glue_assign
  cases hs
  exact ⟨_, hhead.word hspells glue_semicolon, .assign hts.level_one⟩

theorem writtenStmt_leave : WrittenStmt g (.ret pos .missing) := by
  intro goesOn depth s hs
  rw [printStmt] at hs
  obtain ⟨tabs, htabs, hs⟩ := eq_ok_of_bind hs
  have hleave : Closed "return;\n" [.keyword .ret, .punct .semicolon] :=
    (spells_keyword .ret).glue glue_semicolon
  cases hs
  exact ⟨_, (closed_indent htabs).append hleave, .leave⟩

theorem writtenStmt_ret (hx : x.Plain) (hscientific : x.scientific = false) :
    WrittenStmt g (.ret pos x) := by
  intro goesOn depth s hs
  rw [printStmt] at hs
  obtain ⟨tabs, htabs, hs⟩ := eq_ok_of_bind hs
  rw [isMissing_of_plain hx, if_neg (by decide)] at hs
  obtain ⟨v, hv, hs⟩ := eq_ok_of_bind hs
  obtain ⟨ts, hspells, hts⟩ := printExpr_written hx hscientific (eq_ok_of_inside hv)
  have hret : Closed "return " [.keyword .ret] := (spells_keyword .ret).glue glue_space
  cases hs
  exact ⟨_, ((closed_indent htabs).append hret).word hspells glue_semicolon, .ret hts.level_one⟩

theorem writtenStmt_call {xs : List Expr} (hname : IsName name) (hxs : ∀ a ∈ xs, a.Plain)
    (hscientific : argsScientific xs = false) :
    WrittenStmt g (.expr pos (.call pos none name none xs)) := by
  intro goesOn depth s hs
  rw [printStmt] at hs
  obtain ⟨tabs, htabs, hs⟩ := eq_ok_of_bind hs
  obtain ⟨v, hv, hs⟩ := eq_ok_of_bind hs
  have hv' := eq_ok_of_inside hv
  rw [printExpr] at hv'
  rw [argsScientific_eq_false] at hscientific
  obtain ⟨t, ts, rfl, hargs, _, hts⟩ := printArgs_written
    (fun a ha s => printExpr_written (hxs a ha) (hscientific a ha)) hv'
  have hcall := ((spells_name hname).glue glue_lparen).append hargs
  cases hs
  refine ⟨_, ((closed_indent htabs).append hcall).append glue_semicolon.closed, ?_⟩
  exact .call hts

/-- An `if` up to the end of its block. -/
theorem closed_head {before test body tabs : String} {ts us : List Token} (hbefore : Closed before [])
    (htest : Spells test ts) (hbody : Closed body us) (htabs : Closed tabs []) :
    Closed (before ++ "if " ++ test ++ " \x7b\n" ++ body ++ tabs ++ "\x7d")
      (.keyword .cond :: ts ++ Token.punct .lbrace :: (us ++ [Token.punct .rbrace])) := by
  have hif : Closed "if " [.keyword .cond] := (spells_keyword .cond).glue glue_space
  have hclosed := ((((hbefore.append hif).word htest glue_open).append hbody).append htabs).append
    glue_rbrace.closed
  have htokens : [] ++ [Token.keyword .cond] ++ ts ++ [Token.punct .lbrace] ++ us ++ [] ++
      [Token.punct .rbrace] =
      .keyword .cond :: ts ++ Token.punct .lbrace :: (us ++ [Token.punct .rbrace]) := by simp
  rwa [htokens] at hclosed

/-- What stands before an `if` is blank. -/
theorem exists_before {goesOn : Bool} {depth : Nat} {f : String → Result} {s : String}
    (h : (if goesOn then pure "" >>= f else indent depth >>= f) = .ok s) :
    ∃ before, Closed before [] ∧ f before = .ok s := by
  cases goesOn with
  | true => exact ⟨"", closed_empty, h⟩
  | false =>
    obtain ⟨tabs, htabs, h⟩ := eq_ok_of_bind h
    exact ⟨tabs, closed_indent htabs, h⟩

/-- What can stand behind the block of an `if`, which is printed as `head`. -/
def Goes (depth : Nat) (head tabs after : String) (more : Option Block) (s : String) : Prop :=
  (elseStmts more = [] ∧ s = head ++ after) ∨
  (∃ pos test body more' r, more = some [.cond pos test body more'] ∧
    printStmt true depth (.cond pos test body more') = .ok r ∧ s = head ++ " else " ++ r ++ after) ∨
  ∃ xs r, more = some xs ∧ printBlock (depth + 1) xs = .ok r ∧
    s = head ++ " else \x7b\n" ++ r ++ tabs ++ "\x7d" ++ after

theorem exists_of_printStmt_cond {goesOn : Bool} {depth : Nat} {s : String} {test : Expr} {body : Block}
    {more : Option Block} (h : printStmt goesOn depth (.cond pos test body more) = .ok s) :
    ∃ before t b tabs, Closed before [] ∧ printExpr 0 test = .ok t ∧
      printBlock (depth + 1) body = .ok b ∧ indent depth = .ok tabs ∧
      Goes depth (before ++ "if " ++ t ++ " \x7b\n" ++ b ++ tabs ++ "\x7d") tabs
        (if goesOn then "" else "\n") more s := by
  unfold printStmt at h
  obtain ⟨before, hbefore, h⟩ := exists_before h
  obtain ⟨t, ht, h⟩ := eq_ok_of_bind h
  obtain ⟨b, hb, h⟩ := eq_ok_of_bind h
  obtain ⟨tabs, htabs, h⟩ := eq_ok_of_bind h
  refine ⟨before, t, b, tabs, hbefore, eq_ok_of_inside ht, eq_ok_of_inside hb, htabs, ?_⟩
  dsimp only at h
  split at h
  · cases h
    exact .inl ⟨rfl, rfl⟩
  · cases h
    exact .inl ⟨rfl, rfl⟩
  · obtain ⟨r, hr, h⟩ := eq_ok_of_bind h
    cases h
    exact .inr (.inl ⟨_, _, _, _, r, rfl, hr, rfl⟩)
  · obtain ⟨r, hr, h⟩ := eq_ok_of_bind h
    cases h
    exact .inr (.inr ⟨_, r, rfl, eq_ok_of_inside hr, rfl⟩)

theorem closed_else : Closed " else " [.keyword .otherwise] :=
  glue_space.closed.append ((spells_keyword .otherwise).glue glue_space)

theorem closed_else_block : Closed " else \x7b\n" [.keyword .otherwise, .punct .lbrace] :=
  glue_space.closed.append ((spells_keyword .otherwise).glue glue_open)

theorem writtenStmt_cond {test : Expr} {body : Block} {more : Option Block}
    (hcondition : isCondition test = true) (htest : test.Plain) (hscientific : test.scientific = false)
    (hbody : ∀ x ∈ body, WrittenStmt g x) (hmore : ∀ x ∈ elseStmts more, WrittenStmt g x) :
    WrittenStmt g (.cond pos test body more) := by
  intro goesOn depth s hs
  obtain ⟨before, t, b, tabs, hbefore, ht, hb, htabs, hgoes⟩ := exists_of_printStmt_cond hs
  have hafter : Closed (if goesOn then "" else "\n") [] := by
    cases goesOn with
    | true => exact closed_empty
    | false => exact glue_newline.closed
  obtain ⟨ts, htest', hts⟩ := printExpr_written htest hscientific ht
  obtain ⟨us, hbody', hus⟩ := printBlock_written hbody hb
  have hhead := closed_head hbefore htest' hbody' (closed_indent htabs)
  -- the `else` decides the rest of the tokens
  have hbranch : ∀ vs, Clause g (.otherwise more) vs → Clause g (.stmt (.cond pos test body more))
      (.keyword .cond :: ts ++ Token.punct .lbrace :: (us ++ [Token.punct .rbrace]) ++ vs) := by
    intro vs hvs
    exact .cond (.branch hcondition hts.level_one hus hvs)
  rcases hgoes with ⟨hempty, rfl⟩ | ⟨pos', test', body', more', r, rfl, hr, rfl⟩ | ⟨xs, r, rfl, hr, rfl⟩
  · exact ⟨_, hhead.append hafter, hbranch [] (.absent hempty)⟩
  · obtain ⟨vs, hvs, hclause⟩ := hmore _ (List.mem_singleton_self _) _ _ _ hr
    cases hclause with
    | @cond _ vs hchain =>
      refine ⟨_, ((hhead.append closed_else).append hvs).append hafter, ?_⟩
      simpa using hbranch _ (.chain hchain)
  · obtain ⟨vs, hvs, hblock⟩ := printBlock_written hmore hr
    have hclosed := ((((hhead.append closed_else_block).append hvs).append
      (closed_indent htabs)).append glue_rbrace.closed).append hafter
    refine ⟨_, hclosed, ?_⟩
    simpa using hbranch _ (.otherwise hblock)

def WrittenPiece (g : Registry) : Piece → Prop
  | .one x => x.scientific = false → WrittenStmt g x
  | .all xs => blockScientific xs = false → ∀ x ∈ xs, WrittenStmt g x

theorem Plain.written {p : Piece} (h : Plain g p) : WrittenPiece g p := by
  induction h with
  | @typed pos name t init hname ht hinit =>
    intro hscientific
    rcases hinit with hmissing | hinit
    · obtain rfl := eq_missing hmissing
      exact writtenStmt_declared hname ht
    · exact writtenStmt_typed hname ht hinit hscientific
  | inferred hname hinit => exact writtenStmt_inferred hname hinit
  | assign hname hx => exact writtenStmt_assign hname hx
  | @ret pos x hx =>
    intro hscientific
    rcases hx with hmissing | hx
    · obtain rfl := eq_missing hmissing
      exact writtenStmt_leave
    · exact writtenStmt_ret hx hscientific
  | call hname hargs => exact writtenStmt_call hname hargs
  | @cond pos test body more hcondition htest _ _ ihbody ihmore =>
    intro hscientific
    have hparts : test.scientific = false ∧ blockScientific body = false ∧
        blockScientific (elseStmts more) = false := by
      cases more <;> simpa [Stmt.scientific, elseStmts, blockScientific, and_assoc] using hscientific
    exact writtenStmt_cond hcondition htest hparts.1 (ihbody hparts.2.1) (ihmore hparts.2.2)
  | nil => exact fun _ => nofun
  | cons _ _ ihx ihrest =>
    intro hscientific
    rw [blockScientific, Bool.or_eq_false_iff] at hscientific
    exact List.forall_mem_cons.mpr ⟨ihx hscientific.1, ihrest hscientific.2⟩

theorem glue_end : Glue "\x7d\n" [.punct .rbrace] := glue_rbrace.append glue_newline.closed

theorem closed_fields {fields : List (String × Ty)}
    (h : ∀ f ∈ fields, IsName f.1 ∧ IsName f.2.name) :
    Closed (String.join (fields.map fun f => "\t" ++ f.1 ++ ": " ++ f.2.name ++ ";\n") ++ "\x7d\n")
      (fieldTokens fields) := by
  have htab : Closed "\t" [] := closed_blanks <| by
    rw [Bytes.ofString_eq]
    exact List.all_eq_true.mp (by decide)
  induction fields with
  | nil => exact glue_end.closed
  | cons f fields ih =>
    rw [List.forall_mem_cons] at h
    rw [List.map_cons, String.join_cons, String.append_assoc]
    have hfield := (htab.word (spells_name h.1.1) glue_colon).word (spells_name h.1.2) glue_semicolon
    exact hfield.append (ih h.2)

theorem printTypedef_closed {t : Typedef} (hname : IsName t.record.name)
    (hfields : ∀ f ∈ t.record.fields, IsName f.1 ∧ IsName f.2.name) :
    Closed (printTypedef t) (recordTokens t.record) := by
  have hstruct : Closed "struct " [.keyword .struct] := (spells_keyword .struct).glue glue_space
  have hclosed := (hstruct.word (spells_name hname) glue_open).append (closed_fields hfields)
  rw [← String.append_assoc] at hclosed
  exact hclosed

theorem closed_params {ps : List Var} (h : ∀ p ∈ ps, IsName p.name ∧ IsName (Ty.nameOf p.type)) :
    Closed (", ".intercalate (ps.map fun p => p.name ++ ": " ++ Ty.nameOf p.type) ++ ")")
      (paramTokens [] ps) := by
  induction ps with
  | nil => exact glue_rparen.closed
  | cons p ps ih =>
    rw [List.forall_mem_cons] at h
    have hparam := (spells_name h.1.1).between glue_colon (spells_name h.1.2)
    cases ps with
    | nil => exact hparam.glue glue_rparen
    | cons q ps =>
      have hclosed := (hparam.glue glue_comma).append (ih h.2)
      rw [← String.append_assoc] at hclosed
      rw [List.map_cons, List.map_cons, String.intercalate_cons_cons]
      exact hclosed

def retText : Option Ty → String
  | none | some .void => ""
  | some t => " -> " ++ t.name

theorem closed_ret {t : Ty} (h : t = .void ∨ IsName t.name) :
    Closed (retText (some t) ++ " \x7b\n") (retTokens (some t) ++ [Token.punct .lbrace]) := by
  have harrow : Closed " -> " [.punct .arrow] := glue_space.closed.append (glue_symbol .arrow).closed
  by_cases hvoid : t = .void
  · subst hvoid
    exact glue_open.closed
  · have hclosed := harrow.word (spells_name (h.resolve_left hvoid)) glue_open
    cases t with
    | void => exact absurd rfl hvoid
    | _ => exact hclosed

/-- What is printed of a function is one of the grammar. -/
theorem printFunction_written {f : Function} (hf : PlainFunction g f)
    (hscientific : blockScientific f.body = false) {s : String} (hs : printFunction f = .ok s) :
    ∃ ts, Closed s ts ∧ FunctionTokens g f ts := by
  obtain ⟨t, hret, ht⟩ := hf.ret
  have hparams : ∀ p ∈ f.params, IsName p.name ∧ IsName (Ty.nameOf p.type) := by
    intro p hp
    obtain ⟨hname, t, ht, heq⟩ := hf.params p hp
    rw [heq]
    exact ⟨hname, ht.2⟩
  have hdefine : Glue " :: (" [Token.punct .define, .punct .lparen] :=
    glue_space.append ((glue_symbol .define).closed.append glue_lparen.closed)
  have hret' := closed_ret (ht.imp_right And.right)
  rw [← hret] at hret'
  rw [printFunction] at hs
  obtain ⟨body, hbody, hs⟩ := eq_ok_of_bind hs
  obtain ⟨us, hus, hblock⟩ := printBlock_written (Plain.written hf.body hscientific)
    (eq_ok_of_inside hbody)
  have hclosed := ((((spells_name hf.name).glue hdefine).append (closed_params hparams)).append
    hret').append (hus.append glue_end.closed)
  cases hs
  change ∃ ts, Closed (f.name ++ " :: (" ++ _ ++ ")" ++ retText f.ret ++ " \x7b\n" ++ body ++ "\x7d\n")
    ts ∧ _
  simp only [← String.append_assoc] at hclosed
  refine ⟨_, hclosed, us ++ [Token.punct .rbrace], hblock, ?_⟩
  simp

theorem closed_intercalate {ss : List String} {tss : List (List Token)}
    (h : List.Forall₂ Closed ss tss) : Closed ("\n".intercalate ss) tss.flatten := by
  induction h with
  | nil => exact closed_empty
  | @cons s ts ss tss hs hss ih =>
    cases hss with
    | nil =>
      rw [String.intercalate_singleton, List.flatten_singleton]
      exact hs
    | cons hs' hss' =>
      rw [String.intercalate_cons_cons, List.flatten_cons]
      have hclosed := (hs.append glue_newline.closed).append ih
      rw [List.append_nil] at hclosed
      exact hclosed

theorem forall₂_of_mapM {ε α β : Type} {f : α → Except ε β} {xs : List α} {ys : List β}
    (h : xs.mapM f = .ok ys) : List.Forall₂ (fun x y => f x = .ok y) xs ys := by
  induction xs generalizing ys with
  | nil =>
    cases h
    exact .nil
  | cons x xs ih =>
    rw [List.mapM_cons] at h
    obtain ⟨y, hy, h⟩ := eq_ok_of_bind h
    obtain ⟨ys', hys, h⟩ := eq_ok_of_bind h
    cases h
    exact .cons hy (ih hys)

theorem defines_names {ts : List Typedef} (h : Defines g ts) : ∀ t ∈ ts,
    IsName t.record.name ∧ ∀ f ∈ t.record.fields, IsName f.1 ∧ IsName f.2.name := by
  induction h with
  | nil => nofun
  | concat _ hname hfields _ ih =>
    intro t ht
    rcases List.mem_append.mp ht with ht | ht
    · exact ih t ht
    · obtain rfl := List.mem_singleton.mp ht
      exact ⟨hname, fun f hf => ⟨(hfields f hf).1, (hfields f hf).2.2⟩⟩

theorem functions_written {fs : List Function} {texts : List String}
    (hfs : ∀ f ∈ fs, PlainFunction g f ∧ blockScientific f.body = false)
    (h : List.Forall₂ (fun f s => Result.inside (.func f.name) (printFunction f) = .ok s) fs texts) :
    ∃ tss, List.Forall₂ (FunctionTokens g) fs tss ∧ List.Forall₂ Closed texts tss := by
  induction h with
  | nil => exact ⟨[], .nil, .nil⟩
  | cons hs _ ih =>
    rw [List.forall_mem_cons] at hfs
    obtain ⟨ts, hclosed, hts⟩ := printFunction_written hfs.1.1 hfs.1.2 (eq_ok_of_inside hs)
    obtain ⟨tss, htss, hclosed'⟩ := ih hfs.2
    exact ⟨ts :: tss, .cons hts htss, .cons hclosed hclosed'⟩

/-- What is printed of a file are the tokens of its records and then those of its functions. -/
theorem printFile_written {f : File} (htypedefs : Defines g f.typedefs)
    (hfunctions : ∀ h ∈ f.functions, PlainFunction g h) (hscientific : f.scientific = false)
    {s : String} (hs : printFile f = .ok s) :
    ∃ tss, List.Forall₂ (FunctionTokens g) f.functions tss ∧
      Closed s (f.typedefs.flatMap (fun t => recordTokens t.record) ++ tss.flatten) := by
  rw [File.scientific, List.any_eq_false] at hscientific
  rw [printFile] at hs
  obtain ⟨texts, htexts, hs⟩ := eq_ok_of_bind hs
  cases hs
  obtain ⟨tss, htss, hclosed⟩ := functions_written
    (fun h hh => ⟨hfunctions h hh, Bool.eq_false_iff.mpr (hscientific h hh)⟩) (forall₂_of_mapM htexts)
  have hrecords : List.Forall₂ Closed (f.typedefs.map printTypedef)
      (f.typedefs.map fun t => recordTokens t.record) := by
    rw [List.forall₂_map_left_iff, List.forall₂_map_right_iff, List.forall₂_same]
    intro t ht
    have hnames := defines_names htypedefs t ht
    exact printTypedef_closed hnames.1 hnames.2
  refine ⟨tss, htss, ?_⟩
  rw [List.flatMap_def, ← List.flatten_append]
  exact closed_intercalate (List.rel_append hrecords hclosed)

end Printer

end RegisterLang
