import RegisterLang.Proofs.Plain
import RegisterLang.Tree.Printer

/-!
# How deep a tree is printed

The printer has tabs for fifteen levels. A tree that was parsed without a report has a written form for
each of its nodes, so it is printed unless a statement of it lies deeper than that, and then the sixteenth
level is the one that is refused. A block lies one level below its `if`; an `if` that is all of an `else`
lies on the level of the `if` before it.
-/
namespace RegisterLang

/-- An `else` that is only another `if`. -/
def isChain : Block → Bool
  | [.cond ..] => true
  | _ => false

mutual

def Stmt.levels : Stmt → Nat
  | .cond _ _ body none => blockLevels body + 1
  | .cond _ _ body (some more) =>
    max (blockLevels body + 1) (blockLevels more + if isChain more then 0 else 1)
  | .var _ | .assign .. | .ret .. | .expr .. | .other .. => 1
termination_by structural x => x

def blockLevels : Block → Nat
  | [] => 0
  | x :: rest => max x.levels (blockLevels rest)
termination_by structural x => x

end

def File.levels (f : File) : Nat := (f.functions.map fun g => blockLevels g.body).foldr max 0

namespace Printer
open RegisterLang.Parser

/-- What is printed from the level `depth` on and takes `levels` of them: it is refused where these are
too many. -/
def WithinDepth (depth levels : Nat) (r : Result) : Prop :=
  if depth + levels ≤ maxDepth + 1 then ∃ s, r = .ok s else r = .error (.tooDeep (maxDepth + 1))

namespace WithinDepth
variable {depth m n : Nat} {r : Result}

theorem of_ok {s : String} (hdepth : depth ≤ maxDepth + 1) (h : r = .ok s) : WithinDepth depth 0 r := by
  rw [WithinDepth, if_pos (by omega)]
  exact ⟨s, h⟩

/-- What comes second is printed if what comes first is. -/
theorem bind {f : String → Result} (h : WithinDepth depth m r) (hf : ∀ s, WithinDepth depth n (f s)) :
    WithinDepth depth (max m n) (r >>= f) := by
  unfold WithinDepth at h
  by_cases hm : depth + m ≤ maxDepth + 1
  · rw [if_pos hm] at h
    obtain ⟨s, rfl⟩ := h
    have hs := hf s
    unfold WithinDepth at hs ⊢
    by_cases hn : depth + n ≤ maxDepth + 1
    · rw [if_pos hn] at hs
      rw [if_pos (by omega)]
      exact hs
    · rw [if_neg hn] at hs
      rw [if_neg (by omega)]
      exact hs
  · rw [if_neg hm] at h
    subst h
    rw [WithinDepth, if_neg (by omega)]
    rfl

/-- What comes second is always printed. -/
theorem followed {f : String → Result} (hdepth : depth ≤ maxDepth + 1) (h : WithinDepth depth n r)
    (hf : ∀ s, ∃ t, f s = .ok t) : WithinDepth depth n (r >>= f) := by
  have hbind : WithinDepth depth (max n 0) (r >>= f) := by
    apply h.bind
    intro s
    obtain ⟨t, ht⟩ := hf s
    exact .of_ok hdepth ht
  rwa [Nat.max_zero] at hbind

theorem inside (h : WithinDepth depth n r) (c : Context) : WithinDepth depth n (r.inside c) := by
  unfold WithinDepth at h ⊢
  by_cases hn : depth + n ≤ maxDepth + 1
  · rw [if_pos hn] at h ⊢
    obtain ⟨s, rfl⟩ := h
    exact ⟨s, rfl⟩
  · rw [if_neg hn] at h ⊢
    rw [h]
    rfl

/-- A level further down. -/
theorem above (h : WithinDepth (depth + 1) n r) : WithinDepth depth (n + 1) r := by
  unfold WithinDepth at h ⊢
  rwa [Nat.add_right_comm] at h

end WithinDepth

theorem indent_withinDepth {depth : Nat} (h : depth ≤ maxDepth + 1) : WithinDepth depth 1 (indent depth) := by
  unfold WithinDepth indent
  by_cases hdepth : depth + 1 ≤ maxDepth + 1
  · rw [if_pos hdepth, if_neg (by omega)]
    exact ⟨_, rfl⟩
  · have hlast : depth = maxDepth + 1 := by omega
    rw [if_neg hdepth, if_pos (by omega), hlast]

/-- Arguments are printed if each of them is. -/
theorem exists_printArgs {xs : List Expr} (h : ∀ x ∈ xs, ∀ prec, ∃ s, printExpr prec x = .ok s)
    (done : String) (index : Nat) : ∃ s, printArgs done index xs = .ok s := by
  induction xs generalizing done index with
  | nil => exact ⟨_, rfl⟩
  | cons x xs ih =>
    rw [List.forall_mem_cons] at h
    obtain ⟨a, ha⟩ := h.1 0
    rw [printArgs, ha]
    exact ih h.2 _ _

/-- Every expression that a text can spell is printed. -/
theorem exists_printExpr {x : Expr} (h : x.Plain) (prec : Nat) : ∃ s, printExpr prec x = .ok s := by
  induction h generalizing prec with
  | neg _ _ ih =>
    obtain ⟨r, hr⟩ := ih signPrecedence
    rw [printExpr, hr]
    exact ⟨_, rfl⟩
  | @pair pos p op n x y _ _ _ ihx ihy =>
    obtain ⟨l, hl⟩ := ihx (precedence op)
    obtain ⟨r, hr⟩ := ihy (precedence op + 1)
    rw [printExpr, hl, hr]
    exact ⟨_, rfl⟩
  | call _ _ ih =>
    rw [printExpr]
    exact exists_printArgs ih _ _
  | _ => exact ⟨_, rfl⟩

/-- The statement is printed if its levels are not too many. An `if` in the line of an `else` is
reached only where the line before it was printed. -/
def StmtWithinDepth (x : Stmt) : Prop :=
  ∀ goesOn depth, depth ≤ maxDepth + 1 → (goesOn = true → depth ≤ maxDepth) →
    WithinDepth depth x.levels (printStmt goesOn depth x)

theorem printBlock_withinDepth {xs : Block} (hxs : ∀ x ∈ xs, StmtWithinDepth x) {depth : Nat}
    (hdepth : depth ≤ maxDepth + 1) : WithinDepth depth (blockLevels xs) (printBlock depth xs) := by
  induction xs with
  | nil => exact .of_ok hdepth rfl
  | cons x xs ih =>
    rw [List.forall_mem_cons] at hxs
    rw [blockLevels, printBlock]
    apply (hxs.1 false depth hdepth nofun).bind
    intro s
    apply (ih hxs.2).followed hdepth
    intro rest
    exact ⟨_, rfl⟩

variable {pos : Pos} {name : String} {x : Expr}

theorem withinDepth_var {v : Var} (h : v.init.isMissing = true ∨ v.init.Plain) : StmtWithinDepth (.var v) := by
  intro goesOn depth hdepth _
  rw [printStmt, printVar]
  apply (indent_withinDepth hdepth).followed hdepth
  intro tabs
  by_cases hmissing : v.init.isMissing = true
  · rw [if_pos hmissing]
    exact ⟨_, rfl⟩
  · obtain ⟨s, hs⟩ := exists_printExpr (h.resolve_left hmissing) 0
    rw [if_neg hmissing, hs]
    exact ⟨_, rfl⟩

theorem withinDepth_assign {nt : Option Ty} (h : x.Plain) : StmtWithinDepth (.assign pos name nt x) := by
  intro goesOn depth hdepth _
  obtain ⟨s, hs⟩ := exists_printExpr h 0
  rw [printStmt, hs]
  apply (indent_withinDepth hdepth).followed hdepth
  intro tabs
  exact ⟨_, rfl⟩

theorem withinDepth_ret (h : x.isMissing = true ∨ x.Plain) : StmtWithinDepth (.ret pos x) := by
  intro goesOn depth hdepth _
  rw [printStmt]
  apply (indent_withinDepth hdepth).followed hdepth
  intro tabs
  by_cases hmissing : x.isMissing = true
  · rw [if_pos hmissing]
    exact ⟨_, rfl⟩
  · obtain ⟨s, hs⟩ := exists_printExpr (h.resolve_left hmissing) 0
    rw [if_neg hmissing, hs]
    exact ⟨_, rfl⟩

theorem withinDepth_expr (h : x.Plain) : StmtWithinDepth (.expr pos x) := by
  intro goesOn depth hdepth _
  obtain ⟨s, hs⟩ := exists_printExpr h 0
  rw [printStmt, hs]
  apply (indent_withinDepth hdepth).followed hdepth
  intro tabs
  exact ⟨_, rfl⟩

def elseLevels : Option Block → Nat
  | none | some [] => 0
  | some more => blockLevels more + if isChain more then 0 else 1

theorem levels_cond (pos : Pos) (test : Expr) (body : Block) (more : Option Block) :
    (Stmt.cond pos test body more).levels = max (blockLevels body + 1) (elseLevels more) := by
  cases more with
  | none => simp [Stmt.levels, elseLevels]
  | some more =>
    cases more with
    | nil => simp [Stmt.levels, elseLevels, isChain, blockLevels]
    | cons x rest => simp [Stmt.levels, elseLevels]

/-- An `else` with a block of its own lies a level below. -/
theorem elseLevels_block {xs : Block} (hne : xs ≠ []) (hchain : isChain xs = false) :
    elseLevels (some xs) = blockLevels xs + 1 := by
  cases xs with
  | nil => exact absurd rfl hne
  | cons x rest => simp [elseLevels, hchain]

theorem withinDepth_cond {test : Expr} {body : Block} {more : Option Block} (htest : test.Plain)
    (hbody : ∀ x ∈ body, StmtWithinDepth x) (hmore : ∀ x ∈ elseStmts more, StmtWithinDepth x) :
    StmtWithinDepth (.cond pos test body more) := by
  intro goesOn depth hdepth hgoes
  obtain ⟨t, ht⟩ := exists_printExpr htest 0
  rw [levels_cond]
  unfold printStmt
  extract_lets after rest
  have hrest : depth ≤ maxDepth → ∀ before,
      WithinDepth depth (max (blockLevels body + 1) (max 1 (elseLevels more))) (rest before) := by
    intro hlevel before
    dsimp only [rest]
    rw [ht]
    apply ((printBlock_withinDepth hbody (Nat.succ_le_succ hlevel)).above.inside .thenBlock).bind
    intro b
    apply (indent_withinDepth hdepth).bind
    intro tabs
    split
    · exact .of_ok hdepth rfl
    · exact .of_ok hdepth rfl
    next pos' test' body' more' =>
      apply WithinDepth.followed hdepth
      · have hnext := hmore _ (List.mem_singleton_self _) true depth hdepth fun _ => hlevel
        simpa [elseLevels, blockLevels, isChain] using hnext
      · intro s
        exact ⟨_, rfl⟩
    next xs hnil hchain =>
      apply WithinDepth.followed hdepth
      · have hnot : isChain xs = false := by
          unfold isChain
          split
          · exact (hchain _ _ _ _ rfl).elim
          · rfl
        rw [elseLevels_block hnil hnot]
        exact (printBlock_withinDepth hmore (Nat.succ_le_succ hlevel)).above.inside .elseBlock
      · intro s
        exact ⟨_, rfl⟩
  have hlevels : max (blockLevels body + 1) (max 1 (elseLevels more)) =
      max (blockLevels body + 1) (elseLevels more) := by omega
  rw [hlevels] at hrest
  cases goesOn with
  | true => exact hrest (hgoes rfl) ""
  | false =>
    by_cases hlast : depth = maxDepth + 1
    · rw [WithinDepth, if_neg (by omega), hlast]
      rfl
    · have hboth := (indent_withinDepth hdepth).bind (hrest (by omega))
      rwa [Nat.max_eq_right (by omega)] at hboth

def PieceWithinDepth : Piece → Prop
  | .one x => StmtWithinDepth x
  | .all xs => ∀ x ∈ xs, StmtWithinDepth x

theorem withinDepth_plain {g : Registry} {p : Piece} (h : Plain g p) : PieceWithinDepth p := by
  induction h with
  | typed _ _ hinit => exact withinDepth_var hinit
  | inferred _ hinit => exact withinDepth_var (.inr hinit)
  | assign _ hx => exact withinDepth_assign hx
  | ret hx => exact withinDepth_ret hx
  | call hname hargs => exact withinDepth_expr (.call hname hargs)
  | cond _ htest _ _ ihbody ihmore => exact withinDepth_cond htest ihbody ihmore
  | nil => exact List.forall_mem_nil _
  | cons _ _ ihx ihrest => exact List.forall_mem_cons.mpr ⟨ihx, ihrest⟩

theorem printFunction_withinDepth {g : Registry} {f : Function} (h : PlainFunction g f) :
    WithinDepth 1 (blockLevels f.body) (printFunction f) := by
  have hbody : ∀ x ∈ f.body, StmtWithinDepth x := withinDepth_plain h.body
  rw [printFunction]
  apply ((printBlock_withinDepth hbody (by decide)).inside .body).followed (by decide)
  intro body
  exact ⟨_, rfl⟩

/-- The functions of a file are printed one after the other, up to the first that lies too deep. -/
theorem printFunctions_fit {g : Registry} {fs : List Function} (h : ∀ f ∈ fs, PlainFunction g f)
    (done : List String → String) :
    WithinDepth 1 ((fs.map fun f => blockLevels f.body).foldr max 0) (do
      let texts ← fs.mapM fun f => Result.inside (.func f.name) (printFunction f)
      return done texts) := by
  induction fs generalizing done with
  | nil => exact .of_ok (by decide) rfl
  | cons f fs ih =>
    rw [List.forall_mem_cons] at h
    have hfirst := (printFunction_withinDepth h.1).inside (.func f.name)
    have hboth := hfirst.bind fun s => ih h.2 fun texts => done (s :: texts)
    simpa [List.mapM_cons] using hboth

theorem printFile_withinDepth {g : Registry} {f : File} (h : ∀ k ∈ f.functions, PlainFunction g k) :
    WithinDepth 1 f.levels (printFile f) :=
  printFunctions_fit h _

end Printer

namespace Parser
open Printer

/-- A file that was parsed without a report is printed unless its functions nest too deep. There is no
other error, and it is always the first level without tabs that is refused. -/
theorem print_of_parse {name : String} {text : Text.Bytes}
    (hquiet : (parse name text).diagnostics = #[]) :
    ((parse name text).file.levels ≤ maxDepth →
      ∃ s, print (.file (parse name text).file) = .ok s) ∧
    (maxDepth < (parse name text).file.levels →
      print (.file (parse name text).file) = .error (.tooDeep (maxDepth + 1))) := by
  have hwithin := printFile_withinDepth (parse_plain hquiet).functions
  unfold WithinDepth at hwithin
  constructor
  · intro hlevels
    rwa [if_pos (by omega)] at hwithin
  · intro hlevels
    rwa [if_neg (by omega)] at hwithin

def chained : Text.Bytes :=
  "f::(){if 0<0{}else if 0<0{}else{f();}}".toList.map fun c => c.toNat.toUInt8

theorem print_of_parse_chained : (parse "p" chained).diagnostics = #[] ∧
    (parse "p" chained).file.levels = 2 ∧ ∃ s, print (.file (parse "p" chained).file) = .ok s := by
  have h : ((parse "p" chained).diagnostics.isEmpty &&
      decide ((parse "p" chained).file.levels = 2)) = true := by
    decide +kernel
  rw [Bool.and_eq_true, Array.isEmpty_iff, decide_eq_true_eq] at h
  exact ⟨h.1, h.2, (print_of_parse h.1).1 (by rw [h.2]; decide)⟩

def nested (n : Nat) : Text.Bytes :=
  ("f::()\x7b" ++ String.join (List.replicate n "if 0<0\x7b") ++ "f();" ++
    String.join (List.replicate (n + 1) "\x7d")).toList.map fun c => c.toNat.toUInt8

/-- Nothing is wrong with fifteen blocks inside each other, but they are not printed. -/
theorem print_nested_fails : (parse "p" (nested 15)).error = none ∧
    (parse "p" (nested 15)).diagnostics = #[] ∧
    print (.file (parse "p" (nested 15)).file) = .error (.tooDeep 16) := by
  have h : ((parse "p" (nested 15)).diagnostics.isEmpty &&
      decide ((parse "p" (nested 15)).file.levels = 16)) = true := by
    decide +kernel
  rw [Bool.and_eq_true, Array.isEmpty_iff, decide_eq_true_eq] at h
  have hplain := parse_plain h.1
  have hwithin := printFile_withinDepth hplain.functions
  rw [WithinDepth, h.2, if_neg (by decide)] at hwithin
  exact ⟨hplain.error, h.1, hwithin⟩

end Parser

end RegisterLang
