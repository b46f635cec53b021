import RegisterLang.Lowering.Layout
import RegisterLang.Proofs.Trees

/-!
# Variables that are declared before they are read

Statements are followed along all ways that control may take, with the variables that are declared for
certain. What is read has to be among them, and a function that returns a value has to do so on every
way through its body.
-/
namespace RegisterLang

mutual

def Expr.readsOnly (declared : List String) : Expr → Bool
  | .ident _ _ name => declared.contains name
  | .op _ _ _ _ left right => left.readsOnly declared && right.readsOnly declared
  | .call _ _ _ _ args => argsReadOnly declared args
  | .missing | .int .. | .float .. | .double .. | .char .. | .string .. => true
termination_by structural x => x

def argsReadOnly (declared : List String) : List Expr → Bool
  | [] => true
  | a :: rest => a.readsOnly declared && argsReadOnly declared rest
termination_by structural x => x

end

/-- What is known where statements end: the variables that are declared on every way there, or that no
way leads there. -/
abbrev Reach := Option (List String)

def Reach.join : Reach → Reach → Reach
  | none, r => r
  | r, none => r
  | some d, some d' => some (d.filter d'.contains)

mutual

/-- What is known after a statement of a function that `gives` a value, or not. It fails where a
variable is read that may not have been declared, or where a value that is to be returned is missing. -/
def Stmt.reach? (gives : Bool) (declared : List String) : Stmt → Option Reach
  | .var v => if v.init.readsOnly declared then some (some (v.name :: declared)) else none
  | .assign _ _ _ x | .expr _ x => if x.readsOnly declared then some (some declared) else none
  | .ret _ x => if x.readsOnly declared && !(gives && x.isMissing) then some none else none
  | .cond _ test body none =>
    if test.readsOnly declared then
      (blockReach? gives declared body).map fun r => r.join (some declared)
    else none
  | .cond _ test body (some more) =>
    if test.readsOnly declared then
      (blockReach? gives declared body).bind fun r =>
        (blockReach? gives declared more).map fun r' => r.join r'
    else none
  | .other .. => some (some declared)
termination_by structural x => x

def blockReach? (gives : Bool) (declared : List String) : List Stmt → Option Reach
  | [] => some (some declared)
  | x :: rest =>
    (x.reach? gives declared).bind fun
      | none => some none
      | some declared => blockReach? gives declared rest
termination_by structural x => x

end

def Piece.reach? (gives : Bool) (declared : List String) : Piece → Option Reach
  | .one x => x.reach? gives declared
  | .all xs => blockReach? gives declared xs

def Function.gives (f : Function) : Bool := (Lowering.regType? f.ret).isSome

def Function.isDefinite (f : Function) : Bool :=
  (blockReach? f.gives (f.params.map Var.name) f.body).any fun r => !f.gives || r.isNone

/-- Values have the types of their targets, and variables are declared before they are read. -/
def Function.isCareful (f : Function) : Bool := f.targetsTyped && f.isDefinite

/-- A branch without an `else` is followed like one with an empty one. -/
theorem reach?_cond (gives : Bool) (declared : List String) (pos : Pos) (test : Expr) (body : Block)
    (more : Option Block) : (Stmt.cond pos test body more).reach? gives declared =
      if test.readsOnly declared then
        (blockReach? gives declared body).bind fun r =>
          (blockReach? gives declared (elseStmts more)).map fun r' => r.join r'
      else none := by
  cases more with
  | none =>
    rw [Stmt.reach?]
    congr 1
    exact Option.map_eq_bind
  | some more => rfl

/-- What is declared on both of two ways is declared on each. -/
theorem Reach.of_join {r r' : Reach} {d : List String} (hd : d ∈ r ∨ d ∈ r') :
    ∃ d', r.join r' = some d' ∧ ∀ name ∈ d', name ∈ d := by
  cases r with
  | none =>
    rcases hd with hd | hd
    · cases hd
    · exact ⟨d, hd, fun _ h => h⟩
  | some d₁ =>
    cases r' with
    | none =>
      rcases hd with hd | hd
      · exact ⟨d, hd, fun _ h => h⟩
      · cases hd
    | some d₂ =>
      refine ⟨_, rfl, fun name hname => ?_⟩
      obtain ⟨h₁, h₂⟩ := List.mem_filter.mp hname
      rcases hd with hd | hd
      · cases hd
        exact h₁
      · cases hd
        exact List.contains_iff_mem.mp h₂

/-- No way leads out of a block that ends with a `return`. -/
theorem blockReach?_of_getLast? {gives : Bool} {declared : List String} {xs : Block} {r : Reach}
    (h : blockReach? gives declared xs = some r) {pos : Pos} {x : Expr}
    (hlast : xs.getLast? = some (.ret pos x)) : r = none := by
  induction xs generalizing declared with
  | nil => cases hlast
  | cons y rest ih =>
    rw [blockReach?, Option.bind_eq_some_iff] at h
    obtain ⟨r', hy, h⟩ := h
    cases r' with
    | none =>
      cases h
      rfl
    | some declared' =>
      cases rest with
      | nil =>
        cases hlast
        rw [Stmt.reach?] at hy
        split at hy <;> cases hy
      | cons z zs => exact ih h hlast

end RegisterLang
