import RegisterLang.Proofs.Execution
import RegisterLang.Proofs.Reference

/-!
# Runs that follow an evaluation

An evaluation says what a run has to lead to. A value is to be found in the machine, and then frames
or registers are used up on the way only where there is no room for them. Of an undefined evaluation
or an ill-formed tree nothing is expected but that the run ends, and an evaluation that was too deep
to finish says something only of a machine that has not as many frames. `Meets` is the judgement for
one outcome, and `Meets.bind` how it follows the evaluator from one part to the next.
-/
namespace RegisterLang

def RunFault.isOverflow : RunFault → Bool
  | .frames _ | .window .. => true
  | _ => false

def RunFault.isDivision : RunFault → Bool
  | .divisionByZero .. => true
  | _ => false

namespace Machine
open Reference

section
variable {α β : Type} {room deep : Prop}

def Open (deep : Prop) (r : Outcome α) : Prop :=
  r = .undefined ∨ r = .illFormed ∨ r = .tooDeep ∧ deep

def Fulfils (deep : Prop) (r : Outcome α) (P : α → Prop) : Prop :=
  match r with
  | .value a => P a
  | .divisionByZero => False
  | .undefined | .illFormed => True
  | .tooDeep => deep

def Permits (room deep : Prop) (r : Outcome α) (e : RunFault) : Prop :=
  match r with
  | .value _ => e.isOverflow ∧ ¬ room
  | .divisionByZero => e.isOverflow ∧ ¬ room ∨ e.isDivision
  | .undefined | .illFormed => e.isOverflow ∨ e.isDivision
  | .tooDeep => e.isOverflow ∨ e.isDivision ∧ deep

/-- An outcome that is open, or is the one of an evaluation under a condition. -/
def Expected (deep : Prop) (r : Outcome α) (C : Prop) (r' : Outcome α) : Prop :=
  Open deep r ∨ C ∧ r = r'

theorem Open.fulfils {r : Outcome α} (h : Open deep r) (P : α → Prop) : Fulfils deep r P := by
  rcases h with rfl | rfl | ⟨rfl, hd⟩
  · trivial
  · trivial
  · exact hd

theorem Open.permits {r : Outcome α} (h : Open deep r) {e : RunFault}
    (he : e.isOverflow ∨ e.isDivision) : Permits room deep r e := by
  rcases h with rfl | rfl | ⟨rfl, hd⟩
  · exact he
  · exact he
  · exact he.imp_right fun h => ⟨h, hd⟩

/-- Every outcome allows that there is no room. -/
theorem permits_overflow (r : Outcome α) {e : RunFault} (he : e.isOverflow) (hroom : ¬ room) :
    Permits room deep r e := by
  cases r with
  | value => exact ⟨he, hroom⟩
  | divisionByZero => exact .inl ⟨he, hroom⟩
  | undefined | illFormed => exact .inl he
  | tooDeep => exact .inl he

/-- What less room allows. -/
theorem Permits.of_room {room' : Prop} (hroom : room → room') {r : Outcome α} {e : RunFault}
    (h : Permits room' deep r e) : Permits room deep r e := by
  cases r with
  | value => exact ⟨h.1, fun hr => h.2 (hroom hr)⟩
  | divisionByZero => exact h.imp_left fun h => ⟨h.1, fun hr => h.2 (hroom hr)⟩
  | undefined | illFormed => exact h
  | tooDeep => exact h

/-- What a part allows the whole allows. -/
theorem Permits.bind {sub : Outcome α} {e : RunFault} (h : Permits room deep sub e)
    (f : α → Outcome β) : Permits room deep (sub >>= f) e := by
  cases sub with
  | value a => exact permits_overflow _ h.1 h.2
  | divisionByZero => exact h
  | undefined | illFormed => exact h
  | tooDeep => exact h

theorem Expected.mono {r r' : Outcome α} {C C' : Prop} (h : Expected deep r C r') (hC : C → C') :
    Expected deep r C' r' :=
  h.imp_right fun ⟨hc, hr⟩ => ⟨hC hc, hr⟩

theorem Expected.of_illFormed_or {r r' r'' : Outcome α} {C : Prop} (h : Expected deep r C r')
    (hr : r' = .illFormed ∨ r' = r'') : Expected deep r C r'' := by
  rcases h with h | ⟨hC, rfl⟩
  · exact .inl h
  · exact hr.imp (fun hr => .inr (.inl hr)) fun hr => ⟨hC, hr⟩

/-- A part of the tree that can only be `b`. -/
theorem Expected.of_part {r : Outcome β} {C : Prop} {o : Option α} {f : α → Outcome β}
    (h : Expected deep r C (Outcome.part o >>= f)) {b : α}
    (ho : C → ∀ a, o = some a → a = b) : Expected deep r (C ∧ o = some b) (f b) := by
  rcases h with h | ⟨hC, hr⟩
  · exact .inl h
  · cases o with
    | none => exact .inl (.inr (.inl hr))
    | some a =>
      obtain rfl := ho hC a rfl
      exact .inr ⟨⟨hC, rfl⟩, hr⟩

/-- What is read is the value. -/
theorem Expected.value_of_read [Inhabited α] {r : Outcome α} {C : Prop} {o : Option α}
    (h : Expected deep r C (Outcome.read o)) :
    ∃ a, Expected deep r (C ∧ o = some a) (.value a) := by
  rcases h with h | ⟨hC, hr⟩
  · exact ⟨default, .inl h⟩
  · cases o with
    | none => exact ⟨default, .inl (.inl hr)⟩
    | some a => exact ⟨a, .inr ⟨⟨hC, rfl⟩, hr⟩⟩

end

/-- A machine with a program, what a `return` without a value is taken to give, and whether there is
room for what is evaluated and there are frames beyond the depth of the evaluation. -/
structure Setting where
  program : Program
  limits : Limits
  bare : Bare
  room : Prop
  deep : Prop

/-- A run leads to a state of the kind `Q` of which `P` holds for the value of the evaluation. -/
def Meets {α : Type} (c : Setting) (r : Outcome α) (Q : State → Prop) (P : α → State → Prop)
    (s : State) : Prop :=
  Leads c.program c.limits (fun s' => Q s' ∧ Fulfils c.deep r fun a => P a s')
    (Permits c.room c.deep r) s

namespace Meets
variable {α β : Type} {c : Setting} {r : Outcome α} {Q Q' : State → Prop} {P P' : α → State → Prop}
  {s s' : State}

theorem mono (h : Meets c r Q P s) (hQ : ∀ s', Q s' → Q' s') (hP : ∀ s' a, Q s' → P a s' → P' a s') :
    Meets c r Q' P' s := by
  refine Leads.mono h (fun s' hs => ⟨hQ s' hs.1, ?_⟩) fun _ he => he
  cases r with
  | value a => exact hP s' a hs.1 hs.2
  | divisionByZero => exact hs.2
  | undefined | illFormed => trivial
  | tooDeep => exact hs.2

theorem here {C : Prop} {a : α} (hr : Expected c.deep r C (.value a)) (hQ : Q s) (hP : C → P a s) :
    Meets c r Q P s := by
  refine Leads.here ⟨hQ, ?_⟩
  rcases hr with hr | ⟨hC, rfl⟩
  · exact hr.fulfils _
  · exact hP hC

/-- Code that cannot fail comes first. -/
theorem after {R : State → Prop} (h : Leads c.program c.limits R (fun _ => False) s)
    (hnext : ∀ s', R s' → Meets c r Q P s') : Meets c r Q P s :=
  (h.mono (fun _ hR => hR) fun _ he => he.elim).trans hnext

/-- Code that cannot fail comes last. -/
theorem andThen (h : Meets c r Q P s) (hnext : ∀ s', Q s' → Leads c.program c.limits
      (fun s'' => Q' s'' ∧ ∀ a, P a s' → P' a s'') (fun _ => False) s') : Meets c r Q' P' s := by
  refine Leads.trans h ?_
  rintro s' ⟨hQ, hP⟩
  refine (hnext s' hQ).mono (fun s'' hs => ⟨hs.1, ?_⟩) fun _ he => he.elim
  cases r with
  | value a => exact hs.2 a hP
  | divisionByZero => exact hP
  | undefined | illFormed => trivial
  | tooDeep => exact hP

/-- A part of the evaluation is followed, and then the rest of it with the value of the part. -/
theorem bind [Inhabited β] {C : Prop} {sub : Outcome β} {f : β → Outcome α} {Q₁ : State → Prop}
    {P₁ : β → State → Prop} (hr : Expected c.deep r C (sub >>= f))
    (hsub : ∀ r', Expected c.deep r' C sub → Meets c r' Q₁ P₁ s)
    (hnext : ∀ s' b, Q₁ s' → Expected c.deep r (C ∧ P₁ b s') (f b) → Meets c r Q P s') :
    Meets c r Q P s := by
  rcases hr with hr | ⟨hC, rfl⟩
  · -- nothing is expected of the part either
    refine Leads.trans (Leads.mono (hsub .undefined (.inl (.inl rfl))) (fun _ hs => hs) ?_) ?_
    · exact fun e he => hr.permits he
    · exact fun s' hs => hnext s' default hs.1 (.inl hr)
  · refine Leads.trans (Leads.mono (hsub sub (.inr ⟨hC, rfl⟩)) (fun _ hs => hs)
      fun _ he => he.bind f) ?_
    rintro s' ⟨hQ, hP⟩
    cases sub with
    | value b => exact hnext s' b hQ (.inr ⟨⟨hC, hP⟩, rfl⟩)
    | divisionByZero => exact hP.elim
    | undefined => exact hnext s' default hQ (.inl (.inl rfl))
    | illFormed => exact hnext s' default hQ (.inl (.inr (.inl rfl)))
    | tooDeep => exact hnext s' default hQ (.inl (.inr (.inr ⟨rfl, hP⟩)))

/-- In another setting of the same machine, where there is less room. -/
theorem change {c' : Setting} (h : Meets c r Q P s) (hprogram : c'.program = c.program)
    (hlimits : c'.limits = c.limits) (hroom : c'.room → c.room) (hdeep : c'.deep ↔ c.deep) :
    Meets c' r Q P s := by
  have hdeep : c'.deep = c.deep := propext hdeep
  unfold Meets
  rw [hprogram, hlimits, hdeep]
  exact Leads.mono h (fun _ hs => hs) fun _ he => he.of_room hroom

/-- A run that ends is enough for an outcome that is open. -/
theorem of_open {c' : Setting} {P' : β → State → Prop} {r' : Outcome β}
    (h : Meets c .undefined Q P s) (hprogram : c'.program = c.program)
    (hlimits : c'.limits = c.limits) (hr : Open c'.deep r') : Meets c' r' Q P' s := by
  unfold Meets
  rw [hprogram, hlimits]
  exact Leads.mono h (fun _ hs => ⟨hs.1, hr.fulfils _⟩) fun _ he => hr.permits he

end Meets
end Machine
end RegisterLang
