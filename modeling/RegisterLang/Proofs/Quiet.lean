/-!
# Computations that report

Checking, planning and emitting are computations with a state that holds what was reported so far.
`Quiet` says that a computation never takes a report back, and what holds of it when it adds none.
-/
namespace RegisterLang

/-- What holds of a computation that reports nothing. Here `count` is the number of reports. -/
def Quiet {σ α : Type} (count : σ → Nat) (m : StateM σ α) (P : σ → α → σ → Prop) : Prop :=
  ∀ s, count s ≤ count (m.run s).2 ∧
    (count (m.run s).2 = count s → P s (m.run s).1 (m.run s).2)

namespace Quiet
variable {σ α β : Type} {count : σ → Nat} {m : StateM σ α} {P P' : σ → α → σ → Prop}

theorem mono (h : Quiet count m P) (hP : ∀ s a s', P s a s' → P' s a s') : Quiet count m P' :=
  fun s => ⟨(h s).1, fun hc => hP _ _ _ ((h s).2 hc)⟩

theorem bind {f : α → StateM σ β} {Q : α → σ → β → σ → Prop} (h : Quiet count m P)
    (hf : ∀ a, Quiet count (f a) (Q a)) :
    Quiet count (m >>= f) fun s b s' => ∃ a s₁, P s a s₁ ∧ Q a s₁ b s' := by
  intro s
  have h₁ := h s
  have h₂ := hf (m.run s).1 (m.run s).2
  change count s ≤ count ((f (m.run s).1).run (m.run s).2).2 ∧
    (count ((f (m.run s).1).run (m.run s).2).2 = count s → _)
  refine ⟨Nat.le_trans h₁.1 h₂.1, fun hc => ?_⟩
  have hq := h₁.1
  have hq' := h₂.1
  exact ⟨_, _, h₁.2 (by omega), h₂.2 (by omega)⟩

/-- A computation that is never quiet cannot be followed by anything that makes it quiet. -/
theorem bind_of_false {f : α → StateM σ β} {Q : α → σ → β → σ → Prop} {R : σ → β → σ → Prop}
    (h : Quiet count m fun _ _ _ => False) (hf : ∀ a, Quiet count (f a) (Q a)) :
    Quiet count (m >>= f) R := by
  refine (h.bind hf).mono ?_
  rintro s b s' ⟨a, s₁, hfalse, -⟩
  exact hfalse.elim

theorem ofPure (a : α) : Quiet count (pure a : StateM σ α) fun s b s' => b = a ∧ s' = s :=
  fun _ => ⟨Nat.le_refl _, fun _ => ⟨rfl, rfl⟩⟩

theorem ofGet : Quiet count (get : StateM σ σ) fun s a s' => a = s ∧ s' = s :=
  fun _ => ⟨Nat.le_refl _, fun _ => ⟨rfl, rfl⟩⟩

theorem ofModify {f : σ → σ} (hf : ∀ s, count (f s) = count s) :
    Quiet count (modify f : StateM σ Unit) fun s _ s' => s' = f s :=
  fun s => ⟨Nat.le_of_eq (hf s).symm, fun _ => rfl⟩

/-- A report is never quiet. -/
theorem ofReport {f : σ → σ} (hf : ∀ s, count (f s) = count s + 1) :
    Quiet count (modify f : StateM σ Unit) fun _ _ _ => False :=
  fun s => ⟨by change count s ≤ count (f s); rw [hf]; omega,
    fun hc => by change count (f s) = count s at hc; rw [hf] at hc; omega⟩

end Quiet

end RegisterLang
