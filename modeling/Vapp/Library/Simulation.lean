import Vapp.Library.Outcome

/-! # Simulation of one piece of code by another

`y` simulates `x` if it returns whenever `x` does, with a related value.  Nothing is said
of faults, whose reports may differ.  Simulations compose along sequences and loops.
-/
namespace Outcome

variable {ε α β γ δ σ τ : Type}

/-- `y` returns whenever `x` does, with a related value. -/
def Simulates (R : α → β → Prop) (x : Outcome ε α) (y : Outcome ε β) : Prop :=
  ∀ a, x = ret a → ∃ b, y = ret b ∧ R a b

namespace Simulates
variable {R : α → β → Prop} {S : γ → δ → Prop}

theorem ret {a : α} {b : β} (h : R a b) : Simulates R (.ret a : Outcome ε α) (.ret b) := by
  intro a' ha
  cases ha
  exact ⟨b, rfl, h⟩

/-- The same code. -/
theorem refl {R : α → α → Prop} (hR : ∀ a, R a a) (x : Outcome ε α) : Simulates R x x :=
  fun a ha => ⟨a, ha, hR a⟩

/-- The second piece of code returns what the first one does. -/
theorem of_imp {x y : Outcome ε α} (h : ∀ a, x = .ret a → y = .ret a) : Simulates Eq x y :=
  fun a ha => ⟨a, h a ha, rfl⟩

theorem mono {R' : α → β → Prop} {x : Outcome ε α} {y : Outcome ε β} (h : Simulates R x y)
    (himp : ∀ a b, x = .ret a → y = .ret b → R a b → R' a b) : Simulates R' x y := by
  intro a ha
  obtain ⟨b, hb, hR⟩ := h a ha
  exact ⟨b, hb, himp a b ha hb hR⟩

/-- Sequences are simulated part by part. -/
theorem bind {x : Outcome ε α} {y : Outcome ε β} {f : α → Outcome ε γ} {g : β → Outcome ε δ}
    (h : Simulates R x y) (hfg : ∀ a b, x = .ret a → y = .ret b → R a b → Simulates S (f a) (g b)) :
    Simulates S (x >>= f) (y >>= g) := by
  intro c hc
  obtain ⟨a, ha, hf⟩ := bind_eq_ret.mp hc
  obtain ⟨b, hb, hR⟩ := h a ha
  obtain ⟨d, hd, hS⟩ := hfg a b ha hb hR c hf
  exact ⟨d, bind_eq_ret.mpr ⟨b, hb, hd⟩, hS⟩

/-- **The simulation rule for loops**: turns that are simulated make loops that are. -/
theorem loop {I : σ → τ → Prop} {body : σ → Outcome ε (σ ⊕ α)} {body' : τ → Outcome ε (τ ⊕ β)}
    (hbody : ∀ s s', I s s' → Simulates (Sum.LiftRel I R) (body s) (body' s')) (fuel : Nat) :
    ∀ {s : σ} {s' : τ}, I s s' →
      Simulates R (Outcome.loop body fuel s) (Outcome.loop body' fuel s') := by
  induction fuel with
  | zero => exact fun _ _ h => nomatch h
  | succ fuel ih =>
      intro s s' hI
      rw [loop_succ, loop_succ]
      refine (hbody s s' hI).bind fun x y _ _ hxy => ?_
      cases hxy with
      | inl h => exact ih h
      | inr h => exact .ret h

end Simulates

end Outcome
