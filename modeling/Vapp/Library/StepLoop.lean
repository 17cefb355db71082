import Mathlib.Logic.Function.Basic

/-! # Loops given by one turn

A C loop is modelled by what one of its turns does: from a state it either goes on
to the next state or leaves the loop with a result.  `run` executes it with a bound
on the number of turns, which more fuel only extends, and `invariant` says what every
result satisfies.
-/
namespace StepLoop

variable {σ ρ : Type}

/-- At most `fuel` turns from `s`; `none` when the bound is used up first. -/
def run (turn : σ → σ ⊕ ρ) : Nat → σ → Option ρ
  | 0, _ => none
  | fuel + 1, s =>
      match turn s with
      | .inl s' => run turn fuel s'
      | .inr r => some r

variable {turn : σ → σ ⊕ ρ}

@[simp] theorem run_zero (s : σ) : run turn 0 s = none := rfl

theorem run_next {s s' : σ} (h : turn s = .inl s') (fuel : Nat) :
    run turn (fuel + 1) s = run turn fuel s' := by
  simp only [run, h]

theorem run_done {s : σ} {r : ρ} (h : turn s = .inr r) (fuel : Nat) :
    run turn (fuel + 1) s = some r := by
  simp only [run, h]

/-- More fuel does not change a result. -/
theorem run_mono {fuel : Nat} {s : σ} {r : ρ} (h : run turn fuel s = some r) (extra : Nat) :
    run turn (fuel + extra) s = some r := by
  induction fuel generalizing s with
  | zero => cases h
  | succ fuel ih =>
      rw [show fuel + 1 + extra = fuel + extra + 1 from by omega]
      cases ht : turn s with
      | inl s' =>
          rw [run_next ht] at h ⊢
          exact ih h
      | inr r' =>
          rw [run_done ht] at h ⊢
          exact h

theorem run_of_le {a b : Nat} {s : σ} {r : ρ} (hab : a ≤ b) (h : run turn a s = some r) :
    run turn b s = some r := by
  obtain ⟨d, rfl⟩ := Nat.exists_eq_add_of_le hab
  exact run_mono h d

/-- **The invariant rule.**  What every turn keeps, and what holds on leaving the
loop from such a state, holds of every result. -/
theorem invariant {I : σ → Prop} {Q : ρ → Prop}
    (next : ∀ s s', I s → turn s = .inl s' → I s')
    (done : ∀ s r, I s → turn s = .inr r → Q r)
    {fuel : Nat} {s : σ} {r : ρ} (hs : I s) (h : run turn fuel s = some r) : Q r := by
  induction fuel generalizing s with
  | zero => cases h
  | succ fuel ih =>
      cases ht : turn s with
      | inl s' =>
          rw [run_next ht] at h
          exact ih (next s s' hs ht) h
      | inr r' =>
          rw [run_done ht] at h
          exact Option.some.inj h ▸ done s r' hs ht

end StepLoop
