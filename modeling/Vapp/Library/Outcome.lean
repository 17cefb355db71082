import Vapp.Library.StepLoop

/-! # What executing a piece of code ends in

A call returns a value, stops at a fault, or has not returned within the fuel it was
given.  Sequencing stops at the first call that does not return.
-/

/-- The result of executing code whose loops are given fuel. -/
inductive Outcome (ε α : Type) where
  | ret (a : α)
  | fault (e : ε)
  | spent
  deriving DecidableEq, Repr

namespace Outcome

variable {ε α β γ : Type}

/-- Sequencing: go on with the value, if there is one. -/
protected def bind (x : Outcome ε α) (f : α → Outcome ε β) : Outcome ε β :=
  match x with
  | ret a => f a
  | fault e => fault e
  | spent => spent

instance : Monad (Outcome ε) where
  pure := ret
  bind := Outcome.bind

@[simp] theorem pure_eq (a : α) : (pure a : Outcome ε α) = ret a := rfl
@[simp] theorem ret_bind (a : α) (f : α → Outcome ε β) : (ret a >>= f) = f a := rfl
@[simp] theorem fault_bind (e : ε) (f : α → Outcome ε β) : (fault e >>= f) = fault e := rfl
@[simp] theorem spent_bind (f : α → Outcome ε β) : ((spent : Outcome ε α) >>= f) = spent := rfl

/-- A sequence returns only through a value of its first part. -/
theorem bind_eq_ret {x : Outcome ε α} {f : α → Outcome ε β} {b : β} :
    (x >>= f) = ret b ↔ ∃ a, x = ret a ∧ f a = ret b := by
  cases x with
  | ret a => exact ⟨fun h => ⟨a, rfl, h⟩, fun ⟨_, ha, h⟩ => by cases ha; exact h⟩
  | fault e => exact ⟨nofun, fun ⟨_, ha, _⟩ => nomatch ha⟩
  | spent => exact ⟨nofun, fun ⟨_, ha, _⟩ => nomatch ha⟩

/-- A sequence stops at a fault of either part. -/
theorem bind_eq_fault {x : Outcome ε α} {f : α → Outcome ε β} {e : ε} :
    (x >>= f) = fault e ↔ x = fault e ∨ ∃ a, x = ret a ∧ f a = fault e := by
  cases x with
  | ret a =>
      refine ⟨fun h => .inr ⟨a, rfl, h⟩, ?_⟩
      rintro (h | ⟨_, ha, h⟩)
      · cases h
      · cases ha
        exact h
  | fault e' =>
      refine ⟨fun h => .inl (by cases h; rfl), ?_⟩
      rintro (h | ⟨_, ha, _⟩)
      · cases h
        rfl
      · cases ha
  | spent =>
      refine ⟨nofun, ?_⟩
      rintro (h | ⟨_, ha, _⟩)
      · cases h
      · cases ha

theorem bind_assoc (x : Outcome ε α) (f : α → Outcome ε β) (g : β → Outcome ε γ) :
    ((x >>= f) >>= g) = x >>= fun a => f a >>= g := by
  cases x <;> rfl

/-- Go on only if the condition holds; otherwise stop at `e`. -/
def require (p : Prop) [Decidable p] (e : ε) : Outcome ε Unit :=
  if p then ret () else fault e

@[simp] theorem require_pos {p : Prop} [Decidable p] (h : p) (e : ε) :
    require p e = ret () := if_pos h

@[simp] theorem require_neg {p : Prop} [Decidable p] (h : ¬ p) (e : ε) :
    require p e = fault e := if_neg h

theorem require_eq_ret {p : Prop} [Decidable p] {e : ε} {u : Unit} :
    require p e = ret u ↔ p := by
  unfold require
  split
  · exact ⟨fun _ => ‹p›, fun _ => rfl⟩
  · exact ⟨nofun, fun h => absurd h ‹¬ p›⟩

/-! ### Loops whose turns may fail

The body of such a loop either asks for another turn (`inl`), leaves with a result
(`inr`) or ends the whole call. -/

section Loop
variable {σ ρ : Type}

/-- One turn of the loop, as `StepLoop` wants it. -/
def turn (body : σ → Outcome ε (σ ⊕ ρ)) (s : σ) : σ ⊕ Outcome ε ρ :=
  match body s with
  | ret (.inl s') => .inl s'
  | ret (.inr r) => .inr (ret r)
  | fault e => .inr (fault e)
  | spent => .inr spent

/-- The loop with at most `fuel` turns. -/
def loop (body : σ → Outcome ε (σ ⊕ ρ)) (fuel : Nat) (s : σ) : Outcome ε ρ :=
  (StepLoop.run (turn body) fuel s).getD spent

variable {body : σ → Outcome ε (σ ⊕ ρ)}

theorem turn_eq_inl {s s' : σ} : turn body s = .inl s' ↔ body s = ret (.inl s') := by
  unfold turn
  split <;> simp_all

theorem turn_eq_inr_ret {s : σ} {r : ρ} : turn body s = .inr (ret r) ↔ body s = ret (.inr r) := by
  unfold turn
  split <;> simp_all

@[simp] theorem loop_zero (s : σ) : loop body 0 s = spent := rfl

/-- The loop is its first turn followed by the rest of the loop. -/
theorem loop_succ (fuel : Nat) (s : σ) :
    loop body (fuel + 1) s =
      body s >>= fun x => match x with
        | .inl s' => loop body fuel s'
        | .inr r => ret r := by
  have hrun (x) (h : turn body s = x) : loop body (fuel + 1) s =
      (x.elim (StepLoop.run (turn body) fuel) some).getD spent := by
    cases x with
    | inl s' => exact congrArg (·.getD spent) (StepLoop.run_next h fuel)
    | inr r => exact congrArg (·.getD spent) (StepLoop.run_done h fuel)
  rw [hrun _ rfl, turn]
  cases body s with
  | ret x => cases x <;> rfl
  | fault e => rfl
  | spent => rfl

theorem run_of_loop_eq_ret {fuel : Nat} {s : σ} {r : ρ} (h : loop body fuel s = ret r) :
    StepLoop.run (turn body) fuel s = some (ret r) := by
  unfold loop at h
  cases hr : StepLoop.run (turn body) fuel s with
  | none => rw [hr] at h; cases h
  | some x => rw [hr] at h; exact congrArg some h

/-- **The invariant rule** for loops whose turns may fail. -/
theorem loop_invariant {I : σ → Prop} {Q : ρ → Prop}
    (next : ∀ s s', I s → body s = ret (.inl s') → I s')
    (exit : ∀ s r, I s → body s = ret (.inr r) → Q r)
    {fuel : Nat} {s : σ} {r : ρ} (hs : I s) (h : loop body fuel s = ret r) : Q r := by
  refine StepLoop.invariant (Q := fun x => ∀ r, x = ret r → Q r) (I := I) ?_ ?_ hs
    (run_of_loop_eq_ret h) r rfl
  · intro s s' hI ht
    exact next s s' hI (turn_eq_inl.mp ht)
  · intro s x hI ht r hx
    subst hx
    exact exit s r hI (turn_eq_inr_ret.mp ht)

/-- **The divergence rule**: a loop that always asks for another turn, or ends the
call, never returns. -/
theorem loop_ne_ret {I : σ → Prop}
    (next : ∀ s, I s → (∀ r, body s ≠ ret (.inr r)) ∧ ∀ s', body s = ret (.inl s') → I s')
    {s : σ} (hs : I s) (fuel : Nat) (r : ρ) : loop body fuel s ≠ ret r := by
  intro h
  exact loop_invariant (Q := fun _ => False) (fun s s' hI hb => (next s hI).2 s' hb)
    (fun s r hI hb => (next s hI).1 r hb) hs h

/-- More fuel does not change a returned value. -/
theorem loop_mono {a b : Nat} {s : σ} {r : ρ} (hab : a ≤ b) (h : loop body a s = ret r) :
    loop body b s = ret r := by
  unfold loop
  rw [StepLoop.run_of_le hab (run_of_loop_eq_ret h)]
  rfl

end Loop

end Outcome
