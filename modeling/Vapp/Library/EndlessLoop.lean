import Mathlib.Data.Fintype.Pigeonhole
import Mathlib.Logic.Relation
import Mathlib.Order.OrderIsoNat
import Vapp.Library.Outcome

/-! # When a loop ends

`Outcome.loop` is `spent` for every fuel exactly when the loop goes on for ever.  It ends if
and only if its start is accessible along its turns (`loop_ends_iff_acc`), so an endless
loop has an endless sequence of states, and over finitely many places that sequence comes
back to one of them (`exists_recurrence`).  For a loop whose turns are bounded, and whose
body has a loop of its own, it is the bodies that decide (`loop_ends_iff_turns`).
-/
namespace Outcome

variable {ε α β σ ρ : Type}

/-! ### Code without a loop -/

theorem bind_ne_spent {x : Outcome ε α} {f : α → Outcome ε β} (hx : x ≠ spent)
    (hf : ∀ a, x = ret a → f a ≠ spent) : (x >>= f) ≠ spent := by
  cases x with
  | ret a => exact hf a rfl
  | fault e => exact nofun
  | spent => exact absurd rfl hx

/-- A sequence goes on for ever in either part. -/
theorem bind_eq_spent {x : Outcome ε α} {f : α → Outcome ε β} :
    (x >>= f) = spent ↔ x = spent ∨ ∃ a, x = ret a ∧ f a = spent := by
  constructor
  · intro h
    cases x with
    | ret a => exact .inr ⟨a, rfl, h⟩
    | fault e => cases h
    | spent => exact .inl rfl
  · rintro (rfl | ⟨a, rfl, h⟩)
    · rfl
    · exact h

theorem require_ne_spent {p : Prop} [Decidable p] {e : ε} : require p e ≠ spent := by
  unfold require
  split
  · exact nofun
  · exact nofun

/-! ### A single loop -/

section Single
variable {body : σ → Outcome ε (σ ⊕ ρ)} {s s' : σ}

/-- The turn that leads from one state to the next; the later state comes first. -/
def Turn (body : σ → Outcome ε (σ ⊕ ρ)) (s' s : σ) : Prop := body s = ret (.inl s')

theorem loop_of_turn (h : Turn body s' s) (fuel : Nat) :
    loop body (fuel + 1) s = loop body fuel s' := by
  rw [loop_succ, show body s = ret (.inl s') from h]
  rfl

/-- More fuel does not change what a loop ends in. -/
theorem loop_of_le {a b : Nat} (hab : a ≤ b) (h : loop body a s ≠ spent) :
    loop body b s = loop body a s := by
  unfold loop at h ⊢
  cases hr : StepLoop.run (turn body) a s with
  | none =>
      rw [hr] at h
      exact absurd rfl h
  | some x => rw [StepLoop.run_of_le hab hr]

/-- **A loop ends exactly where its turns cannot go on for ever.** -/
theorem loop_ends_iff_acc (hbody : ∀ s, body s ≠ spent) (s : σ) :
    (∃ fuel, loop body fuel s ≠ spent) ↔ Acc (Turn body) s := by
  constructor
  · rintro ⟨fuel, h⟩
    induction fuel generalizing s with
    | zero => exact absurd rfl h
    | succ fuel ih =>
        refine .intro s fun s' hturn => ih s' ?_
        rwa [loop_of_turn hturn] at h
  · intro h
    induction h with
    | intro s _ ih =>
        cases hb : body s with
        | spent => exact absurd hb (hbody s)
        | fault e =>
            refine ⟨1, ?_⟩
            rw [loop_succ, hb]
            exact nofun
        | ret x =>
            cases x with
            | inr r =>
                refine ⟨1, ?_⟩
                rw [loop_succ, hb]
                exact nofun
            | inl s' =>
                obtain ⟨fuel, hfuel⟩ := ih s' hb
                exact ⟨fuel + 1, by rwa [loop_of_turn hb]⟩

/-- The states of a loop that goes on for ever. -/
theorem exists_turns_of_not_acc (h : ¬ Acc (Turn body) s) :
    ∃ f : Nat → σ, f 0 = s ∧ ∀ n, Turn body (f (n + 1)) (f n) :=
  not_acc_iff_exists_descending_chain.mp h

end Single

/-- A sequence over finitely many places comes back to one of them. -/
theorem exists_recurrence [Finite α] (f : Nat → α) : ∃ a b, a < b ∧ f a = f b := by
  obtain ⟨x, y, hne, heq⟩ := Finite.exists_ne_map_eq_of_infinite f
  rcases Nat.lt_or_gt_of_ne hne with h | h
  · exact ⟨x, y, h, heq⟩
  · exact ⟨y, x, h, heq.symm⟩

/-! ### A bounded loop around others -/

section Nested
variable {body : Nat → σ → Outcome ε (σ ⊕ ρ)} {s s' : σ}

/-- A turn of the outer loop, with whatever fuel it takes. -/
def NestedTurn (body : Nat → σ → Outcome ε (σ ⊕ ρ)) (s s' : σ) : Prop :=
  ∃ fuel, body fuel s = ret (.inl s')

/-- More fuel does not change what a body ends in. -/
def FuelMono (body : Nat → σ → Outcome ε (σ ⊕ ρ)) : Prop :=
  ∀ a b s, a ≤ b → body a s ≠ spent → body b s = body a s

/-- More fuel for the bodies does not change what the loop ends in. -/
theorem loop_eq_of_le (mono : FuelMono body) {a b : Nat} (hab : a ≤ b) (n : Nat) : ∀ {s : σ},
    loop (body a) n s ≠ spent → loop (body b) n s = loop (body a) n s := by
  induction n with
  | zero => exact fun _ => rfl
  | succ n ih =>
      intro s h
      have hs : body a s ≠ spent := fun hb => h (by rw [loop_succ, hb]; rfl)
      rw [loop_succ] at h
      rw [loop_succ, loop_succ, mono a b s hab hs]
      cases hb : body a s with
      | spent => exact absurd hb hs
      | fault e => rfl
      | ret x =>
          cases x with
          | inr r => rfl
          | inl s' =>
              rw [hb] at h
              exact ih h

/-- **A bounded loop ends exactly if every body that it comes to does.** -/
theorem loop_ends_iff_turns (mono : FuelMono body) {μ : σ → Nat}
    (dec : ∀ {s s' : σ}, NestedTurn body s s' → μ s' < μ s) {n : Nat} {s : σ} (hn : μ s < n) :
    (∃ fuel, loop (body fuel) n s ≠ spent) ↔
      ∀ s', Relation.ReflTransGen (NestedTurn body) s s' → ∃ fuel, body fuel s' ≠ spent := by
  induction n generalizing s with
  | zero => exact absurd hn (Nat.not_lt_zero _)
  | succ n ih =>
      -- what the rest of the loop does after a turn
      have hrest {fuel : Nat} {s' : σ} (hb : body fuel s = ret (.inl s')) :
          (∃ fuel, loop (body fuel) n s' ≠ spent) ↔
            ∀ t, Relation.ReflTransGen (NestedTurn body) s' t → ∃ fuel, body fuel t ≠ spent :=
        ih (Nat.lt_of_lt_of_le (dec ⟨fuel, hb⟩) (Nat.le_of_lt_succ hn))
      constructor
      · rintro ⟨fuel, h⟩ t ht
        have hs : body fuel s ≠ spent := fun hb => h (by rw [loop_succ, hb]; rfl)
        rcases Relation.ReflTransGen.cases_head ht with rfl | ⟨s', ⟨fuel', hturn⟩, hs't⟩
        · exact ⟨fuel, hs⟩
        · have hb : body fuel s = ret (.inl s') := by
            rcases Nat.le_total fuel fuel' with hle | hle
            · rw [← mono _ _ s hle hs, hturn]
            · rw [mono _ _ s hle (by rw [hturn]; exact nofun), hturn]
          rw [loop_succ, hb] at h
          exact (hrest hb).mp ⟨fuel, h⟩ t hs't
      · intro h
        obtain ⟨fuel, hs⟩ := h s .refl
        cases hb : body fuel s with
        | spent => exact absurd hb hs
        | fault e =>
            refine ⟨fuel, ?_⟩
            rw [loop_succ, hb]
            exact nofun
        | ret x =>
            cases x with
            | inr r =>
                refine ⟨fuel, ?_⟩
                rw [loop_succ, hb]
                exact nofun
            | inl s' =>
                obtain ⟨fuel', hloop⟩ := (hrest hb).mpr fun t ht => h t (.head ⟨fuel, hb⟩ ht)
                refine ⟨max fuel fuel', ?_⟩
                rw [loop_succ, mono _ _ s (Nat.le_max_left ..) hs, hb]
                show loop (body (max fuel fuel')) n s' ≠ spent
                rwa [loop_eq_of_le mono (Nat.le_max_right fuel fuel') n hloop]

end Nested

end Outcome
