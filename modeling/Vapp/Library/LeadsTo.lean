import Vapp.Library.Transition

/-! # Runs without end

What a run that goes on for ever comes to.  `LeadsTo` is proved with a measure: the steps of
one kind bring it down, no step brings it up, and steps of that kind are taken again and again
(`Endless.leadsTo`).
-/
namespace Transition

variable {σ ℓ : Type} {step : σ → ℓ → σ → Prop}

/-- A run that goes on for ever. -/
def Endless (step : σ → ℓ → σ → Prop) (st : Nat → σ) (lb : Nat → ℓ) : Prop :=
  ∀ n, step (st n) (lb n) (st (n + 1))

/-- Where `P` holds, `Q` holds at that time or later. -/
def LeadsTo (st : Nat → σ) (P Q : σ → Prop) : Prop := ∀ n, P (st n) → ∃ m, n ≤ m ∧ Q (st m)

section LeadsTo
variable {st : Nat → σ} {lb : Nat → ℓ} {P Q R : σ → Prop}

theorem LeadsTo.trans (h : LeadsTo st P Q) (h' : LeadsTo st Q R) : LeadsTo st P R :=
  fun n hP => by
    obtain ⟨m, hm, hQ⟩ := h n hP
    exact (h' m hQ).imp fun _ => And.imp_left (Nat.le_trans hm)

theorem LeadsTo.of_imp (h : ∀ s, P s → Q s) : LeadsTo st P Q :=
  fun n hP => ⟨n, Nat.le_refl n, h _ hP⟩

/-- It is enough to start where `Q` does not hold yet. -/
theorem LeadsTo.of_not (h : LeadsTo st (fun s => P s ∧ ¬ Q s) Q) : LeadsTo st P Q := by
  intro n hP
  by_cases hQ : Q (st n)
  · exact ⟨n, Nat.le_refl n, hQ⟩
  · exact h n ⟨hP, hQ⟩

/-- What every step keeps holds for ever, where all labels satisfy `A`. -/
theorem Endless.invariant (h : Endless step st lb) {A : ℓ → Prop}
    (keep : ∀ s l t, P s → A l → step s l t → P t) {n : Nat} (hP : P (st n))
    (hA : ∀ d, A (lb (n + d))) (d : Nat) : P (st (n + d)) := by
  induction d with
  | zero => exact hP
  | succ d ih => exact keep _ _ _ ih (hA d) (h (n + d))

/-- What every step keeps holds for ever. -/
theorem Endless.stable (h : Endless step st lb) (keep : ∀ s l t, P s → step s l t → P t)
    {n : Nat} (hP : P (st n)) (d : Nat) : P (st (n + d)) :=
  h.invariant (A := fun _ => True) (fun s l t hs _ hst => keep s l t hs hst) hP
    (fun _ => trivial) d

/-- What holds at one time and not at a later one ends with a step in between. -/
theorem Endless.ends (h : Endless step st lb) {n d : Nat} (hP : P (st n))
    (hnot : ¬ P (st (n + d))) :
    ∃ m, n ≤ m ∧ P (st m) ∧ ¬ P (st (m + 1)) ∧ step (st m) (lb m) (st (m + 1)) := by
  induction d with
  | zero => exact absurd hP hnot
  | succ d ih =>
      by_cases hd : P (st (n + d))
      · exact ⟨n + d, Nat.le_add_right _ _, hd, hnot, h _⟩
      · exact ih hd

/-- Every state is reached by a run. -/
theorem Endless.run (h : Endless step st lb) (n : Nat) : ∃ ls, Run step (st 0) ls (st n) := by
  induction n with
  | zero => exact ⟨[], .nil⟩
  | succ n ih =>
      obtain ⟨ls, hrun⟩ := ih
      exact ⟨_, hrun.snoc (h n)⟩

/-- `P` holds for some time and the measure does not grow, unless `Q` comes before. -/
theorem Endless.holds (h : Endless step st lb) (μ : σ → Nat)
    (hstep : ∀ s l t, P s → step s l t → Q t ∨ P t ∧ μ t ≤ μ s) {n : Nat} (hP : P (st n))
    (d : Nat) : (∃ m, n ≤ m ∧ Q (st m)) ∨ P (st (n + d)) ∧ μ (st (n + d)) ≤ μ (st n) := by
  induction d with
  | zero => exact .inr ⟨hP, Nat.le_refl _⟩
  | succ d ih =>
      rcases ih with hQ | ⟨hd, hle⟩
      · exact .inl hQ
      · rcases hstep _ _ _ hd (h (n + d)) with hQ | ⟨hnext, hle'⟩
        · exact .inl ⟨n + d + 1, by omega, hQ⟩
        · exact .inr ⟨hnext, Nat.le_trans hle' hle⟩

/-- **The rule for fair runs.**  While `P` holds, the steps of a kind `A` bring the measure down
and no step brings it up, and steps of this kind come again and again: then `Q` comes. -/
theorem Endless.leadsTo (h : Endless step st lb) {A : ℓ → Prop} (μ : σ → Nat)
    (hfair : ∀ n, P (st n) → ∃ m, n ≤ m ∧ A (lb m))
    (hstep : ∀ s l t, P s → step s l t → Q t ∨ P t ∧ μ t ≤ μ s ∧ (A l → μ t < μ s)) :
    LeadsTo st P Q := by
  suffices hbelow : ∀ k n, μ (st n) < k → P (st n) → ∃ m, n ≤ m ∧ Q (st m) from
    fun n => hbelow _ n (Nat.lt_succ_self _)
  intro k
  induction k with
  | zero => exact fun n hlt => absurd hlt (Nat.not_lt_zero _)
  | succ k ih =>
      intro n hlt hP
      obtain ⟨m, hnm, hA⟩ := hfair n hP
      obtain ⟨d, rfl⟩ := Nat.exists_eq_add_of_le hnm
      have hholds := h.holds (Q := Q) μ (fun s l t hs hst =>
        (hstep s l t hs hst).imp_right fun hall => ⟨hall.1, hall.2.1⟩) hP d
      rcases hholds with hQ | ⟨hd, hle⟩
      · exact hQ
      · rcases hstep _ _ _ hd (h (n + d)) with hQ | ⟨hnext, -, hdown⟩
        · exact ⟨n + d + 1, by omega, hQ⟩
        · have hA' := hdown hA
          obtain ⟨m, hm, hQ⟩ := ih (n + d + 1) (by omega) hnext
          exact ⟨m, by omega, hQ⟩

end LeadsTo

/-- A run that comes back to where it began can go on for ever. -/
theorem Run.endless {s : σ} {ls : List ℓ} (h : Run step s ls s) (hne : ls ≠ []) :
    ∃ st lb, st 0 = s ∧ Endless step st lb ∧ ∀ n, lb n ∈ ls := by
  obtain ⟨l₀, -⟩ := List.exists_mem_of_ne_nil ls hne
  obtain ⟨st, lb, h0, hlast, hmem, hpath⟩ := h.path l₀
  have hpos : 0 < ls.length := List.length_pos_iff.mpr hne
  refine ⟨fun n => st (n % ls.length), fun n => lb (n % ls.length), ?_, fun n => ?_, fun n =>
    hmem _ (Nat.mod_lt n hpos)⟩
  · show st (0 % ls.length) = s
    rw [Nat.zero_mod, h0]
  · have hstep := hpath (n % ls.length) (Nat.mod_lt n hpos)
    have hnext : st ((n + 1) % ls.length) = st (n % ls.length + 1) := by
      have hmod : (n + 1) % ls.length = (n % ls.length + 1) % ls.length := by
        rw [Nat.mod_add_mod]
      rw [hmod]
      rcases Nat.lt_or_ge (n % ls.length + 1) ls.length with hlt | hge
      · rw [Nat.mod_eq_of_lt hlt]
      · have hend : n % ls.length + 1 = ls.length :=
          Nat.le_antisymm (Nat.succ_le_of_lt (Nat.mod_lt n hpos)) hge
        rw [hend, Nat.mod_self, h0, hlast]
    show step _ _ (st ((n + 1) % ls.length))
    rw [hnext]
    exact hstep

/-- A run that ends where an endless one begins. -/
theorem Run.then_endless {s : σ} {ls : List ℓ} {st : Nat → σ} {lb : Nat → ℓ}
    (h : Run step s ls (st 0)) (hend : Endless step st lb) :
    ∃ st' lb', st' 0 = s ∧ Endless step st' lb' ∧
      ∀ n, st' (ls.length + n) = st n ∧ lb' (ls.length + n) = lb n := by
  obtain ⟨st1, lb1, h0, hlast, -, hpath⟩ := h.path (lb 0)
  refine ⟨fun n => if n < ls.length then st1 n else st (n - ls.length),
    fun n => if n < ls.length then lb1 n else lb (n - ls.length), ?_, fun n => ?_, fun n => ?_⟩
  · show (if 0 < ls.length then st1 0 else st (0 - ls.length)) = s
    split
    · exact h0
    · rename_i hnone
      rw [Nat.zero_sub, ← hlast, Nat.eq_zero_of_not_pos hnone, h0]
  · show step (if n < ls.length then st1 n else st (n - ls.length))
      (if n < ls.length then lb1 n else lb (n - ls.length))
      (if n + 1 < ls.length then st1 (n + 1) else st (n + 1 - ls.length))
    by_cases hlt : n < ls.length
    · rw [if_pos hlt, if_pos hlt]
      by_cases hlt' : n + 1 < ls.length
      · rw [if_pos hlt']
        exact hpath n hlt
      · have heq : n + 1 = ls.length := by omega
        have hstep := hpath n hlt
        rw [heq, hlast] at hstep
        rw [if_neg hlt', heq, Nat.sub_self]
        exact hstep
    · rw [if_neg hlt, if_neg hlt, if_neg (by omega), Nat.sub_add_comm (Nat.not_lt.mp hlt)]
      exact hend _
  · have hge : ¬ ls.length + n < ls.length := Nat.not_lt.mpr (Nat.le_add_right _ _)
    refine ⟨?_, ?_⟩
    · exact (if_neg hge).trans (by rw [Nat.add_sub_cancel_left])
    · exact (if_neg hge).trans (by rw [Nat.add_sub_cancel_left])

end Transition
