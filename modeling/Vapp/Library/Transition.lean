import Mathlib.Data.List.Induction
import Mathlib.Logic.Function.Basic

/-! # Labelled transition systems

A system is a relation `step s l t`; a run is a list of labels that leads from one
state to another.  Safety of a system is proved once by `Run.invariant`: what holds
at the start and is kept by every step, given what is known of its label, holds in
every state a run reaches.
-/
namespace Transition

variable {σ ℓ : Type} (step : σ → ℓ → σ → Prop)

/-- The labels `ls`, one after the other, lead from `s` to the second state. -/
inductive Run (s : σ) : List ℓ → σ → Prop
  | nil : Run s [] s
  | snoc {ls : List ℓ} {t u : σ} {l : ℓ} (h : Run s ls t) (hs : step t l u) : Run s (ls ++ [l]) u

variable {step}

theorem Run.one {s t : σ} {l : ℓ} (h : step s l t) : Run step s [l] t := .snoc .nil h

theorem Run.append {s t u : σ} {ls ms : List ℓ} (h : Run step s ls t) (h' : Run step t ms u) :
    Run step s (ls ++ ms) u := by
  induction h' with
  | nil => rwa [List.append_nil]
  | snoc _ hs ih =>
      rw [← List.append_assoc]
      exact .snoc ih hs

/-- A run can be cut at any place. -/
theorem Run.split {s u : σ} {ls ms : List ℓ} (h : Run step s (ls ++ ms) u) :
    ∃ t, Run step s ls t ∧ Run step t ms u := by
  induction ms using List.reverseRecOn generalizing u with
  | nil =>
      rw [List.append_nil] at h
      exact ⟨u, h, .nil⟩
  | append_singleton ms m ih =>
      rw [← List.append_assoc] at h
      generalize hls : ls ++ ms ++ [m] = all at h
      cases h with
      | nil => exact absurd hls (by simp)
      | @snoc pre v _ l hpre hstep =>
          obtain ⟨rfl, hl⟩ := List.append_inj' hls rfl
          cases hl
          obtain ⟨t, h1, h2⟩ := ih hpre
          exact ⟨t, h1, .snoc h2 hstep⟩

/-- A run of no label stays where it is. -/
theorem Run.eq_of_nil {s t : σ} (h : Run step s [] t) : t = s := by
  generalize hls : ([] : List ℓ) = ls at h
  cases h with
  | nil => rfl
  | snoc _ _ => exact absurd hls (by simp)

/-- A run of one label is a step. -/
theorem Run.of_singleton {s t : σ} {l : ℓ} (h : Run step s [l] t) : step s l t := by
  generalize hls : [l] = ls at h
  cases h with
  | nil => cases hls
  | @snoc pre u _ m hpre hstep =>
      obtain ⟨rfl, hl⟩ := List.append_inj' (show [] ++ [l] = pre ++ [m] from hls) rfl
      cases hl
      rwa [hpre.eq_of_nil] at hstep

/-- **The invariant rule**, for runs whose labels all satisfy `A`. -/
theorem Run.invariant {I : σ → Prop} {A : ℓ → Prop} {s t : σ} {ls : List ℓ}
    (keep : ∀ t l u, I t → A l → step t l u → I u)
    (hs : I s) (h : Run step s ls t) (hA : ∀ l ∈ ls, A l) : I t := by
  induction h with
  | nil => exact hs
  | @snoc ls t u l _ hstep ih =>
      exact keep t l u (ih fun m hm => hA m (List.mem_append_left _ hm))
        (hA l (List.mem_append_right _ (List.mem_singleton.mpr rfl))) hstep

/-- **The simulation rule.**  If every step from a state of the invariant is matched by
a run of the abstract system between the images, so is every run. -/
theorem Run.simulate {τ m : Type} {step' : τ → m → τ → Prop} {I : σ → Prop} {A : ℓ → Prop}
    (abs : σ → τ)
    (keep : ∀ t l u, I t → A l → step t l u → I u)
    (sim : ∀ t l u, I t → A l → step t l u → ∃ ms, Run step' (abs t) ms (abs u))
    {s t : σ} {ls : List ℓ} (hs : I s) (h : Run step s ls t) (hA : ∀ l ∈ ls, A l) :
    ∃ ms, Run step' (abs s) ms (abs t) := by
  induction h with
  | nil => exact ⟨[], .nil⟩
  | @snoc ls t u l hrun hstep ih =>
      have hpre : ∀ l ∈ ls, A l := fun m hm => hA m (List.mem_append_left _ hm)
      have hlast : A l := hA l (List.mem_append_right _ (List.mem_singleton.mpr rfl))
      obtain ⟨ms, hms⟩ := ih hpre
      obtain ⟨ms', hms'⟩ := sim t l u (hrun.invariant keep hs hpre) hlast hstep
      exact ⟨ms ++ ms', hms.append hms'⟩

/-- **The simulation rule for relations.**  If every step from a related state is matched by a
run of the other system to a related state, so is every run. -/
theorem Run.simulate_rel {τ m : Type} {step' : τ → m → τ → Prop} {R : σ → τ → Prop}
    (sim : ∀ s l t x, R s x → step s l t → ∃ ms y, Run step' x ms y ∧ R t y)
    {s t : σ} {x : τ} {ls : List ℓ} (hR : R s x) (h : Run step s ls t) :
    ∃ ms y, Run step' x ms y ∧ R t y := by
  induction h with
  | nil => exact ⟨[], x, .nil, hR⟩
  | snoc _ hs ih =>
      obtain ⟨ms, y, hrun, hy⟩ := ih
      obtain ⟨ms', z, hrun', hz⟩ := sim _ _ _ y hy hs
      exact ⟨ms ++ ms', z, hrun.append hrun', hz⟩

/-- What every step keeps holds in every state a run reaches. -/
theorem Run.preserves {I : σ → Prop} {s t : σ} {ls : List ℓ}
    (keep : ∀ t l u, I t → step t l u → I u)
    (hs : I s) (h : Run step s ls t) : I t :=
  h.invariant (A := fun _ => True) (fun t l u ht _ hstep => keep t l u ht hstep) hs
    fun _ _ => trivial

/-- A run of a system is one of every system with more steps. -/
theorem Run.mono {step' : σ → ℓ → σ → Prop} {s t : σ} {ls : List ℓ}
    (hle : ∀ s l t, step s l t → step' s l t) (h : Run step s ls t) : Run step' s ls t := by
  induction h with
  | nil => exact .nil
  | snoc _ hs ih => exact .snoc ih (hle _ _ _ hs)

/-- The image of a run in another system. -/
theorem Run.map {τ m : Type} {step' : τ → m → τ → Prop} (f : σ → τ) (g : ℓ → m)
    (hle : ∀ s l t, step s l t → step' (f s) (g l) (f t)) {s t : σ} {ls : List ℓ}
    (h : Run step s ls t) : Run step' (f s) (ls.map g) (f t) := by
  induction h with
  | nil => exact .nil
  | snoc _ hs ih =>
      rw [List.map_append]
      exact ih.snoc (hle _ _ _ hs)

/-- What is known of the label of every step is known of the labels of a run. -/
theorem Run.label {A : ℓ → Prop} {s t : σ} {ls : List ℓ} (hA : ∀ s l t, step s l t → A l)
    (h : Run step s ls t) : ∀ l ∈ ls, A l := by
  induction h with
  | nil => exact nofun
  | snoc _ hs ih =>
      intro l hl
      rcases List.mem_append.mp hl with hl | hl
      · exact ih l hl
      · rw [List.mem_singleton.mp hl]
        exact hA _ _ _ hs

/-- The steps of a run whose labels all satisfy `A`. -/
theorem Run.with_label {A : ℓ → Prop} {s t : σ} {ls : List ℓ} (h : Run step s ls t)
    (hA : ∀ l ∈ ls, A l) : Run (fun s l t => step s l t ∧ A l) s ls t := by
  induction h with
  | nil => exact .nil
  | snoc _ hs ih =>
      exact .snoc (ih fun l hl => hA l (List.mem_append_left _ hl))
        ⟨hs, hA _ (List.mem_append_right _ (List.mem_singleton.mpr rfl))⟩

/-! ### Runs with what their steps give off -/

/-- The system that also writes down what each step gives off. -/
def Noting {α : Type} (step : σ → ℓ → σ → Prop) (out : σ → ℓ → List α) (s : σ × List α) (l : ℓ)
    (t : σ × List α) : Prop := step s.1 l t.1 ∧ t.2 = s.2 ++ out s.1 l

section Noting
variable {α : Type} {out : σ → ℓ → List α} {s t : σ} {ls : List ℓ}

/-- Every run gives off something. -/
theorem Run.noting (out : σ → ℓ → List α) (h : Run step s ls t) (xs : List α) :
    ∃ ys, Run (Noting step out) (s, xs) ls (t, ys) := by
  induction h with
  | nil => exact ⟨xs, .nil⟩
  | @snoc ls t u l _ hs ih =>
      obtain ⟨ys, hys⟩ := ih
      exact ⟨ys ++ out t l, hys.snoc ⟨hs, rfl⟩⟩

/-- What it gives off is no part of a run. -/
theorem Run.of_noting {x y : σ × List α} (h : Run (Noting step out) x ls y) :
    Run step x.1 ls y.1 := by
  induction h with
  | nil => exact .nil
  | snoc _ hs ih => exact ih.snoc hs.1

end Noting

/-! ### Runs with the states they go through -/

/-- The first `n` steps of a sequence of states and labels. -/
def Path (step : σ → ℓ → σ → Prop) (st : Nat → σ) (lb : Nat → ℓ) (n : Nat) : Prop :=
  ∀ i, i < n → step (st i) (lb i) (st (i + 1))

section Path
variable {st : Nat → σ} {lb : Nat → ℓ} {n : Nat}

/-- Every run goes through some states. -/
theorem Run.path {s t : σ} {ls : List ℓ} (l₀ : ℓ) (h : Run step s ls t) :
    ∃ st lb, st 0 = s ∧ st ls.length = t ∧ (∀ i, i < ls.length → lb i ∈ ls) ∧
      Path step st lb ls.length := by
  induction h with
  | nil => exact ⟨fun _ => s, fun _ => l₀, rfl, rfl, fun _ h => absurd h (Nat.not_lt_zero _),
      fun _ h => absurd h (Nat.not_lt_zero _)⟩
  | @snoc ls t u l _ hs ih =>
      obtain ⟨st, lb, h0, hn, hmem, hpath⟩ := ih
      rw [List.length_append, List.length_singleton]
      refine ⟨fun i => if i ≤ ls.length then st i else u,
        fun i => if i < ls.length then lb i else l, ?_, ?_, fun i hi => ?_, fun i hi => ?_⟩
      · exact (if_pos (Nat.zero_le _)).trans h0
      · exact if_neg (Nat.not_succ_le_self _)
      · show (if i < ls.length then lb i else l) ∈ ls ++ [l]
        by_cases hlt : i < ls.length
        · rw [if_pos hlt]
          exact List.mem_append_left _ (hmem i hlt)
        · rw [if_neg hlt]
          exact List.mem_append_right _ (List.mem_singleton.mpr rfl)
      · show step (if i ≤ ls.length then st i else u) (if i < ls.length then lb i else l)
          (if i + 1 ≤ ls.length then st (i + 1) else u)
        by_cases hlt : i < ls.length
        · rw [if_pos (Nat.le_of_lt hlt), if_pos hlt, if_pos (Nat.succ_le_of_lt hlt)]
          exact hpath i hlt
        · obtain rfl : i = ls.length := by omega
          rw [if_pos (Nat.le_refl _), if_neg hlt, if_neg (Nat.not_succ_le_self _), hn]
          exact hs

/-- The invariant rule, state by state. -/
theorem Path.invariant {I : σ → Prop} {A : ℓ → Prop}
    (keep : ∀ s l t, I s → A l → step s l t → I t) (h0 : I (st 0)) (h : Path step st lb n)
    (hA : ∀ i, i < n → A (lb i)) : ∀ i, i ≤ n → I (st i) := by
  intro i
  induction i with
  | zero => exact fun _ => h0
  | succ i ih => exact fun hi => keep _ _ _ (ih (by omega)) (hA i hi) (h i hi)

/-- **The rule for exact conditions.**  If each step from a state of the property keeps it
exactly when it meets a condition, then the property holds all the way exactly when all
steps meet the condition. -/
theorem Path.forall_iff {I P : σ → Prop} {A : ℓ → Prop} {C : σ → ℓ → Prop}
    (keep : ∀ s l t, I s → A l → step s l t → I t)
    (exact : ∀ s l t, I s → A l → P s → step s l t → (P t ↔ C s l))
    (hI : I (st 0)) (hP : P (st 0)) (h : Path step st lb n) (hA : ∀ i, i < n → A (lb i)) :
    (∀ i, i ≤ n → P (st i)) ↔ ∀ i, i < n → C (st i) (lb i) := by
  have hinv := h.invariant keep hI hA
  constructor
  · intro hall i hi
    exact (exact _ _ _ (hinv i (by omega)) (hA i hi) (hall i (by omega)) (h i hi)).mp
      (hall (i + 1) hi)
  · intro hC i
    induction i with
    | zero => exact fun _ => hP
    | succ i ih =>
        intro hi
        exact (exact _ _ _ (hinv i (by omega)) (hA i hi) (ih (by omega)) (h i hi)).mpr (hC i hi)

end Path

end Transition
