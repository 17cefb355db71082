import Vapp.Library.Transition

/-! # Names of objects

A directory binds names to objects.  A name is opened, and bound to a new object if it is not
bound; or it is unlinked, and its object lives on without it.  Who opens a name gets the object
of an earlier one exactly where no one has unlinked it in the meantime.
-/

/-- The object that each name is bound to, and the next new object.  No object has two names. -/
structure Names (ν : Type) where
  bound : ν → Option Nat
  next : Nat
  fresh : ∀ {n o}, bound n = some o → o < next
  injective : ∀ {m n o}, bound m = some o → bound n = some o → m = n

namespace Names

variable {ν : Type} [DecidableEq ν]

/-- No name is bound. -/
def empty : Names ν where
  bound _ := none
  next := 0
  fresh h := by cases h
  injective h := by cases h

/-- A name is bound to a new object. -/
def bind (s : Names ν) (n : ν) : Names ν where
  bound := Function.update s.bound n (some s.next)
  next := s.next + 1
  fresh {m o} h := by
    by_cases hm : m = n
    · rw [hm, Function.update_self] at h
      cases h
      exact Nat.lt_succ_self _
    · rw [Function.update_of_ne hm] at h
      exact Nat.lt_succ_of_lt (s.fresh h)
  injective {m m' o} h h' := by
    by_cases hm : m = n
    · by_cases hm' : m' = n
      · rw [hm, hm']
      · rw [hm, Function.update_self] at h
        rw [Function.update_of_ne hm'] at h'
        cases h
        exact absurd (s.fresh h') (Nat.lt_irrefl _)
    · rw [Function.update_of_ne hm] at h
      by_cases hm' : m' = n
      · rw [hm', Function.update_self] at h'
        cases h'
        exact absurd (s.fresh h) (Nat.lt_irrefl _)
      · rw [Function.update_of_ne hm'] at h'
        exact s.injective h h'

/-- The object of a name, a new one if it has none. -/
def get (s : Names ν) (n : ν) : Nat × Names ν :=
  match s.bound n with
  | some o => (o, s)
  | none => (s.next, s.bind n)

/-- The name is taken away. -/
def unlink (s : Names ν) (n : ν) : Names ν where
  bound := Function.update s.bound n none
  next := s.next
  fresh {m o} h := by
    by_cases hm : m = n
    · rw [hm, Function.update_self] at h
      cases h
    · rw [Function.update_of_ne hm] at h
      exact s.fresh h
  injective {m m' o} h h' := by
    by_cases hm : m = n
    · rw [hm, Function.update_self] at h
      cases h
    · rw [Function.update_of_ne hm] at h
      by_cases hm' : m' = n
      · rw [hm', Function.update_self] at h'
        cases h'
      · rw [Function.update_of_ne hm'] at h'
        exact s.injective h h'

/-- What is done to the names: `get n o` got the object `o`. -/
inductive Label (ν : Type) where
  | get (n : ν) (o : Nat)
  | unlink (n : ν)

inductive Step : Names ν → Label ν → Names ν → Prop
  | get (s : Names ν) (n : ν) : Step s (.get n (s.get n).1) (s.get n).2
  | unlink (s : Names ν) (n : ν) : Step s (.unlink n) (s.unlink n)

variable {s t : Names ν} {m n : ν} {o o' : Nat} {ls : List (Label ν)}

/-- The name has the object that was got. -/
theorem get_bound (s : Names ν) (n : ν) : (s.get n).2.bound n = some (s.get n).1 := by
  cases h : s.bound n with
  | some o =>
      rw [get, h]
      exact h
  | none =>
      rw [get, h]
      exact Function.update_self ..

theorem get_bound_of_ne (h : m ≠ n) : (s.get n).2.bound m = s.bound m := by
  cases hn : s.bound n with
  | some o => rw [get, hn]
  | none =>
      rw [get, hn]
      exact Function.update_of_ne h _ _

theorem next_le_get (s : Names ν) (n : ν) : s.next ≤ (s.get n).2.next := by
  cases h : s.bound n with
  | some o => simp [get, h]
  | none => simp [get, h, bind]

theorem unlink_bound (s : Names ν) (n : ν) : (s.unlink n).bound n = none :=
  Function.update_self ..

theorem unlink_bound_of_ne (h : m ≠ n) : (s.unlink n).bound m = s.bound m :=
  Function.update_of_ne h _ _

/-- An object of before is got exactly where the name is bound to it. -/
theorem get_eq_iff (ho : o < s.next) : (s.get n).1 = o ↔ s.bound n = some o := by
  cases h : s.bound n with
  | some o' => simp [get, h]
  | none =>
      have hne : s.next ≠ o := Nat.ne_of_gt ho
      simp [get, h, hne]

theorem next_le_of_run (h : Transition.Run Step s ls t) : s.next ≤ t.next := by
  induction h with
  | nil => exact Nat.le_refl _
  | @snoc ls t u l _ hstep ih =>
      refine Nat.le_trans ih ?_
      cases hstep with
      | get m => exact next_le_get t m
      | unlink m => exact Nat.le_refl _

/-- A name that does not have an object of before never gets it. -/
theorem not_bound_of_run (h : Transition.Run Step s ls t) (hs : s.bound n ≠ some o)
    (ho : o < s.next) : t.bound n ≠ some o ∧ o < t.next := by
  induction h with
  | nil => exact ⟨hs, ho⟩
  | @snoc ls t u l _ hstep ih =>
      obtain ⟨ht, hlt⟩ := ih
      cases hstep with
      | get m =>
          refine ⟨?_, Nat.lt_of_lt_of_le hlt (next_le_get t m)⟩
          by_cases hm : m = n
          · subst hm
            rw [get_bound]
            exact fun heq => ht ((get_eq_iff hlt).mp (Option.some.inj heq))
          · rw [get_bound_of_ne (Ne.symm hm)]
            exact ht
      | unlink m =>
          refine ⟨?_, hlt⟩
          by_cases hm : n = m
          · subst hm
            rw [unlink_bound]
            exact nofun
          · rw [unlink_bound_of_ne hm]
            exact ht

/-- **A name keeps its object until it is unlinked**, and does not get it back. -/
theorem bound_iff_of_run (h : Transition.Run Step s ls t) (hs : s.bound n = some o) :
    t.bound n = some o ↔ .unlink n ∉ ls := by
  induction h with
  | nil => simp [hs]
  | @snoc ls t u l hpre hstep ih =>
      have hlt : o < t.next := Nat.lt_of_lt_of_le (s.fresh hs) (next_le_of_run hpre)
      cases hstep with
      | get m =>
          have hkeep : (t.get m).2.bound n = some o ↔ t.bound n = some o := by
            by_cases hm : m = n
            · subst hm
              rw [get_bound, Option.some_inj]
              exact get_eq_iff hlt
            · rw [get_bound_of_ne (Ne.symm hm)]
          rw [hkeep, ih]
          simp
      | unlink m =>
          by_cases hm : n = m
          · subst hm
            simp [unlink_bound]
          · rw [unlink_bound_of_ne hm, ih]
            simp [hm]

/-- **Two that open a name get one object** exactly where it is the same name and nobody has
unlinked it in between. -/
theorem object_eq_iff (h : Transition.Run Step s (.get m o :: ls ++ [.get n o']) t) :
    o = o' ↔ m = n ∧ .unlink m ∉ ls := by
  have hcut : Transition.Run Step s (([.get m o] ++ ls) ++ [.get n o']) t := h
  obtain ⟨u, hpre, hlast⟩ := hcut.split
  obtain ⟨v, hfirst, hmid⟩ := hpre.split
  have hv : v.bound m = some o := by
    cases hfirst.of_singleton with
    | get _ => exact get_bound s m
  have ho' : o < u.next → (o' = o ↔ u.bound n = some o) := by
    intro ho
    cases hlast.of_singleton with
    | get _ => exact get_eq_iff ho
  have hlt : o < u.next := Nat.lt_of_lt_of_le (v.fresh hv) (next_le_of_run hmid)
  rw [eq_comm, ho' hlt]
  by_cases hm : m = n
  · subst hm
    simp [bound_iff_of_run hmid hv]
  · have hn : v.bound n ≠ some o := fun heq => hm (v.injective hv heq)
    simp [hm, (not_bound_of_run hmid hn (v.fresh hv)).1]

/-- What the steps of a system do to names that it holds, its runs do. -/
theorem run_of_steps {σ ℓ : Type} {step : σ → ℓ → σ → Prop} (names : σ → Names ν)
    {U : ν → ℓ → Prop}
    (hstep : ∀ s l t, step s l t → ∃ ms, Transition.Run Step (names s) ms (names t) ∧
      ∀ n, .unlink n ∈ ms ↔ U n l)
    {s t : σ} {ls : List ℓ} (h : Transition.Run step s ls t) :
    ∃ ms, Transition.Run Step (names s) ms (names t) ∧
      ∀ n, .unlink n ∈ ms ↔ ∃ l ∈ ls, U n l := by
  induction h with
  | nil => exact ⟨[], .nil, by simp⟩
  | @snoc ls t u l _ hlast ih =>
      obtain ⟨ms, hrun, hunlink⟩ := ih
      obtain ⟨ms', hrun', hunlink'⟩ := hstep _ _ _ hlast
      refine ⟨ms ++ ms', hrun.append hrun', fun n => ?_⟩
      simp only [List.mem_append, hunlink, hunlink', List.mem_singleton, or_and_right,
        exists_or, exists_eq_left]

end Names
