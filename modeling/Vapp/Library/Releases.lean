import Mathlib.Data.List.Perm.Basic

/-! # Giving back what is held

Resources are taken one by one and given back one by one.  A sequence of releases is
balanced if each of them gives back something that is held then, and nothing is held after
the last one.
-/

variable {α : Type} [DecidableEq α]

/-- Each release gives back something that is held, and the last one leaves nothing. -/
def Releases : (held releases : List α) → Prop
  | held, [] => held = []
  | held, r :: rs => r ∈ held ∧ Releases (held.erase r) rs

/-- **Balanced releases** are those of what is held, in any order. -/
theorem releases_iff_perm {releases : List α} : ∀ {held : List α},
    Releases held releases ↔ releases.Perm held := by
  induction releases with
  | nil =>
      intro held
      rw [Releases, List.nil_perm]
  | cons r rs ih =>
      intro held
      rw [Releases, ih, List.cons_perm_iff_perm_erase]
