import Mathlib.Logic.Function.Basic

/-! # Free-running 16-bit counters and ring slots

A counter that is only ever incremented, kept in 16 bits, is the image `of k` of the
number `k` of increments.  Two such counters can be compared and subtracted as if they
were not reduced as long as the true numbers stay less than `2 ^ 16` apart, and a slot
computed from the reduced counter is the slot of the true number when the ring size
divides `2 ^ 16`.
-/
namespace Counter16

/-- The 16-bit counter after `k` increments. -/
def of (k : Nat) : UInt16 := UInt16.ofNat k

@[simp] theorem toNat_of (k : Nat) : (of k).toNat = k % 65536 := by
  simp [of]

@[simp] theorem of_add_one (k : Nat) : of k + 1 = of (k + 1) := by
  simp [of]

@[simp] theorem of_zero : of 0 = 0 := rfl

theorem of_toNat (i : UInt16) : of i.toNat = i := by
  simp [of]

theorem toNat_of_lt {k : Nat} (h : k < 65536) : (of k).toNat = k := by
  rw [toNat_of, Nat.mod_eq_of_lt h]

theorem of_add (a : UInt16) (k : Nat) : a + of k = of (a.toNat + k) := by
  rw [← UInt16.toNat_inj, UInt16.toNat_add, toNat_of, toNat_of, Nat.add_mod_mod]

theorem of_add_of (a b : Nat) : of a + of b = of (a + b) := by
  rw [of_add, ← UInt16.toNat_inj, toNat_of, toNat_of, toNat_of, Nat.mod_add_mod]

/-- Inside a window of `2 ^ 16` the counters agree only when the numbers do. -/
theorem of_eq_of_iff {a b : Nat} (hab : a ≤ b) (hw : b - a < 65536) : of a = of b ↔ a = b := by
  rw [← UInt16.toNat_inj, toNat_of, toNat_of]
  omega

/-- Inside a window of `2 ^ 16` the 16-bit difference is the true one. -/
theorem toNat_of_sub {a b : Nat} (hab : a ≤ b) (hw : b - a < 65536) :
    (of b - of a).toNat = b - a := by
  rw [UInt16.toNat_sub, toNat_of, toNat_of]
  omega

/-- A counter that has not caught up comes closer with every step. -/
theorem toNat_sub_succ_lt {a b : UInt16} (h : a ≠ b) : (b - (a + 1)).toNat < (b - a).toNat := by
  have hne : a.toNat ≠ b.toNat := fun heq => h (UInt16.toNat_inj.mp heq)
  have ha := a.toNat_lt
  have hb := b.toNat_lt
  have hone : (1 : UInt16).toNat = 1 := rfl
  rw [UInt16.toNat_sub, UInt16.toNat_sub, UInt16.toNat_add]
  omega

/-- The slot of a counter is the slot of the true number, across any wrap. -/
theorem slot_of {num : Nat} (hdvd : num ∣ 65536) (k : Nat) : (of k).toNat % num = k % num := by
  rw [toNat_of, Nat.mod_mod_of_dvd k hdvd]

/-- Entries less than one ring apart lie in different slots. -/
theorem slot_ne {num a b : Nat} (hab : a < b) (hw : b < a + num) : a % num ≠ b % num := by
  intro h
  have hsub : (b - a) % num = 0 := Nat.sub_mod_eq_zero_of_mod_eq h.symm
  rw [Nat.mod_eq_of_lt (by omega)] at hsub
  omega

/-- Stepping a slot by one modulo the ring size follows the true number. -/
theorem slot_succ (num k : Nat) : (k % num + 1) % num = (k + 1) % num := by
  rw [Nat.mod_add_mod]

end Counter16
