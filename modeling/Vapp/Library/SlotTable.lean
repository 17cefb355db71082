import Mathlib.Data.Fintype.Card
import Mathlib.Data.List.FinRange
import Mathlib.Logic.Function.Basic

/-! # Tables with a fixed number of slots

An entry is put into such a table by overwriting the first slot that is free, and taken out
by overwriting the first slot that holds it.  Entries have keys, one of which marks the free
slots.  What a table holds is unambiguous as long as no key but that one occurs twice.
-/
namespace SlotTable

variable {n : Nat} {α κ : Type} {l : Fin n → α} {p : α → Bool} {x y : α}

/-- Overwrite the first slot that satisfies `p`, if there is one. -/
def replaceFirst (p : α → Bool) (x : α) (l : Fin n → α) : Fin n → α :=
  match (List.finRange n).find? fun i => p (l i) with
  | none => l
  | some i => Function.update l i x

/-- Either no slot satisfies `p`, or one that does is overwritten. -/
theorem replaceFirst_cases (p : α → Bool) (x : α) (l : Fin n → α) :
    ((∀ i, p (l i) = false) ∧ replaceFirst p x l = l) ∨
    ∃ i, p (l i) = true ∧ replaceFirst p x l = Function.update l i x := by
  unfold replaceFirst
  cases hfind : (List.finRange n).find? fun i => p (l i) with
  | none =>
      refine .inl ⟨fun i => ?_, rfl⟩
      exact Bool.eq_false_iff.mpr (List.find?_eq_none.mp hfind i (List.mem_finRange i))
  | some i => exact .inr ⟨i, List.find?_some (p := fun i => p (l i)) hfind, rfl⟩

/-! ### What the table holds -/

/-- An entry that is overwritten by none keeps its slot. -/
theorem holds_of_holds (hy : p y = false) (h : ∃ i, l i = y) : ∃ i, replaceFirst p x l i = y := by
  obtain ⟨i, hi⟩ := h
  rcases replaceFirst_cases p x l with ⟨-, heq⟩ | ⟨j, hj, heq⟩
  · exact ⟨i, by rw [heq, hi]⟩
  · have hij : i ≠ j := by
      rintro rfl
      rw [hi, hy] at hj
      cases hj
    exact ⟨i, by rw [heq, Function.update_of_ne hij, hi]⟩

/-- An entry of the table afterwards is the new one or was there before. -/
theorem holds_before (h : ∃ i, replaceFirst p x l i = y) : y = x ∨ ∃ i, l i = y := by
  obtain ⟨i, hi⟩ := h
  rcases replaceFirst_cases p x l with ⟨-, heq⟩ | ⟨j, -, heq⟩
  · rw [heq] at hi
    exact .inr ⟨i, hi⟩
  · rw [heq] at hi
    by_cases hij : i = j
    · subst hij
      rw [Function.update_self] at hi
      exact .inl hi.symm
    · rw [Function.update_of_ne hij] at hi
      exact .inr ⟨i, hi⟩

/-- The new entry is there if a slot was found for it. -/
theorem holds_new (h : ∃ i, p (l i) = true) : ∃ i, replaceFirst p x l i = x := by
  rcases replaceFirst_cases p x l with ⟨hnone, -⟩ | ⟨j, -, heq⟩
  · obtain ⟨i, hi⟩ := h
    rw [hnone i] at hi
    cases hi
  · exact ⟨j, by rw [heq, Function.update_self]⟩

/-! ### The number of free slots -/

/-- The number of slots that satisfy `p`. -/
def count (p : α → Bool) (l : Fin n → α) : Nat := (Finset.univ.filter fun i => p (l i) = true).card

theorem exists_of_count_pos (h : 0 < count p l) : ∃ i, p (l i) = true := by
  obtain ⟨i, hi⟩ := Finset.card_pos.mp h
  exact ⟨i, (Finset.mem_filter.mp hi).2⟩

/-- An entry that does not satisfy `p` takes one of the slots. -/
theorem count_replaceFirst (hx : p x = false) (h : 0 < count p l) :
    count p (replaceFirst p x l) + 1 = count p l := by
  obtain ⟨k, hk⟩ := exists_of_count_pos h
  rcases replaceFirst_cases p x l with ⟨hnone, -⟩ | ⟨i, hi, heq⟩
  · rw [hnone k] at hk
    cases hk
  · have herase : (Finset.univ.filter fun j => p (Function.update l i x j) = true) =
        (Finset.univ.filter fun j => p (l j) = true).erase i := by
      ext j
      rw [Finset.mem_erase, Finset.mem_filter, Finset.mem_filter]
      by_cases hji : j = i
      · subst hji
        simp [hx]
      · simp [hji]
    rw [count, heq, herase]
    exact Finset.card_erase_add_one (Finset.mem_filter.mpr ⟨Finset.mem_univ i, hi⟩)

/-! ### Keys -/

section Keys
variable {key : α → κ} {free : κ}

/-- No key but `free` occurs in two slots. -/
def Distinct (key : α → κ) (free : κ) (l : Fin n → α) : Prop :=
  ∀ i j, key (l i) = key (l j) → key (l i) ≠ free → i = j

/-- A slot may be overwritten by an entry whose key is `free` or new. -/
theorem Distinct.replaceFirst (h : Distinct key free l)
    (hx : key x = free ∨ ∀ i, key (l i) ≠ key x) : Distinct key free (replaceFirst p x l) := by
  rcases replaceFirst_cases p x l with ⟨-, heq⟩ | ⟨k, -, heq⟩
  · rwa [heq]
  · rw [heq]
    intro i j hij hfree
    by_cases hi : i = k
    · by_cases hj : j = k
      · rw [hi, hj]
      · rw [hi, Function.update_self] at hij hfree
        rw [Function.update_of_ne hj] at hij
        exact absurd hij.symm (hx.resolve_left hfree j)
    · rw [Function.update_of_ne hi] at hij hfree
      by_cases hj : j = k
      · rw [hj, Function.update_self] at hij
        rcases hx with hx | hx
        · exact absurd (hij.trans hx) hfree
        · exact absurd hij (hx i)
      · rw [Function.update_of_ne hj] at hij
        exact h i j hij hfree

/-- **Taking out a key of a table without repetitions** leaves no slot with it. -/
theorem Distinct.key_ne_of_removed [DecidableEq κ] (h : Distinct key free l) {k : κ}
    (hk : k ≠ free) (hx : key x = free) (i : Fin n) :
    key (SlotTable.replaceFirst (fun a => decide (key a = k)) x l i) ≠ k := by
  rcases replaceFirst_cases (fun a => decide (key a = k)) x l with ⟨hnone, heq⟩ | ⟨j, hj, heq⟩
  · rw [heq]
    exact of_decide_eq_false (hnone i)
  · have hj := of_decide_eq_true hj
    rw [heq]
    by_cases hij : i = j
    · rw [hij, Function.update_self, hx]
      exact hk.symm
    · rw [Function.update_of_ne hij]
      intro hi
      exact hij (h i j (hi.trans hj.symm) (by rw [hi]; exact hk))

end Keys

end SlotTable
