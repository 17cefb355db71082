import Mathlib.Data.Multiset.Filter
import Mathlib.Data.Finset.Card
import Vapp.Library.SlotTable

/-! # A slot table as a bag

Which slot an entry is in does not matter to what a table holds.  The entries of a table are
a bag with room for as many as there are slots: putting an entry in adds it while there is
room and changes nothing otherwise, taking a key out removes its entry.
-/
namespace SlotTable

variable {n : Nat} {α κ : Type} {l : Fin n → α} {free : α → Bool} {x y : α}

/-- The entries of the table: what is in the slots that are not free. -/
def contents (free : α → Bool) (l : Fin n → α) : Multiset α :=
  (Finset.univ.val.map l).filter fun a => free a = false

theorem mem_contents : y ∈ contents free l ↔ (∃ i, l i = y) ∧ free y = false := by
  rw [contents, Multiset.mem_filter, Multiset.mem_map]
  simp

/-- Each slot is free or holds an entry. -/
theorem card_contents_add_count (free : α → Bool) (l : Fin n → α) :
    (contents free l).card + count free l = n := by
  have hcard : ((Finset.univ : Finset (Fin n)).filter fun i => free (l i) = false).card +
      (Finset.univ.filter fun i => ¬ free (l i) = false).card = n := by
    rw [Finset.card_filter_add_card_filter_not, Finset.card_univ, Fintype.card_fin]
  have hcount : count free l = (Finset.univ.filter fun i => ¬ free (l i) = false).card := by
    rw [count]
    simp
  rw [hcount, contents, Multiset.filter_map, Multiset.card_map]
  exact hcard

/-- The slots beside slot `i`. -/
theorem map_update (l : Fin n → α) (i : Fin n) : ∃ rest : Multiset α,
    Finset.univ.val.map l = l i ::ₘ rest ∧
    ∀ x, Finset.univ.val.map (Function.update l i x) = x ::ₘ rest := by
  refine ⟨((Finset.univ : Finset (Fin n)).val.erase i).map l, ?_, fun x => ?_⟩
  · rw [← Multiset.map_cons, Multiset.cons_erase (Finset.mem_univ_val i)]
  · have hother : ((Finset.univ : Finset (Fin n)).val.erase i).map (Function.update l i x) =
        ((Finset.univ : Finset (Fin n)).val.erase i).map l := by
      refine Multiset.map_congr rfl fun j hj => Function.update_of_ne ?_ x l
      exact (Finset.univ.nodup.mem_erase_iff.mp hj).1
    conv_lhs => rw [← Multiset.cons_erase (Finset.mem_univ_val i)]
    rw [Multiset.map_cons, Function.update_self, hother]

/-- **Putting an entry in** while there is room. -/
theorem contents_put (hx : free x = false) (hroom : (contents free l).card < n) :
    contents free (replaceFirst free x l) = x ::ₘ contents free l := by
  have hcard := card_contents_add_count free l
  obtain ⟨k, hk⟩ := exists_of_count_pos (show 0 < count free l by omega)
  rcases replaceFirst_cases free x l with ⟨hnone, -⟩ | ⟨i, hi, heq⟩
  · rw [hnone k] at hk
    cases hk
  · obtain ⟨rest, hbefore, hafter⟩ := map_update l i
    rw [heq, contents, contents, hbefore, hafter,
      Multiset.filter_cons_of_pos (p := fun a => free a = false) rest hx,
      Multiset.filter_cons_of_neg rest (by simp [hi])]

/-- Without room nothing changes. -/
theorem put_of_full (hfull : n ≤ (contents free l).card) : replaceFirst free x l = l := by
  have hcard := card_contents_add_count free l
  rcases replaceFirst_cases free x l with ⟨-, heq⟩ | ⟨i, hi, -⟩
  · exact heq
  · have hpos : 0 < count free l := Finset.card_pos.mpr
      ⟨i, Finset.mem_filter.mpr ⟨Finset.mem_univ i, hi⟩⟩
    omega

/-- **Taking a key out** removes its entry. -/
theorem contents_take [DecidableEq κ] {key : α → κ} {none : κ} (hd : Distinct key none l)
    (hfree : ∀ a, free a = decide (key a = none)) (hy : y ∈ contents free l) (hx : free x = true) :
    y ::ₘ contents free (replaceFirst (fun a => decide (key a = key y)) x l) =
      contents free l := by
  obtain ⟨⟨j, hj⟩, hyfree⟩ := mem_contents.mp hy
  have hkey : key (l j) ≠ none := by
    rw [hj]
    exact of_decide_eq_false ((hfree y).symm.trans hyfree)
  rcases replaceFirst_cases (fun a => decide (key a = key y)) x l with ⟨hnone, -⟩ | ⟨i, hi, heq⟩
  · exact absurd (congrArg key hj) (of_decide_eq_false (hnone j))
  · -- the slot that is found is the only one with this key
    have hij : j = i := hd j i ((congrArg key hj).trans (of_decide_eq_true hi).symm) hkey
    obtain ⟨rest, hbefore, hafter⟩ := map_update l i
    rw [heq, contents, contents, hbefore, hafter, ← hij, hj,
      Multiset.filter_cons_of_neg rest (by simp [hx]),
      Multiset.filter_cons_of_pos (p := fun a => free a = false) rest hyfree]

end SlotTable
