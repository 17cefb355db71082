import Vapp.FdList
import Vapp.Library.SlotTable

/-! # The descriptor list as a table of slots

`add_fd_list` overwrites the first free slot and `del_fd_list` frees the first one that
holds the descriptor; what is registered afterwards follows from that.
-/
namespace Vapp

namespace FdList
variable {l : FdList} {fd d : Int} {h k : FdHandler}

section Found
variable {i : Fin fdListSize}

theorem fd_of_findFdNode (h : l.findFdNode fd = some i) : (l i).fd = fd :=
  of_decide_eq_true (List.find?_some (p := fun i => decide ((l i).fd = fd)) h)

theorem addFdList_of_found (hfree : l.findFdNode (-1) = some i) (fd : Int) (h : FdHandler) :
    (l.addFdList fd h).2 = Function.update l i ⟨fd, some h⟩ := by
  rw [addFdList, hfree]

theorem addFdList_of_full (hfull : l.findFdNode (-1) = none) (fd : Int) (h : FdHandler) :
    (l.addFdList fd h).2 = l := by
  rw [addFdList, hfull]

theorem delFdList_of_found (hfound : l.findFdNode fd = some i) :
    (l.delFdList fd).2 = Function.update l i resetFdNode := by
  rw [delFdList, hfound]

end Found

/-- A free slot. -/
def isFree (node : FdNode) : Bool := decide (node.fd = -1)

/-- The number of free slots. -/
def freeSlots (l : FdList) : Nat := SlotTable.count isFree l

theorem addFdList_snd (l : FdList) (fd : Int) (h : FdHandler) :
    (l.addFdList fd h).2 = SlotTable.replaceFirst isFree ⟨fd, some h⟩ l := by
  rw [addFdList, findFdNode, SlotTable.replaceFirst]
  simp only [isFree]
  cases (List.finRange fdListSize).find? fun i => decide ((l i).fd = -1) <;> rfl

theorem delFdList_snd (l : FdList) (fd : Int) :
    (l.delFdList fd).2 =
      SlotTable.replaceFirst (fun node => decide (node.fd = fd)) resetFdNode l := by
  rw [delFdList, findFdNode, SlotTable.replaceFirst]
  cases (List.finRange fdListSize).find? fun i => decide ((l i).fd = fd) <;> rfl

/-- What is registered after `add_fd_list` has found a slot. -/
theorem registered_addFdList (hfree : 0 < l.freeSlots) (hfd : fd ≠ -1) :
    (l.addFdList d h).2.Registered fd k ↔ (fd = d ∧ k = h) ∨ l.Registered fd k := by
  rw [addFdList_snd]
  constructor
  · intro hreg
    rcases SlotTable.holds_before hreg with hnew | hold
    · cases hnew
      exact .inl ⟨rfl, rfl⟩
    · exact .inr hold
  · rintro (⟨rfl, rfl⟩ | hold)
    · exact SlotTable.holds_new (SlotTable.exists_of_count_pos hfree)
    · exact SlotTable.holds_of_holds (decide_eq_false hfd) hold

theorem freeSlots_addFdList (hfree : 0 < l.freeSlots) (hd : d ≠ -1) :
    (l.addFdList d h).2.freeSlots + 1 = l.freeSlots := by
  rw [addFdList_snd]
  exact SlotTable.count_replaceFirst (decide_eq_false hd) hfree

end FdList

end Vapp
