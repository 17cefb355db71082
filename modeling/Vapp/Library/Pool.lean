import Mathlib.Data.List.Perm.Basic
import Mathlib.Data.List.Nodup
import Vapp.Library.Transition

/-! # Pools

The allocator as its users see it: some nodes are free, in the order in which they will be
taken, and the others are taken.  A node that is given back is the next one to be taken.
Whatever the order of the operations, the nodes stay the same.
-/

/-- The free nodes, the next one to be taken in front, and the taken ones. -/
structure Pool (ι : Type) where
  free : List ι
  taken : List ι

namespace Pool

variable {ι : Type}

/-- All nodes of the pool. -/
def nodes (p : Pool ι) : List ι := p.free ++ p.taken

/-- The pool of the nodes `l`, all of them free. -/
def full (l : List ι) : Pool ι := ⟨l, []⟩

@[simp] theorem full_free (l : List ι) : (full l).free = l := rfl

@[simp] theorem full_taken (l : List ι) : (full l).taken = [] := rfl

@[simp] theorem full_nodes (l : List ι) : (full l).nodes = l := List.append_nil l

section Nodes
variable {p : Pool ι} {l : List ι} (hp : p.nodes.Perm l) (hl : l.Nodup)
include hp hl

theorem nodup_free : p.free.Nodup := (hp.nodup_iff.mpr hl).of_append_left

/-- A node is free exactly if it is not taken. -/
theorem mem_free_iff {a : ι} : a ∈ p.free ↔ a ∈ l ∧ a ∉ p.taken := by
  have hapart := List.disjoint_of_nodup_append (hp.nodup_iff.mpr hl)
  rw [← hp.mem_iff, nodes, List.mem_append]
  constructor
  · exact fun h => ⟨.inl h, hapart h⟩
  · exact fun h => h.1.resolve_right h.2

end Nodes

/-- The operations of a pool. -/
inductive Op (ι : Type) where
  | take
  | give (a : ι)

variable [DecidableEq ι]

/-- One operation. -/
inductive Step : Pool ι → Op ι → Pool ι → Prop
  | take {a : ι} {free taken : List ι} : Step ⟨a :: free, taken⟩ .take ⟨free, a :: taken⟩
  | give {a : ι} {free taken : List ι} (h : a ∈ taken) :
      Step ⟨free, taken⟩ (.give a) ⟨a :: free, taken.erase a⟩

variable {p q : Pool ι}

/-- **No operation loses or duplicates a node.** -/
theorem step_perm {o : Op ι} (h : Step p o q) : q.nodes.Perm p.nodes := by
  cases h with
  | take => exact List.perm_middle
  | @give a free taken h =>
      show (a :: (free ++ taken.erase a)).Perm (free ++ taken)
      exact List.perm_middle.symm.trans ((List.perm_cons_erase h).symm.append_left free)

end Pool
