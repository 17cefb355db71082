import Vapp.RingLayout
import Vapp.SlotAgreement
import Vapp.Library.Pool

/-! # The free list

`put_vring` takes the descriptor at the head of the list, and `_free_vring` links one in
front of it.  For the party that makes the calls the table is a pool: what the list in
shared memory holds are the free descriptors, in the order in which they will be taken.
-/
namespace Vapp

open Counter16 ArrayChain

variable {κ : Type} {sp : AddrSpace} {i : RingIdx} {D : Loc}

/-- The table of a party and the shared memory.  The last component is history: the
descriptors that were taken and not freed since. -/
structure ProdState (κ : Type) where
  table : VringTable κ
  mem : Mem
  taken : List UInt16

/-- The head of the free list. -/
def ProdState.head (i : RingIdx) (s : ProdState κ) : UInt16 := (s.table.vring i).lastAvailIdx

@[simp] theorem ProdState.head_setVring (t : VringTable κ) (v : Vring) (m : Mem)
    (l : List UInt16) : ProdState.head i ⟨t.setVring i v, m, l⟩ = v.lastAvailIdx := by
  rw [ProdState.head, VringTable.setVring_self]

/-- The calls of the party, and what happens besides. -/
inductive ProdLabel where
  | put (buf : List UInt8)
  | free (d : UInt32)
  | other
  deriving DecidableEq, Repr

/-- What happens besides changes neither a descriptor nor the free list. -/
structure Others (i : RingIdx) (D : Loc) (s t : ProdState κ) : Prop where
  vring : ∃ idx, t.table.vring i = { s.table.vring i with lastUsedIdx := idx }
  translate : ∀ a, t.table.translate a = s.table.translate a
  desc : t.mem.desc D = s.mem.desc D
  taken : t.taken = s.taken

/-- One call that returned, or anything else. -/
inductive ProdStep (sp : AddrSpace) (i : RingIdx) (D : Loc) :
    ProdState κ → ProdLabel → ProdState κ → Prop
  | put {s : ProdState κ} {buf : List UInt8} {r : Int} {t : VringTable κ} {m : Mem}
      (h : putVring sp s.table i buf s.mem = .ret (r, t, m)) :
      ProdStep sp i D s (.put buf) ⟨t, m, if r = 0 then s.head i :: s.taken else s.taken⟩
  | free {s : ProdState κ} {d : UInt32} {t : VringTable κ} {m : Mem}
      (h : freeVring sp s.table i d s.mem = .ret (t, m)) :
      ProdStep sp i D s (.free d) ⟨t, m, s.taken.erase d.toUInt16⟩
  | other {s t : ProdState κ} (h : Others i D s t) : ProdStep sp i D s .other t

/-- The calls that the list is made for: a packet is put while the list is not empty, and
what is freed is taken at that moment. -/
def Permitted (i : RingIdx) (s : ProdState κ) : ProdLabel → Prop
  | .put _ => s.head i ≠ vringIdxNone
  | .free d => d.toNat < vhostVringSize ∧ d.toUInt16 ∈ s.taken
  | .other => True

/-- A step whose call is permitted. -/
structure PermittedStep (sp : AddrSpace) (i : RingIdx) (D : Loc) (s : ProdState κ) (l : ProdLabel)
    (t : ProdState κ) : Prop where
  permitted : Permitted i s l
  step : ProdStep sp i D s l t

/-! ### The pool behind the list -/

/-- A descriptor that is in no list. -/
structure VringDesc.Taken (d : VringDesc) : Prop where
  flags : d.flags = 0
  next : d.next = vringIdxNone

/-- The list in memory holds the free descriptors of the pool. -/
structure Represents (sp : AddrSpace) (i : RingIdx) (D : Loc) (s : ProdState κ) (p : Pool UInt16) :
    Prop where
  desc : sp.resolve (s.table.vring i).desc = some D
  chain : Chain (s.mem.next D) vringIdxNone (s.head i) p.free
  nodes : p.nodes.Perm allDescs
  history : p.taken = s.taken
  fresh : ∀ d ∈ p.free, (s.mem.desc D d.toNat).Fresh
  taken : ∀ d ∈ p.taken, (s.mem.desc D d.toNat).Taken

theorem Mem.next_congr {m m' : Mem} (h : m'.desc D = m.desc D) : m'.next D = m.next D := by
  funext d
  rw [Mem.next, Mem.next, h]

namespace Represents
variable {s t : ProdState κ} {p : Pool UInt16}

theorem nodup (h : Represents sp i D s p) : p.nodes.Nodup :=
  h.nodes.nodup_iff.mpr nodup_allDescs

/-- The head is free, unless the list is empty. -/
theorem head_cons (h : Represents sp i D s p) (hhead : s.head i ≠ vringIdxNone) :
    ∃ free, p = ⟨s.head i :: free, p.taken⟩ ∧
      Chain (s.mem.next D) vringIdxNone (s.mem.next D (s.head i)) free := by
  obtain ⟨free, hfree, hchain⟩ := h.chain.pop hhead
  exact ⟨free, by rw [← hfree], hchain⟩

/-- `put_vring` takes the first free node, or does nothing. -/
theorem put (h : Represents sp i D s p) (hhead : s.head i ≠ vringIdxNone) {buf : List UInt8}
    {r : Int} {t : VringTable κ} {m : Mem}
    (hput : putVring sp s.table i buf s.mem = .ret (r, t, m)) :
    ∃ os q, Transition.Run Pool.Step p os q ∧
      Represents sp i D ⟨t, m, if r = 0 then s.head i :: s.taken else s.taken⟩ q := by
  rcases putVring_ret hput with
    ⟨rfl, rfl, rfl⟩ | ⟨rfl, D', A, hD', -, -, -, rfl, hdesc, -, -⟩
  · exact ⟨[], p, .nil, h.desc, h.chain, h.nodes, h.history, h.fresh, h.taken⟩
  · cases h.desc.symm.trans hD'
    obtain ⟨free, hp, hchain⟩ := h.head_cons hhead
    have hnodup := h.nodup
    rw [hp] at hnodup
    obtain ⟨hnew, -⟩ := List.nodup_cons.mp hnodup
    have hnotFree : s.head i ∉ free := fun hmem => hnew (List.mem_append_left _ hmem)
    have hstep : Pool.Step p .take ⟨free, s.head i :: p.taken⟩ := by
      rw [hp]
      exact .take
    -- only the descriptor at the head is written
    have hother : ∀ d : UInt16, d ≠ s.head i →
        m.desc D d.toNat = s.mem.desc D d.toNat := fun d hd => by
      rw [hdesc]
      exact Mem.setDesc_other _ _ _ hd
    refine ⟨[.take], _, .one hstep, ?_, ?_, ?_, ?_, fun d hd => ?_, fun d hd => ?_⟩
    · rw [VringTable.setVring_self]
      exact h.desc
    · have hnext : m.next D = Function.update (s.mem.next D) (s.head i) vringIdxNone :=
        (Mem.next_congr (congrFun hdesc D)).trans (Mem.setDesc_next _ _ _ _)
      rw [hnext, ProdState.head_setVring]
      exact hchain.update_of_notMem hnotFree
    · exact (Pool.step_perm hstep).trans h.nodes
    · rw [if_pos rfl, ← h.history]
    · rw [hother d (ne_of_mem_of_not_mem hd hnotFree)]
      refine h.fresh d ?_
      rw [hp]
      exact List.mem_cons_of_mem _ hd
    · rcases List.mem_cons.mp hd with rfl | hmem
      · have hself : m.desc D (s.head i).toNat = _ :=
          (congrFun (congrFun hdesc D) _).trans (Mem.setDesc_desc_self ..)
        rw [hself]
        exact ⟨rfl, rfl⟩
      · rw [hother d fun heq => hnew (List.mem_append_right _ (heq ▸ hmem))]
        exact h.taken d hmem

/-- `_free_vring` gives a taken node back. -/
theorem free (h : Represents sp i D s p) {d : UInt32} (hd : d.toUInt16 ∈ s.taken)
    {t : VringTable κ} {m : Mem} (hfree : freeVring sp s.table i d s.mem = .ret (t, m)) :
    ∃ os q, Transition.Run Pool.Step p os q ∧
      Represents sp i D ⟨t, m, s.taken.erase d.toUInt16⟩ q := by
  obtain ⟨hlt, D', hD', rfl, rfl⟩ := freeVring_ret hfree
  cases h.desc.symm.trans hD'
  rw [← h.history] at hd
  have hstep : Pool.Step p (.give d.toUInt16) ⟨d.toUInt16 :: p.free, p.taken.erase d.toUInt16⟩ :=
    .give hd
  have hnotFree : d.toUInt16 ∉ p.free := fun hmem =>
    List.disjoint_of_nodup_append h.nodup hmem hd
  have hne : d.toUInt16 ≠ vringIdxNone := ne_none_of_lt ((toNat_toUInt16 hlt).symm ▸ hlt)
  have hself : (freeMem s.mem D d.toNat (s.head i)).desc D d.toNat = _ :=
    Mem.setDesc_desc_self ..
  have hother : ∀ e : UInt16, e ≠ d.toUInt16 →
      (freeMem s.mem D d.toNat (s.head i)).desc D e.toNat = s.mem.desc D e.toNat := by
    intro e he
    rw [← toNat_toUInt16 hlt]
    exact Mem.setDesc_other _ _ _ he
  refine ⟨[.give d.toUInt16], _, .one hstep, ?_, ?_, ?_, ?_, fun e he => ?_, fun e he => ?_⟩
  · rw [VringTable.setVring_self]
    exact h.desc
  · show Chain ((freeMem s.mem D d.toNat (s.head i)).next D) _ _ _
    rw [freeMem_next _ _ hlt, ProdState.head_setVring]
    exact h.chain.push hnotFree hne
  · exact (Pool.step_perm hstep).trans h.nodes
  · rw [← h.history]
  · show ((freeMem s.mem D d.toNat (s.head i)).desc D e.toNat).Fresh
    rcases List.mem_cons.mp he with rfl | hmem
    · -- the flags of a taken descriptor are clear
      have hflags := (h.taken _ hd).flags
      rw [toNat_toUInt16 hlt] at hflags ⊢
      rw [hself]
      refine ⟨rfl, ?_⟩
      show (s.mem.desc D d.toNat).flags ||| virtioDescFWrite = virtioDescFWrite
      rw [hflags]
      rfl
    · rw [hother e (ne_of_mem_of_not_mem hmem hnotFree)]
      exact h.fresh e hmem
  · have hmem := (h.nodup.of_append_right.mem_erase_iff).mp he
    show ((freeMem s.mem D d.toNat (s.head i)).desc D e.toNat).Taken
    rw [hother e hmem.1]
    exact h.taken e hmem.2

theorem others (h : Represents sp i D s p) (ho : Others i D s t) : Represents sp i D t p := by
  obtain ⟨idx, hvring⟩ := ho.vring
  have hhead : t.head i = s.head i := by
    rw [ProdState.head, hvring]
    rfl
  refine ⟨?_, ?_, h.nodes, h.history.trans ho.taken.symm, ?_, ?_⟩
  · rw [hvring]
    exact h.desc
  · rw [Mem.next_congr ho.desc, hhead]
    exact h.chain
  · rw [ho.desc]
    exact h.fresh
  · rw [ho.desc]
    exact h.taken

/-- **Permitted calls work on the list as operations on the pool.** -/
theorem step (h : Represents sp i D s p) {l : ProdLabel} (hs : PermittedStep sp i D s l t) :
    ∃ os q, Transition.Run Pool.Step p os q ∧ Represents sp i D t q := by
  obtain ⟨hl, hs⟩ := hs
  cases hs with
  | put hput => exact h.put hl hput
  | free hfree => exact h.free hl.2 hfree
  | other ho => exact ⟨[], p, .nil, h.others ho⟩

theorem run (h : Represents sp i D s p) {ls : List ProdLabel}
    (hrun : Transition.Run (PermittedStep sp i D) s ls t) :
    ∃ os q, Transition.Run Pool.Step p os q ∧ Represents sp i D t q :=
  hrun.simulate_rel (R := Represents sp i D) (fun _ _ _ _ h hs => h.step hs) h

end Represents

/-! ### Calls return -/

/-- The party uses the ring that `new_vring` has laid out at `base`. -/
structure ProdWired (sp : AddrSpace) (i : RingIdx) (base : UInt64) (shm : Nat) (s : ProdState κ) :
    Prop where
  desc : sp.resolve (s.table.vring i).desc = some ⟨shm, offsetofDesc⟩
  addr : ∀ d, d < vhostVringSize → (s.mem.desc ⟨shm, offsetofDesc⟩ d).addr = layoutAddr base d
  sees : Sees sp s.table base shm

/-- The pointers and the size of the avail ring are such that an entry can be added. -/
structure CanEnter (sp : AddrSpace) (v : Vring) : Prop where
  avail : ∃ A, sp.resolve v.avail = some A
  num : v.num ≠ 0
  room : v.num.toNat ≤ vhostVringSize

theorem CanEnter.slot {v : Vring} (h : CanEnter sp v) (idx : UInt16) :
    idx.toNat % v.num.toNat < vhostVringSize :=
  Nat.lt_of_lt_of_le (Nat.mod_lt _ (Nat.pos_of_ne_zero fun hz => h.num (UInt32.toNat_inj.mp hz)))
    h.room

section Returns
variable {base : UInt64} {shm : Nat} {s t : ProdState κ}

/-- A party that sees the region uses the ring that is laid out there. -/
theorem prodWired_newVring {t : VringTable κ} (hsees : Sees sp t base shm)
    (hdesc : sp.resolve (t.vring i).desc = some ⟨shm, offsetofDesc⟩) (m : Mem)
    (taken : List UInt16) : ProdWired sp i base shm ⟨t, newVring base shm m, taken⟩ where
  desc := hdesc
  addr d hd := by
    rw [newVring_desc, newVringTable_apply hsees.fits _ hd]
    rfl
  sees := hsees

/-- Addresses and pointers stay as they are, whatever is put or freed. -/
theorem ProdWired.step (h : ProdWired sp i base shm s) {l : ProdLabel}
    (hs : ProdStep sp i ⟨shm, offsetofDesc⟩ s l t) : ProdWired sp i base shm t := by
  cases hs with
  | put hput =>
      rcases putVring_ret hput with
        ⟨-, rfl, rfl⟩ | ⟨-, D', -, hD', -, -, -, rfl, hdesc, -, -⟩
      · exact ⟨h.desc, h.addr, h.sees⟩
      · cases h.desc.symm.trans hD'
        refine ⟨?_, fun d hd => ?_, h.sees.fits, h.sees.shows⟩
        · rw [VringTable.setVring_self]
          exact h.desc
        · rw [hdesc]
          exact (setDesc_addr s.mem _ _ _ (by rfl) d).trans (h.addr d hd)
  | free hfree =>
      obtain ⟨-, D', hD', rfl, rfl⟩ := freeVring_ret hfree
      cases h.desc.symm.trans hD'
      refine ⟨?_, fun d hd => ?_, h.sees.fits, h.sees.shows⟩
      · rw [VringTable.setVring_self]
        exact h.desc
      · exact (UsedLoop.freeMem_addr ..).trans (h.addr d hd)
  | other ho =>
      obtain ⟨idx, hvring⟩ := ho.vring
      obtain ⟨p, hp, htr⟩ := h.sees.shows
      refine ⟨?_, ?_, h.sees.fits, p, hp, fun off hoff => ?_⟩
      · rw [hvring]
        exact h.desc
      · rw [ho.desc]
        exact h.addr
      · rw [ho.translate]
        exact htr off hoff

/-- What `put_vring` does with a packet that is not longer than the length of the head. -/
theorem ProdWired.put_eq (h : ProdWired sp i base shm s) {A : Loc}
    (hA : sp.resolve (s.table.vring i).avail = some A) (hnum : (s.table.vring i).num ≠ 0)
    (hslot : (s.mem.avail A).idx.toNat % (s.table.vring i).num.toNat < vhostVringSize)
    (hhead : (s.head i).toNat < vhostVringSize) {buf : List UInt8}
    (hlen : buf.length ≤ (s.mem.desc ⟨shm, offsetofDesc⟩ (s.head i).toNat).len.toNat)
    (hsize : buf.length ≤ bufferSize) :
    putVring sp s.table i buf s.mem =
      .ret (0, s.table.setVring i { s.table.vring i with
          lastAvailIdx := (s.mem.desc ⟨shm, offsetofDesc⟩ (s.head i).toNat).next },
        putMem s.mem ⟨shm, offsetofDesc⟩ A (bufferLoc base shm (s.head i).toNat)
          (s.table.vring i).num (s.head i) buf) := by
  refine putVring_of_fits h.desc hA hhead hlen ?_ hnum hslot
  show Shows sp (s.table.translate (s.mem.desc _ (s.head i).toNat).addr) _ _
  rw [h.addr _ hhead]
  exact h.sees.buffer hhead (Nat.add_le_add_left hsize _)

/-- A permitted call of `put_vring` returns. -/
theorem Represents.can_put {p : Pool UInt16} (h : Represents sp i ⟨shm, offsetofDesc⟩ s p)
    (hw : ProdWired sp i base shm s) (hv : CanEnter sp (s.table.vring i))
    (hhead : s.head i ≠ vringIdxNone) (buf : List UInt8) :
    ∃ t, PermittedStep sp i ⟨shm, offsetofDesc⟩ s (.put buf) t := by
  obtain ⟨free, hp, -⟩ := h.head_cons hhead
  have hmem : s.head i ∈ p.free := by
    rw [hp]
    exact List.mem_cons_self
  have hlt : (s.head i).toNat < vhostVringSize :=
    mem_allDescs.mp (h.nodes.mem_iff.mp (List.mem_append_left _ hmem))
  have hlen : (s.mem.desc ⟨shm, offsetofDesc⟩ (s.head i).toNat).len.toNat = bufferSize :=
    congrArg UInt32.toNat (h.fresh _ hmem).len
  obtain ⟨A, hA⟩ := hv.avail
  rcases Nat.lt_or_ge bufferSize buf.length with hlong | hfit
  · rw [← hlen] at hlong
    exact ⟨_, hhead, .put (putVring_of_too_long h.desc hlt hlong)⟩
  · exact ⟨_, hhead,
      .put (hw.put_eq hA hv.num (hv.slot _) hlt (Nat.le_trans hfit (Nat.le_of_eq hlen.symm)) hfit)⟩

/-- A permitted call of `_free_vring` returns. -/
theorem Represents.can_free {p : Pool UInt16} (h : Represents sp i D s p) {d : UInt32}
    (hd : d.toNat < vhostVringSize) (htaken : d.toUInt16 ∈ s.taken) :
    ∃ t, PermittedStep sp i D s (.free d) t :=
  ⟨_, ⟨hd, htaken⟩, .free (freeVring_of_lt h.desc hd)⟩

end Returns

/-! ### The list over all runs -/

/-- A ring that `new_vring` has laid out is a pool of free descriptors. -/
theorem represents_newVring {t : VringTable κ} {base : UInt64} {shm : Nat} {m : Mem}
    (hdesc : sp.resolve (t.vring i).desc = some ⟨shm, offsetofDesc⟩)
    (hhead : (t.vring i).lastAvailIdx = 0) :
    Represents sp i ⟨shm, offsetofDesc⟩ ⟨t, newVring base shm m, []⟩ (.full allDescs) where
  desc := hdesc
  chain := by
    rw [ProdState.head, hhead, Pool.full_free]
    exact newVring_chain base shm m
  nodes := by rw [Pool.full_nodes]
  history := rfl
  fresh d hd := by
    rw [Pool.full_free] at hd
    rw [newVring_desc]
    exact (newVringTable_fresh _ _ (mem_allDescs.mp hd)).1
  taken _ hd := by
    rw [Pool.full_taken] at hd
    exact absurd hd List.not_mem_nil

/-- The free list holds exactly the descriptors that are not taken. -/
structure FreeListKept (i : RingIdx) (D : Loc) (s : ProdState κ) (free : List UInt16) : Prop where
  chain : Chain (s.mem.next D) vringIdxNone (s.head i) free
  nodup : free.Nodup
  mem : ∀ d, d ∈ free ↔ d.toNat < vhostVringSize ∧ d ∉ s.taken
  len : ∀ d ∈ free, (s.mem.desc D d.toNat).len = .ofNat bufferSize
  write : ∀ d ∈ free, (s.mem.desc D d.toNat).flags &&& virtioDescFWrite ≠ 0
  last : ∀ d ∈ free, (s.mem.desc D d.toNat).flags &&& virtioDescFNext = 0
  takenFlags : ∀ d ∈ s.taken, (s.mem.desc D d.toNat).flags = 0
  takenNext : ∀ d ∈ s.taken, (s.mem.desc D d.toNat).next = vringIdxNone

theorem Represents.kept {s : ProdState κ} {p : Pool UInt16} (h : Represents sp i D s p) :
    FreeListKept i D s p.free where
  chain := h.chain
  nodup := Pool.nodup_free h.nodes nodup_allDescs
  mem d := by
    rw [Pool.mem_free_iff h.nodes nodup_allDescs, mem_allDescs, h.history]
  len d hd := (h.fresh d hd).len
  write d hd := by
    rw [(h.fresh d hd).flags]
    decide
  last d hd := by
    rw [(h.fresh d hd).flags]
    decide
  takenFlags d hd := (h.taken d (h.history ▸ hd)).flags
  takenNext d hd := (h.taken d (h.history ▸ hd)).next

/-- **The free list is kept** by every sequence of permitted calls on a new ring. -/
theorem free_list_kept {t : VringTable κ} {base : UInt64} {shm : Nat} {m : Mem}
    (hdesc : sp.resolve (t.vring i).desc = some ⟨shm, offsetofDesc⟩)
    (hhead : (t.vring i).lastAvailIdx = 0) {ls : List ProdLabel} {s : ProdState κ}
    (hrun : Transition.Run (PermittedStep sp i ⟨shm, offsetofDesc⟩)
      ⟨t, newVring base shm m, []⟩ ls s) :
    ∃ free, FreeListKept i ⟨shm, offsetofDesc⟩ s free := by
  obtain ⟨_, p, -, hp⟩ := (represents_newVring hdesc hhead).run hrun
  exact ⟨p.free, hp.kept⟩

/-! ### A ring at address 0 -/

/-- A new ring in an object that is seen from address 0 on. -/
def bareRing : ProdState Unit where
  table := bareTable (.ofNat vhostVringSize) 0
  mem := newVring 0 0 Mem.zero
  taken := []

theorem represents_bareRing :
    Represents bareSpace rxIdx ⟨0, offsetofDesc⟩ bareRing (.full allDescs) :=
  represents_newVring (bareSpace_resolve (by decide)) rfl

theorem prodWired_bareRing : ProdWired bareSpace rxIdx 0 0 bareRing := by
  have hfits : (0 : UInt64).toNat + vhostClientPageSize.toNat ≤ 2 ^ 64 := by decide
  have hsees : Sees bareSpace bareRing.table 0 0 :=
    ⟨hfits, 0, shows_of_mapping rfl (Nat.le_of_eq (Nat.zero_add _)) hfits, fun _ _ => rfl⟩
  exact prodWired_newVring hsees (bareSpace_resolve (by decide)) _ _

theorem canEnter_bareRing : CanEnter bareSpace (bareRing.table.vring rxIdx) :=
  ⟨⟨_, bareSpace_resolve (by decide)⟩, by decide, by decide⟩

/-- A new ring takes every packet of at most `BUFFER_SIZE` bytes. -/
theorem bareRing_put {buf : List UInt8} (hbuf : buf.length ≤ bufferSize) :
    ∃ t' m', putVring bareSpace bareRing.table rxIdx buf bareRing.mem = .ret (0, t', m') := by
  have hfirst : (0 : UInt16) ∈ (Pool.full allDescs).free := by
    rw [Pool.full_free]
    exact mem_allDescs.mpr (by decide)
  have hlen : buf.length ≤
      (bareRing.mem.desc ⟨0, offsetofDesc⟩ (bareRing.head rxIdx).toNat).len.toNat := by
    rw [show bareRing.head rxIdx = 0 from rfl, (represents_bareRing.fresh 0 hfirst).len]
    exact hbuf
  exact ⟨_, _, prodWired_bareRing.put_eq canEnter_bareRing.avail.choose_spec
    canEnter_bareRing.num (canEnter_bareRing.slot _) (by decide) hlen hbuf⟩

/-- The first descriptor is taken and freed again. -/
theorem free_list_kept_put_free : ∃ s,
    Transition.Run (PermittedStep bareSpace rxIdx ⟨0, offsetofDesc⟩) bareRing
      [.put [1], .free 0] s ∧
    ∃ free, FreeListKept rxIdx ⟨0, offsetofDesc⟩ s free := by
  obtain ⟨t', m', hcall⟩ := @bareRing_put [1] (by decide)
  have hhead : bareRing.head rxIdx ≠ vringIdxNone := by decide
  have hput : PermittedStep bareSpace rxIdx ⟨0, offsetofDesc⟩ bareRing (.put [1]) _ :=
    ⟨hhead, .put hcall⟩
  obtain ⟨_, _, -, hp⟩ := represents_bareRing.step hput
  obtain ⟨s, hfree⟩ := hp.can_free (d := 0) (by decide) (List.mem_cons_self ..)
  have hrun := (Transition.Run.one hput).append (.one hfree)
  exact ⟨s, hrun, free_list_kept (bareSpace_resolve (by decide)) rfl hrun⟩

end Vapp
