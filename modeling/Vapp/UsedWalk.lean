import Vapp.VringSpec
import Vapp.Library.ArrayChain

/-! # The walk of `process_used_vring`

The loop goes from `last_used_idx` in steps modulo `num` until it meets `used->idx`.
When that index lies below `num` the walk is `walk` of the distance between the two, and
it returns exactly when every entry on the way names a descriptor of the table; an index
from `num` on is never met.
-/
namespace Vapp

variable {κ : Type} {sp : AddrSpace} {i : RingIdx} {D U : Loc} {num : Nat}

namespace UsedLoop

/-- The used entry the loop is at. -/
def entry (U : Loc) (s : UsedLoop κ) : VringUsedElem := (s.mem.used U).ring s.uIdx.toNat

/-- The state after the entry has been freed. -/
def reclaim (i : RingIdx) (D U : Loc) (s : UsedLoop κ) : UsedLoop κ where
  table := s.table.setVring i
    { s.table.vring i with lastAvailIdx := (s.entry U).id.toUInt16 }
  mem := freeMem s.mem D (s.entry U).id.toNat (s.table.vring i).lastAvailIdx
  uIdx := .ofNat ((s.uIdx.toNat + 1) % (s.table.vring i).num.toNat)
  freed := s.freed ++ [(s.uIdx.toNat, (s.entry U).id)]

/-- The state after `n` entries have been freed. -/
def walk (i : RingIdx) (D U : Loc) : Nat → UsedLoop κ → UsedLoop κ
  | 0, s => s
  | n + 1, s => walk i D U n (s.reclaim i D U)

end UsedLoop

/-- The pointers of the ring lead to `D` and `U`, and the loop is inside a ring of `num`
slots. -/
structure Walking (sp : AddrSpace) (i : RingIdx) (D U : Loc) (num : Nat) (s : UsedLoop κ) :
    Prop where
  desc : sp.resolve (s.table.vring i).desc = some D
  used : sp.resolve (s.table.vring i).used = some U
  numEq : (s.table.vring i).num.toNat = num
  room : num ≤ vhostVringSize
  idx : s.uIdx.toNat < num

namespace Walking
variable {s : UsedLoop κ}

theorem num_ne_zero (h : Walking sp i D U num s) : (s.table.vring i).num ≠ 0 := by
  intro hz
  have hsize : 0 = num := by
    rw [← h.numEq, hz]
    rfl
  exact absurd h.idx (by omega)

theorem reclaim_uIdx (h : Walking sp i D U num s) :
    (s.reclaim i D U).uIdx.toNat = (s.uIdx.toNat + 1) % num := by
  have hlt : (s.uIdx.toNat + 1) % num < 65536 :=
    Nat.lt_of_lt_of_le (Nat.mod_lt _ (Nat.lt_of_le_of_lt (Nat.zero_le _) h.idx))
      (Nat.le_trans h.room (by decide))
  show (UInt16.ofNat ((s.uIdx.toNat + 1) % (s.table.vring i).num.toNat)).toNat = _
  rw [h.numEq, UInt16.toNat_ofNat_of_lt' hlt]

theorem reclaim (h : Walking sp i D U num s) : Walking sp i D U num (s.reclaim i D U) where
  desc := by simpa [UsedLoop.reclaim] using h.desc
  used := by simpa [UsedLoop.reclaim] using h.used
  numEq := by simpa [UsedLoop.reclaim] using h.numEq
  room := h.room
  idx := by
    rw [h.reclaim_uIdx]
    exact Nat.mod_lt _ (Nat.lt_of_le_of_lt (Nat.zero_le _) h.idx)

/-- One turn of the loop. -/
theorem usedTurn_eq (h : Walking sp i D U num s) :
    usedTurn sp i s =
      if s.uIdx = (s.mem.used U).idx then .ret (.inr s)
      else if (s.entry U).id.toNat < vhostVringSize then .ret (.inl (s.reclaim i D U))
      else .fault .assertion := by
  have hslot : s.uIdx.toNat < vhostVringSize := Nat.lt_of_lt_of_le h.idx h.room
  simp only [usedTurn, loadUsedIdx_of_resolve h.used, Outcome.ret_bind]
  by_cases hend : s.uIdx = (s.mem.used U).idx
  · rw [if_pos hend, if_pos hend]
    rfl
  · rw [if_neg hend, if_neg hend]
    simp only [loadUsedElem_of_resolve h.used hslot, Outcome.ret_bind]
    show (do
      let r ← freeVring sp s.table i (s.entry U).id s.mem
      Outcome.require ((s.table.vring i).num ≠ 0) .divByZero
      _) = _
    by_cases hid : (s.entry U).id.toNat < vhostVringSize
    · rw [if_pos hid, freeVring_of_lt h.desc hid]
      simp only [Outcome.ret_bind, Outcome.require_pos h.num_ne_zero]
      rfl
    · rw [if_neg hid, freeVring_of_ge hid]
      rfl

end Walking

@[simp] theorem UsedLoop.reclaim_used (s : UsedLoop κ) :
    (s.reclaim i D U).mem.used = s.mem.used := rfl

/-- **What the loop returns** when the index it walks to is `n` slots ahead. -/
theorem usedLoop_ret_iff {r : UsedLoop κ} (n : Nat) : ∀ {s : UsedLoop κ} {fuel : Nat},
    Walking sp i D U num s → n < num → (s.uIdx.toNat + n) % num = (s.mem.used U).idx.toNat →
    (Outcome.loop (usedTurn sp i) fuel s = .ret r ↔
      n < fuel ∧ (∀ k, k < n →
        ((s.mem.used U).ring ((s.uIdx.toNat + k) % num)).id.toNat < vhostVringSize) ∧
      r = s.walk i D U n) := by
  induction n with
  | zero =>
      intro s fuel h hn hidx
      have hend : s.uIdx = (s.mem.used U).idx := by
        rw [← UInt16.toNat_inj, ← hidx, Nat.add_zero, Nat.mod_eq_of_lt h.idx]
      cases fuel with
      | zero => exact ⟨nofun, fun hc => absurd hc.1 (Nat.lt_irrefl 0)⟩
      | succ fuel =>
          rw [Outcome.loop_succ, h.usedTurn_eq, if_pos hend]
          constructor
          · intro hr
            cases hr
            exact ⟨Nat.succ_pos fuel, fun k hk => absurd hk (Nat.not_lt_zero k), rfl⟩
          · rintro ⟨-, -, rfl⟩
            rfl
  | succ n ih =>
      intro s fuel h hn hidx
      have hend : s.uIdx ≠ (s.mem.used U).idx := by
        intro heq
        rw [← heq] at hidx
        have hlt := h.idx
        rcases Nat.lt_or_ge (s.uIdx.toNat + (n + 1)) num with hsmall | hbig
        · rw [Nat.mod_eq_of_lt hsmall] at hidx
          omega
        · rw [Nat.mod_eq_sub_mod hbig, Nat.mod_eq_of_lt (by omega)] at hidx
          omega
      -- the entries further on are those of the state after this turn
      have hshift : ∀ k, ((s.reclaim i D U).uIdx.toNat + k) % num =
          (s.uIdx.toNat + (k + 1)) % num := by
        intro k
        rw [h.reclaim_uIdx, Nat.mod_add_mod, Nat.add_assoc, Nat.add_comm 1]
      have hhead : (s.entry U).id = ((s.mem.used U).ring ((s.uIdx.toNat + 0) % num)).id := by
        rw [UsedLoop.entry, Nat.add_zero, Nat.mod_eq_of_lt h.idx]
      cases fuel with
      | zero => exact ⟨nofun, fun hc => absurd hc.1 (Nat.not_lt_zero _)⟩
      | succ fuel =>
          rw [Outcome.loop_succ, h.usedTurn_eq, if_neg hend]
          by_cases hid : (s.entry U).id.toNat < vhostVringSize
          · rw [if_pos hid, Outcome.ret_bind]
            show Outcome.loop (usedTurn sp i) fuel (s.reclaim i D U) = .ret r ↔ _
            rw [ih h.reclaim (by omega) ((hshift n).trans hidx)]
            constructor
            · rintro ⟨hf, hids, rfl⟩
              refine ⟨Nat.succ_lt_succ hf, fun k hk => ?_, rfl⟩
              cases k with
              | zero => rwa [← hhead]
              | succ k =>
                  rw [← hshift]
                  exact hids k (by omega)
            · rintro ⟨hf, hids, rfl⟩
              refine ⟨Nat.lt_of_succ_lt_succ hf, fun k hk => ?_, rfl⟩
              rw [hshift]
              exact hids (k + 1) (by omega)
          · rw [if_neg hid]
            constructor
            · intro hr
              cases hr
            · rintro ⟨-, hids, -⟩
              exact absurd (hhead ▸ hids 0 (Nat.succ_pos n)) hid

/-- **An index outside the ring is never met**: the loop does not return. -/
theorem usedLoop_ne_ret {s : UsedLoop κ} (h : Walking sp i D U num s)
    (hidx : num ≤ (s.mem.used U).idx.toNat) (fuel : Nat) (r : UsedLoop κ) :
    Outcome.loop (usedTurn sp i) fuel s ≠ .ret r := by
  refine Outcome.loop_ne_ret
    (I := fun s => Walking sp i D U num s ∧ num ≤ (s.mem.used U).idx.toNat) ?_ ⟨h, hidx⟩ fuel r
  rintro s ⟨h, hidx⟩
  have hend : s.uIdx ≠ (s.mem.used U).idx := by
    intro heq
    have := h.idx
    rw [heq] at this
    omega
  rw [h.usedTurn_eq, if_neg hend]
  by_cases hid : (s.entry U).id.toNat < vhostVringSize
  · rw [if_pos hid]
    refine ⟨nofun, fun s' hs' => ?_⟩
    cases hs'
    exact ⟨h.reclaim, hidx⟩
  · rw [if_neg hid]
    exact ⟨nofun, nofun⟩

/-! ### What the walk leaves behind -/

/-- The ids of `n` used entries from slot `u` on. -/
def VringUsed.ids (used : VringUsed) (num u n : Nat) : List UInt32 :=
  (List.range n).map fun k => (used.ring ((u + k) % num)).id

theorem VringUsed.ids_succ {used : VringUsed} {u : Nat} (hu : u < num) (n : Nat) :
    used.ids num u (n + 1) = (used.ring u).id :: used.ids num ((u + 1) % num) n := by
  rw [VringUsed.ids, List.range_succ_eq_map, List.map_cons, Nat.add_zero, Nat.mod_eq_of_lt hu,
    List.map_map]
  refine congrArg (_ :: ·) (List.map_congr_left fun k _ => ?_)
  simp only [Function.comp_apply, Nat.mod_add_mod, Nat.succ_eq_add_one]
  rw [Nat.add_assoc, Nat.add_comm 1]

theorem VringUsed.mem_ids {used : VringUsed} {u n : Nat} {d : UInt32} :
    d ∈ used.ids num u n ↔ ∃ k, k < n ∧ (used.ring ((u + k) % num)).id = d := by
  simp [VringUsed.ids]

/-- The links of a descriptor table, by the 16-bit index that `next` holds. -/
def Mem.next (m : Mem) (D : Loc) (d : UInt16) : UInt16 := (m.desc D d.toNat).next

/-- Only the descriptor that is replaced differs. -/
theorem Mem.setDesc_other (m : Mem) (D : Loc) (d : VringDesc) {a b : UInt16} (h : b ≠ a) :
    (m.setDesc D a.toNat d).desc D b.toNat = m.desc D b.toNat :=
  Mem.setDesc_desc_of_ne m D _ _ _ fun heq => h (UInt16.toNat_inj.mp heq)

theorem Mem.setDesc_next (m : Mem) (D : Loc) (a : UInt16) (d : VringDesc) :
    (m.setDesc D a.toNat d).next D = Function.update (m.next D) a d.next := by
  funext b
  by_cases hb : b = a
  · subst hb
    simp [Mem.next]
  · rw [Mem.next, Mem.setDesc_other m D d hb, Function.update_of_ne hb]
    rfl

/-- An index of the table is not the end of a list. -/
theorem ne_none_of_lt {a : UInt16} (h : a.toNat < vhostVringSize) : a ≠ vringIdxNone := by
  rintro rfl
  exact absurd h (by decide)

theorem toNat_toUInt16 {d : UInt32} (h : d.toNat < vhostVringSize) :
    d.toUInt16.toNat = d.toNat := by
  rw [UInt32.toNat_toUInt16]
  exact Nat.mod_eq_of_lt (Nat.lt_trans h (by decide))

theorem freeMem_next (m : Mem) (D : Loc) {d : UInt32} (hd : d.toNat < vhostVringSize)
    (head : UInt16) :
    (freeMem m D d.toNat head).next D = Function.update (m.next D) d.toUInt16 head := by
  rw [← toNat_toUInt16 hd, freeMem, Mem.setDesc_next]

namespace UsedLoop

/-- The part of the state that the walk does not touch. -/
structure Frame (i : RingIdx) (s t : UsedLoop κ) : Prop where
  used : t.mem.used = s.mem.used
  avail : t.mem.avail = s.mem.avail
  byte : t.mem.byte = s.mem.byte
  ring : ∃ head, t.table = s.table.setVring i { s.table.vring i with lastAvailIdx := head }
  addr : ∀ D k, (t.mem.desc D k).addr = (s.mem.desc D k).addr

theorem freeMem_addr (m : Mem) (D : Loc) (d : Nat) (head : UInt16) (D' : Loc) (k : Nat) :
    ((freeMem m D d head).desc D' k).addr = (m.desc D' k).addr := by
  unfold freeMem Mem.setDesc
  by_cases hD : D' = D
  · subst hD
    by_cases hk : k = d
    · subst hk
      simp
    · simp [hk]
  · simp [hD]

theorem reclaim_frame (s : UsedLoop κ) : Frame i s (s.reclaim i D U) :=
  ⟨rfl, rfl, rfl, ⟨_, rfl⟩, freeMem_addr _ _ _ _⟩

theorem Frame.trans {s t u : UsedLoop κ} (h : Frame i s t) (h' : Frame i t u) : Frame i s u := by
  obtain ⟨head, hhead⟩ := h.ring
  obtain ⟨head', hhead'⟩ := h'.ring
  refine ⟨h'.used.trans h.used, h'.avail.trans h.avail, h'.byte.trans h.byte, ⟨head', ?_⟩,
    fun D k => (h'.addr D k).trans (h.addr D k)⟩
  rw [hhead', hhead]
  simp

theorem walk_frame (n : Nat) : ∀ s : UsedLoop κ, Frame i s (s.walk i D U n) := by
  induction n with
  | zero =>
      exact fun s => ⟨rfl, rfl, rfl, ⟨_, (s.table.setVring_vring i).symm⟩, fun _ _ => rfl⟩
  | succ n ih => exact fun s => (reclaim_frame s).trans (ih _)

end UsedLoop

section Walk
variable {s : UsedLoop κ} {n : Nat}

theorem walk_uIdx (n : Nat) : ∀ {s : UsedLoop κ}, Walking sp i D U num s →
    (s.walk i D U n).uIdx.toNat = (s.uIdx.toNat + n) % num := by
  induction n with
  | zero => exact fun h => (Nat.mod_eq_of_lt h.idx).symm
  | succ n ih =>
      intro s h
      show ((s.reclaim i D U).walk i D U n).uIdx.toNat = _
      rw [ih h.reclaim, h.reclaim_uIdx, Nat.mod_add_mod, Nat.add_assoc, Nat.add_comm 1]

/-- The calls of `_free_vring`: one for each entry, in order. -/
theorem walk_freed (n : Nat) : ∀ {s : UsedLoop κ}, Walking sp i D U num s →
    (s.walk i D U n).freed = s.freed ++ (List.range n).map fun k =>
      ((s.uIdx.toNat + k) % num, ((s.mem.used U).ring ((s.uIdx.toNat + k) % num)).id) := by
  induction n with
  | zero => exact fun _ => (List.append_nil _).symm
  | succ n ih =>
      intro s h
      show ((s.reclaim i D U).walk i D U n).freed = _
      rw [ih h.reclaim, UsedLoop.reclaim_used, List.range_succ_eq_map, List.map_cons,
        Nat.add_zero, Nat.mod_eq_of_lt h.idx, List.map_map, h.reclaim_uIdx]
      show s.freed ++ [_] ++ _ = _
      rw [List.append_assoc]
      refine congrArg (s.freed ++ _ :: ·) (List.map_congr_left fun k _ => ?_)
      simp only [Function.comp_apply, Nat.mod_add_mod, Nat.succ_eq_add_one]
      rw [Nat.add_assoc, Nat.add_comm 1]

/-- A descriptor that no entry names keeps its contents. -/
theorem walk_desc_of_notMem (n : Nat) : ∀ {s : UsedLoop κ} {d : Nat}, Walking sp i D U num s →
    (∀ e ∈ (s.mem.used U).ids num s.uIdx.toNat n, e.toNat ≠ d) →
    (s.walk i D U n).mem.desc D d = s.mem.desc D d := by
  induction n with
  | zero => exact fun _ _ => rfl
  | succ n ih =>
      intro s d h hd
      rw [VringUsed.ids_succ h.idx, ← h.reclaim_uIdx, ← UsedLoop.reclaim_used (i := i) (D := D)]
        at hd
      show ((s.reclaim i D U).walk i D U n).mem.desc D d = _
      rw [ih h.reclaim fun e he => hd e (List.mem_cons_of_mem _ he)]
      exact Mem.setDesc_desc_of_ne _ _ _ _ _ (hd _ (List.mem_cons_self ..)).symm

/-- A descriptor that some entry names has the length of a fresh one. -/
theorem walk_len_of_mem (n : Nat) : ∀ {s : UsedLoop κ} {e : UInt32}, Walking sp i D U num s →
    e ∈ (s.mem.used U).ids num s.uIdx.toNat n →
    ((s.walk i D U n).mem.desc D e.toNat).len = .ofNat bufferSize := by
  induction n with
  | zero => exact fun _ he => absurd he List.not_mem_nil
  | succ n ih =>
      intro s e h he
      have hrest : (s.mem.used U).ids num ((s.uIdx.toNat + 1) % num) n =
          ((s.reclaim i D U).mem.used U).ids num (s.reclaim i D U).uIdx.toNat n := by
        rw [h.reclaim_uIdx, UsedLoop.reclaim_used]
      show (((s.reclaim i D U).walk i D U n).mem.desc D e.toNat).len = _
      by_cases hlater : ∃ e' ∈ ((s.reclaim i D U).mem.used U).ids num
          (s.reclaim i D U).uIdx.toNat n, e'.toNat = e.toNat
      · obtain ⟨e', he', heq⟩ := hlater
        rw [← heq]
        exact ih h.reclaim he'
      · rw [walk_desc_of_notMem n h.reclaim fun e' he' heq => hlater ⟨e', he', heq⟩]
        rw [VringUsed.ids_succ h.idx, hrest] at he
        rcases List.mem_cons.mp he with heq | hmem
        · rw [heq]
          exact congrArg VringDesc.len (Mem.setDesc_desc_self ..)
        · exact absurd ⟨e, hmem, rfl⟩ hlater

open ArrayChain in
/-- **The freed descriptors are linked in front of the free list**, the last one first. -/
theorem walk_chain (n : Nat) : ∀ {s : UsedLoop κ} {free : List UInt16},
    Walking sp i D U num s →
    (∀ e ∈ (s.mem.used U).ids num s.uIdx.toNat n, e.toNat < vhostVringSize) →
    Chain (s.mem.next D) vringIdxNone (s.table.vring i).lastAvailIdx free →
    (((s.mem.used U).ids num s.uIdx.toNat n).map UInt32.toUInt16 ++ free).Nodup →
    Chain ((s.walk i D U n).mem.next D) vringIdxNone
      ((s.walk i D U n).table.vring i).lastAvailIdx
      ((((s.mem.used U).ids num s.uIdx.toNat n).map UInt32.toUInt16).reverse ++ free) := by
  induction n with
  | zero => exact fun _ _ hchain _ => hchain
  | succ n ih =>
      intro s free h hids hchain hnodup
      rw [VringUsed.ids_succ h.idx] at hids hnodup ⊢
      rw [List.map_cons, List.cons_append, List.nodup_cons] at hnodup
      obtain ⟨hnew, hnodup⟩ := hnodup
      have hid : (s.entry U).id.toNat < vhostVringSize := hids _ (List.mem_cons_self ..)
      have hne : (s.entry U).id.toUInt16 ≠ vringIdxNone :=
        ne_none_of_lt ((toNat_toUInt16 hid).symm ▸ hid)
      have hpush : Chain ((s.reclaim i D U).mem.next D) vringIdxNone
          ((s.reclaim i D U).table.vring i).lastAvailIdx ((s.entry U).id.toUInt16 :: free) := by
        have hnext : (s.reclaim i D U).mem.next D =
            Function.update (s.mem.next D) (s.entry U).id.toUInt16
              (s.table.vring i).lastAvailIdx := freeMem_next _ _ hid _
        rw [hnext]
        simpa [UsedLoop.reclaim, UsedLoop.entry] using
          hchain.push (fun hmem => hnew (List.mem_append_right _ hmem)) hne
      have hrest := @ih _ ((s.entry U).id.toUInt16 :: free) h.reclaim
      rw [UsedLoop.reclaim_used, h.reclaim_uIdx] at hrest
      have := hrest (fun e he => hids e (List.mem_cons_of_mem _ he)) hpush
        (List.nodup_middle.mpr (List.nodup_cons.mpr ⟨hnew, hnodup⟩))
      rw [List.map_cons, List.reverse_cons, List.append_assoc]
      exact this

end Walk

/-! ### The whole call -/

section Call
variable {t : VringTable κ} {m : Mem}

/-- How many steps modulo `num` lead from slot `u` to slot `idx`. -/
def usedDistance (num u idx : Nat) : Nat := (idx + num - u) % num

theorem usedDistance_lt {u idx : Nat} (h : u < num) : usedDistance num u idx < num :=
  Nat.mod_lt _ (Nat.lt_of_le_of_lt (Nat.zero_le _) h)

theorem add_usedDistance {u idx : Nat} (hu : u < num) (hidx : idx < num) :
    (u + usedDistance num u idx) % num = idx := by
  rw [usedDistance, Nat.add_mod_mod, Nat.add_sub_cancel' (by omega), Nat.add_mod_right,
    Nat.mod_eq_of_lt hidx]

/-- The loop state that a call of `process_used_vring` starts from. -/
def UsedLoop.start (t : VringTable κ) (i : RingIdx) (m : Mem) : UsedLoop κ :=
  ⟨t, m, (t.vring i).lastUsedIdx, []⟩

/-- What the call leaves behind after `n` entries. -/
def UsedLoop.finish (i : RingIdx) (s : UsedLoop κ) : UsedLoop κ :=
  { s with table := s.table.setVring i { s.table.vring i with lastUsedIdx := s.uIdx } }

/-- The call moves the two indices of its ring and nothing else in the table. -/
theorem UsedLoop.finish_table (n : Nat) (t : VringTable κ) (m : Mem) :
    ∃ head idx, (((start t i m).walk i D U n).finish i).table =
      t.setVring i { t.vring i with lastAvailIdx := head, lastUsedIdx := idx } := by
  obtain ⟨head, hhead⟩ := (walk_frame (i := i) (D := D) (U := U) n (start t i m)).ring
  refine ⟨head, ((start t i m).walk i D U n).uIdx, ?_⟩
  simp only [finish, hhead, VringTable.setVring_setVring, VringTable.setVring_self]
  rfl

/-- **When `process_used_vring` returns, and what it has done then.** -/
theorem processUsedVring_ret_iff {fuel : Nat} {r : UsedLoop κ}
    (h : Walking sp i D U num (.start t i m)) :
    processUsedVring sp fuel t i m = .ret r ↔
      (m.used U).idx.toNat < num ∧
      usedDistance num (t.vring i).lastUsedIdx.toNat (m.used U).idx.toNat < fuel ∧
      (∀ e ∈ (m.used U).ids num (t.vring i).lastUsedIdx.toNat
        (usedDistance num (t.vring i).lastUsedIdx.toNat (m.used U).idx.toNat),
        e.toNat < vhostVringSize) ∧
      r = ((UsedLoop.start t i m).walk i D U
        (usedDistance num (t.vring i).lastUsedIdx.toNat (m.used U).idx.toNat)).finish i := by
  have hcall : processUsedVring sp fuel t i m = .ret r ↔
      ∃ s, Outcome.loop (usedTurn sp i) fuel (.start t i m) = .ret s ∧ r = s.finish i := by
    refine Outcome.bind_eq_ret.trans (exists_congr fun s => and_congr Iff.rfl ?_)
    exact ⟨fun h => (Outcome.ret.inj h).symm, fun h => congrArg Outcome.ret h.symm⟩
  rw [hcall]
  rcases Nat.lt_or_ge (m.used U).idx.toNat num with hlt | hge
  · have hstep : ∀ s, Outcome.loop (usedTurn sp i) fuel (.start t i m) = .ret s ↔ _ := fun s =>
      usedLoop_ret_iff (r := s) _ h (usedDistance_lt h.idx) (add_usedDistance h.idx hlt)
    constructor
    · rintro ⟨s, hs, rfl⟩
      obtain ⟨hf, hids, rfl⟩ := (hstep s).mp hs
      refine ⟨hlt, hf, fun e he => ?_, rfl⟩
      obtain ⟨k, hk, rfl⟩ := VringUsed.mem_ids.mp he
      exact hids k hk
    · rintro ⟨-, hf, hids, rfl⟩
      exact ⟨_, (hstep _).mpr ⟨hf, fun k hk => hids _ (VringUsed.mem_ids.mpr ⟨k, hk, rfl⟩), rfl⟩,
        rfl⟩
  · constructor
    · rintro ⟨s, hs, -⟩
      exact absurd hs (usedLoop_ne_ret h hge fuel s)
    · rintro ⟨hlt, -⟩
      exact absurd hlt (Nat.not_lt.mpr hge)

end Call

end Vapp
