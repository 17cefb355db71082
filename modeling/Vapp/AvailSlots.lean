import Vapp.AvailBatch

/-! # The avail slots of producer and consumer

The producer reduces the free-running index of each entry modulo `num`.  The consumer
reduces it once, at the start of a call, and then steps the slot modulo `num`.  The two
agree as long as the index does not wrap inside the call, and across the wrap when `num`
divides `2 ^ 16`; then it does not matter either how the entries are split into calls.
-/
namespace Vapp

open Counter16

variable {κ : Type} {sp : AddrSpace} {t : VringTable κ} {i : RingIdx} {m : Mem} {fuel : Nat}
  {num : UInt32} {A U : Loc}

/-- The slot of the entry `j` after index `last`, as the producer computes it. -/
def slotOf (num : UInt32) (last : UInt16) (j : Nat) : Nat :=
  (last + of j).toNat % num.toNat

/-! ### Writing entries -/

section Write
variable {ds : List UInt16} {a : VringAvail}

theorem slotOf_succ (last : UInt16) (j : Nat) :
    slotOf num (last + 1) j = slotOf num last (j + 1) := by
  have : last + 1 + of j = last + of (j + 1) := by
    rw [UInt16.add_assoc, show (1 : UInt16) = of 1 from rfl, of_add_of, Nat.add_comm 1]
  rw [slotOf, slotOf, this]

theorem slotOf_zero (last : UInt16) : slotOf num last 0 = last.toNat % num.toNat := by
  rw [slotOf, of_zero, UInt16.add_zero]

theorem addAll_idx (ds : List UInt16) : ∀ a : VringAvail,
    (a.addAll num ds).idx = a.idx + of ds.length := by
  induction ds with
  | nil => exact fun a => (UInt16.add_zero _).symm
  | cons d ds ih =>
      intro a
      rw [VringAvail.addAll, ih, List.length_cons, ← of_add_one]
      show a.idx + 1 + of ds.length = _
      rw [UInt16.add_assoc, UInt16.add_comm 1]

/-- A slot that none of the entries goes to keeps what it held. -/
theorem addAll_ring_of_ne (ds : List UInt16) : ∀ {a : VringAvail} {k : Nat},
    (∀ j, j < ds.length → slotOf num a.idx j ≠ k) → (a.addAll num ds).ring k = a.ring k := by
  induction ds with
  | nil => exact fun _ => rfl
  | cons d ds ih =>
      intro a k h
      rw [VringAvail.addAll, ih fun j hj => ?_]
      · refine Function.update_of_ne ?_ _ _
        rw [← slotOf_zero]
        exact (h 0 (Nat.succ_pos _)).symm
      · show slotOf num (a.idx + 1) j ≠ k
        rw [slotOf_succ]
        exact h (j + 1) (Nat.succ_lt_succ hj)

/-- Entries that go to different slots are all there afterwards. -/
theorem addAll_ring (ds : List UInt16) : ∀ {a : VringAvail} {j : Nat} {d : UInt16},
    (∀ j k, j < k → k < ds.length → slotOf num a.idx j ≠ slotOf num a.idx k) →
    ds[j]? = some d → (a.addAll num ds).ring (slotOf num a.idx j) = d := by
  induction ds with
  | nil => exact fun _ h => nomatch h
  | cons e ds ih =>
      intro a j d h hd
      have hrest : ∀ j k, j < k → k < ds.length →
          slotOf num (a.add num e).idx j ≠ slotOf num (a.add num e).idx k := by
        intro j k hjk hk
        show slotOf num (a.idx + 1) j ≠ slotOf num (a.idx + 1) k
        rw [slotOf_succ, slotOf_succ]
        exact h _ _ (Nat.succ_lt_succ hjk) (Nat.succ_lt_succ hk)
      cases j with
      | zero =>
          cases hd
          rw [VringAvail.addAll, addAll_ring_of_ne ds fun k hk => ?_, slotOf_zero]
          · exact Function.update_self ..
          · show slotOf num (a.idx + 1) k ≠ _
            rw [slotOf_succ]
            exact (h 0 (k + 1) (Nat.succ_pos k) (Nat.succ_lt_succ hk)).symm
      | succ j =>
          rw [← slotOf_succ]
          exact ih hrest hd

/-- **Entries can be written exactly when all of their slots lie in the array.** -/
theorem writeEntries_ret_iff {p : UInt64} (hA : sp.resolve p = some A) (hnum : num ≠ 0)
    (ds : List UInt16) : ∀ {m m' : Mem}, writeEntries sp p num ds m = .ret m' ↔
      (∀ j, j < ds.length → slotOf num (m.avail A).idx j < vhostVringSize) ∧
        m' = m.setAvail A ((m.avail A).addAll num ds) := by
  induction ds with
  | nil =>
      intro m m'
      have hsame : m.setAvail A (m.avail A) = m := by
        simp [Mem.setAvail]
      rw [writeEntries, VringAvail.addAll, hsame]
      exact ⟨fun h => ⟨fun j hj => absurd hj (Nat.not_lt_zero j), (Outcome.ret.inj h).symm⟩,
        fun h => congrArg _ h.2.symm⟩
  | cons d ds ih =>
      intro m m'
      have hfirst : slotOf num (m.avail A).idx 0 = (m.avail A).idx.toNat % num.toNat :=
        slotOf_zero _
      have hnext : ∀ j, slotOf num ((m.setAvail A ((m.avail A).add num d)).avail A).idx j =
          slotOf num (m.avail A).idx (j + 1) := by
        intro j
        rw [Mem.setAvail_avail_self]
        exact slotOf_succ _ j
      have hmem : ∀ a b, (m.setAvail A a).setAvail A b = m.setAvail A b := by
        intro a b
        simp [Mem.setAvail]
      rw [writeEntries]
      constructor
      · intro h
        obtain ⟨m1, h1, h⟩ := Outcome.bind_eq_ret.mp h
        obtain ⟨l, hl, hadd⟩ := Outcome.bind_eq_ret.mp h1
        rw [deref_eq_ret, hA] at hl
        cases hl
        obtain ⟨_, _, hadd⟩ := Outcome.bind_eq_ret.mp hadd
        obtain ⟨_, hslot, hadd⟩ := Outcome.bind_eq_ret.mp hadd
        cases hadd
        obtain ⟨hrange, rfl⟩ := ih.mp h
        refine ⟨fun j hj => ?_, ?_⟩
        · cases j with
          | zero =>
              rw [hfirst]
              exact Outcome.require_eq_ret.mp hslot
          | succ j =>
              rw [← hnext]
              exact hrange j (Nat.lt_of_succ_lt_succ hj)
        · rw [hmem, Mem.setAvail_avail_self]
          rfl
      · rintro ⟨hrange, rfl⟩
        have hslot := hrange 0 (Nat.succ_pos _)
        rw [hfirst] at hslot
        rw [addAvail_of_resolve hA hnum hslot, Outcome.ret_bind]
        refine ih.mpr ⟨fun j hj => ?_, ?_⟩
        · rw [hnext]
          exact hrange (j + 1) (Nat.succ_lt_succ hj)
        · rw [hmem, Mem.setAvail_avail_self]
          rfl

end Write

/-! ### The loop of `process_avail_vring` -/

/-- Entries for `ds` are pending, in the slots the consumer is going to visit from `a` on. -/
structure Pending (sp : AddrSpace) (i : RingIdx) (A : Loc) (t : VringTable κ) (m : Mem)
    (a : UInt16) (ds : List UInt16) : Prop where
  avail : sp.resolve (t.vring i).avail = some A
  num : (t.vring i).num ≠ 0
  short : ds.length < 65536
  idx : (m.avail A).idx = (t.vring i).lastAvailIdx + of ds.length
  start : a.toNat < (t.vring i).num.toNat
  slot : ∀ (j : Nat) (d : UInt16), ds[j]? = some d →
    (a.toNat + j) % (t.vring i).num.toNat < vhostVringSize ∧
      (m.avail A).ring ((a.toNat + j) % (t.vring i).num.toNat) = d

namespace Pending
variable {a d : UInt16} {ds : List UInt16}

/-- The turn that consumes the first pending entry. -/
theorem turn (h : Pending sp i A t m a (d :: ds)) :
    availTurn sp fuel t i a m = (do
      let r ← processHead sp fuel t i d m
      return some
        { table := r.table.setVring i (r.table.vring i).consumed
          mem := r.mem
          aIdx := nextSlot (t.vring i).num a
          call := r.call }) := by
  have hslot := h.slot 0 d rfl
  rw [Nat.add_zero, Nat.mod_eq_of_lt h.start] at hslot
  have hne : (t.vring i).lastAvailIdx ≠ (m.avail A).idx := by
    have hshort := h.short
    rw [h.idx]
    intro heq
    have := congrArg UInt16.toNat heq
    rw [UInt16.toNat_add, toNat_of] at this
    rw [List.length_cons] at hshort this
    have hlast := (t.vring i).lastAvailIdx.toNat_lt
    omega
  simp only [availTurn, loadAvailIdx_of_resolve h.avail, Outcome.ret_bind, if_neg hne,
    processDesc_eq_head h.num h.avail hslot.1, hslot.2]
  rfl

/-- The turn at the end of the pending entries. -/
theorem turn_nil (h : Pending sp i A t m a []) : availTurn sp fuel t i a m = .ret none := by
  refine availTurn_of_eq h.avail ?_
  rw [h.idx, List.length_nil, of_zero, UInt16.add_zero]

theorem nextSlot_toNat (h : Pending sp i A t m a (d :: ds)) (hne : ds ≠ []) :
    (nextSlot (t.vring i).num a).toNat = (a.toNat + 1) % (t.vring i).num.toNat := by
  obtain ⟨e, ds, rfl⟩ := List.exists_cons_of_ne_nil hne
  have hlt := (h.slot 1 e rfl).1
  rw [nextSlot, UInt16.toNat_ofNat_of_lt' (Nat.lt_trans hlt (by decide))]

/-- What is pending after the first entry was consumed. -/
theorem next (h : Pending sp i A t m a (d :: ds)) {r : DescResult κ}
    (hr : processHead sp fuel t i d m = .ret r) :
    Pending sp i A (r.table.setVring i (r.table.vring i).consumed) r.mem
      (nextSlot (t.vring i).num a) ds := by
  have hf := processHead_frame hr
  have hpos : 0 < (t.vring i).num.toNat := Nat.lt_of_le_of_lt (Nat.zero_le _) h.start
  have hshort := h.short
  rw [List.length_cons] at hshort
  have hidx := h.idx
  rw [List.length_cons, ← of_add_one] at hidx
  refine
    { avail := ?_
      num := ?_
      short := Nat.lt_of_succ_lt hshort
      idx := ?_
      start := ?_
      slot := ?_ }
  · simpa [hf.vring] using h.avail
  · simpa [hf.vring] using h.num
  · rw [hf.avail, hidx]
    simp only [VringTable.setVring_self, hf.vring, Vring.consumed]
    rw [UInt16.add_assoc, UInt16.add_comm 1]
  · simp only [VringTable.setVring_self, Vring.consumed_num, hf.vring]
    refine Nat.lt_of_le_of_lt ?_ (Nat.mod_lt (a.toNat + 1) hpos)
    rw [nextSlot, UInt16.toNat_ofNat']
    exact Nat.mod_le _ _
  · intro j e he
    have hne : ds ≠ [] := by
      rintro rfl
      cases he
    have hslot := h.slot (j + 1) e he
    simp only [VringTable.setVring_self, Vring.consumed_num, hf.vring, hf.avail,
      h.nextSlot_toNat hne, Nat.mod_add_mod]
    rwa [Nat.add_assoc, Nat.add_comm 1]

end Pending

/-- The slots the consumer visits. -/
def visited (num : UInt32) (a : UInt16) (n : Nat) : List UInt16 :=
  (List.range n).map fun j => of ((a.toNat + j) % num.toNat)

theorem Pending.visited_cons {a d : UInt16} {ds : List UInt16}
    (h : Pending sp i A t m a (d :: ds)) :
    visited (t.vring i).num a (d :: ds).length =
      a :: visited (t.vring i).num (nextSlot (t.vring i).num a) ds.length := by
  rw [visited, visited, List.length_cons, List.range_succ_eq_map, List.map_cons, Nat.add_zero,
    Nat.mod_eq_of_lt h.start, of_toNat, List.map_map]
  refine congrArg (a :: ·) (List.map_congr_left fun j hj => ?_)
  have hne : ds ≠ [] := by
    rintro rfl
    exact absurd (List.mem_range.mp hj) (Nat.not_lt_zero j)
  rw [Function.comp_apply, h.nextSlot_toNat hne, Nat.mod_add_mod, Nat.add_assoc,
    Nat.add_comm 1]

/-- **The loop consumes what is pending**, in order. -/
theorem availLoop_eq (fuel : Nat) (ds : List UInt16) : ∀ {s : AvailLoop κ} {turns : Nat},
    Pending sp i A s.table s.mem s.aIdx ds → ds.length < turns →
    ∃ e, Outcome.loop (availBody sp fuel i) turns s = (do
      let c ← consumeHeads sp fuel i ds s.table s.mem
      return ⟨c.table, c.mem, e, s.count + .ofNat ds.length,
        s.slots ++ visited (s.table.vring i).num s.aIdx ds.length, s.calls ++ c.calls⟩) := by
  induction ds with
  | nil =>
      intro s turns h hturns
      obtain ⟨turns, rfl⟩ : ∃ k, turns = k + 1 := ⟨turns - 1, by omega⟩
      refine ⟨s.aIdx, ?_⟩
      rw [Outcome.loop_succ, availBody, h.turn_nil]
      simp [consumeHeads, visited]
  | cons d ds ih =>
      intro s turns h hturns
      obtain ⟨turns, rfl⟩ : ∃ k, turns = k + 1 := ⟨turns - 1, by omega⟩
      rw [List.length_cons] at hturns
      rw [Outcome.loop_succ, availBody, h.turn]
      cases hr : processHead sp fuel s.table i d s.mem with
      | fault e => exact ⟨s.aIdx, by simp [consumeHeads, hr]⟩
      | spent => exact ⟨s.aIdx, by simp [consumeHeads, hr]⟩
      | ret r =>
          have hnum : (r.table.vring i).num = (s.table.vring i).num := by
            rw [(processHead_frame hr).vring]
          obtain ⟨e, he⟩ := ih (s :=
            { table := r.table.setVring i (r.table.vring i).consumed
              mem := r.mem
              aIdx := nextSlot (s.table.vring i).num s.aIdx
              count := s.count + 1
              slots := s.slots ++ [s.aIdx]
              calls := s.calls ++ r.call.toList }) (h.next hr) (show ds.length < turns by omega)
          have hcount : s.count + 1 + .ofNat ds.length = s.count + .ofNat (ds.length + 1) := by
            rw [UInt32.add_assoc, UInt32.ofNat_add, UInt32.add_comm 1]
            rfl
          refine ⟨e, ?_⟩
          simp only [Outcome.ret_bind, Outcome.pure_eq, consumeHeads, hr, Outcome.bind_assoc,
            h.visited_cons]
          refine he.trans (congrArg _ (funext fun c => ?_))
          simp only [VringTable.setVring_self, Vring.consumed_num, hnum, hcount,
            List.append_assoc, List.singleton_append, List.length_cons, Outcome.pure_eq]

/-- **A call consumes what is pending**, and publishes it. -/
theorem processAvailVring_of_pending (fuel : Nat) {ds : List UInt16}
    (h : Pending sp i A t m (of ((t.vring i).lastAvailIdx.toNat % (t.vring i).num.toNat)) ds) :
    ∃ e, processAvailVring sp fuel t i m = (do
      let c ← consumeHeads sp fuel i ds t m
      let m' ← availLeave sp c.table i c.mem
      return ⟨c.table, m', e, .ofNat ds.length,
        visited (t.vring i).num (of ((t.vring i).lastAvailIdx.toNat % (t.vring i).num.toNat))
          ds.length,
        c.calls⟩) := by
  obtain ⟨e, he⟩ := availLoop_eq fuel
    (s := ⟨t, m, of ((t.vring i).lastAvailIdx.toNat % (t.vring i).num.toNat), 0, [], []⟩) ds h
    (show ds.length < availTurns from h.short)
  refine ⟨e, ?_⟩
  have henter : availEnter t i =
      .ret (of ((t.vring i).lastAvailIdx.toNat % (t.vring i).num.toNat)) := by
    simp only [availEnter, Outcome.require_pos h.num, Outcome.ret_bind]
    rfl
  rw [processAvailVring, henter, Outcome.ret_bind, he]
  simp only [Outcome.bind_assoc, Outcome.pure_eq, Outcome.ret_bind, List.nil_append,
    UInt32.zero_add]

/-! ### The window of new entries -/

/-- A ring with nothing pending, and room for `n` entries whose slots producer and consumer
compute alike. -/
structure Window (sp : AddrSpace) (i : RingIdx) (A U : Loc) (t : VringTable κ) (m : Mem)
    (n : Nat) : Prop where
  avail : sp.resolve (t.vring i).avail = some A
  used : sp.resolve (t.vring i).used = some U
  num : (t.vring i).num ≠ 0
  idx : (m.avail A).idx = (t.vring i).lastAvailIdx
  small : n ≤ (t.vring i).num.toNat
  range : ∀ j, j < n → slotOf (t.vring i).num (t.vring i).lastAvailIdx j < vhostVringSize
  agree : (t.vring i).num.toNat ∣ 65536 ∨ (t.vring i).lastAvailIdx.toNat + n ≤ 65536

/-- The two ways to reduce an index agree. -/
theorem slotOf_eq {last : UInt16} {n j : Nat}
    (h : num.toNat ∣ 65536 ∨ last.toNat + n ≤ 65536) (hj : j < n) :
    slotOf num last j = (last.toNat + j) % num.toNat := by
  rw [slotOf, of_add]
  rcases h with hdvd | hle
  · exact slot_of hdvd _
  · rw [toNat_of_lt (by omega)]

/-- Slots inside the array bound the number of entries. -/
theorem lt_of_range {last : UInt16} {n : Nat} (hsmall : n ≤ num.toNat)
    (h : ∀ j, j < n → slotOf num last j < vhostVringSize) : n < 65536 := by
  apply Decidable.byContradiction
  intro hn
  have hlast := last.toNat_lt
  -- index 65535 would be in its own slot
  have hslot := h (65535 - last.toNat) (by omega)
  rw [slotOf, of_add, toNat_of, Nat.add_sub_cancel' (by omega), Nat.mod_eq_of_lt (by omega),
    Nat.mod_eq_of_lt (by omega)] at hslot
  exact absurd hslot (by decide)

namespace Window
variable {ds : List UInt16}

theorem pending (h : Window sp i A U t m ds.length) :
    Pending sp i A t (m.setAvail A ((m.avail A).addAll (t.vring i).num ds))
      (of ((t.vring i).lastAvailIdx.toNat % (t.vring i).num.toNat)) ds := by
  have hpos : 0 < (t.vring i).num.toNat := by
    apply Nat.pos_of_ne_zero
    intro hzero
    exact h.num (UInt32.toNat_inj.mp hzero)
  have hlast := (t.vring i).lastAvailIdx.toNat_lt
  have hstart : (of ((t.vring i).lastAvailIdx.toNat % (t.vring i).num.toNat)).toNat =
      (t.vring i).lastAvailIdx.toNat % (t.vring i).num.toNat :=
    toNat_of_lt (Nat.lt_of_le_of_lt (Nat.mod_le _ _) hlast)
  refine
    { avail := h.avail
      num := h.num
      short := lt_of_range h.small h.range
      idx := ?_
      start := ?_
      slot := ?_ }
  · rw [Mem.setAvail_avail_self, addAll_idx, h.idx]
  · rw [hstart]
    exact Nat.mod_lt _ hpos
  · intro j d hd
    obtain ⟨hj, -⟩ := List.getElem?_eq_some_iff.mp hd
    rw [hstart, Nat.mod_add_mod, ← slotOf_eq h.agree hj, Mem.setAvail_avail_self]
    refine ⟨h.range j hj, ?_⟩
    rw [← h.idx]
    refine addAll_ring ds (fun j k hjk hk => ?_) hd
    have hk' := h.small
    rw [h.idx, slotOf_eq h.agree (by omega), slotOf_eq h.agree hk]
    exact slot_ne (by omega) (by omega)

/-- What is left of a window when its first entries have been written and consumed. -/
theorem rest {as bs : List UInt16} (h : Window sp i A U t m (as ++ bs).length)
    {t' : VringTable κ} {m' : Mem} (hvring : t'.vring i = (t.vring i).advance as.length)
    (havail : (m'.avail A).idx = (m.avail A).idx + of as.length) :
    Window sp i A U t' m' bs.length := by
  have hlen : (as ++ bs).length = as.length + bs.length := List.length_append
  have hshort := lt_of_range h.small h.range
  have hsmall := h.small
  have hlast := (t.vring i).lastAvailIdx.toNat_lt
  refine
    { avail := by simpa [hvring] using h.avail
      used := by simpa [hvring] using h.used
      num := by simpa [hvring] using h.num
      idx := by rw [havail, h.idx, hvring]; rfl
      small := by rw [hvring]; exact Nat.le_trans (by omega) hsmall
      range := fun j hj => ?_
      agree := ?_ }
  · have hslot := h.range (as.length + j) (by omega)
    rw [hvring]
    rwa [slotOf, ← of_add_of, ← UInt16.add_assoc] at hslot
  · rw [hvring]
    rcases h.agree with hdvd | hle
    · exact .inl hdvd
    · refine .inr ?_
      show ((t.vring i).lastAvailIdx + of as.length).toNat + bs.length ≤ 65536
      rw [of_add, toNat_of]
      omega

end Window

/-! ### Splitting the entries into calls -/

/-- Write the entries of each batch and consume them in a call of its own. -/
def runBatches (sp : AddrSpace) (fuel : Nat) (i : RingIdx) :
    List (List UInt16) → VringTable κ → Mem → Run (Consumed κ)
  | [], t, m => .ret ⟨t, m, []⟩
  | ds :: bss, t, m => do
      let m ← writeEntries sp (t.vring i).avail (t.vring i).num ds m
      let c ← processAvailVring sp fuel t i m
      let r ← runBatches sp fuel i bss c.table c.mem
      return { r with calls := c.calls ++ r.calls }

/-- The memory after entries for `ds` have been written, consumed and published. -/
def batchMem (A U : Loc) (avail : VringAvail) (lastUsed : UInt16) (m : Mem) : Mem :=
  (m.setAvail A avail).setUsed U { (m.setAvail A avail).used U with idx := lastUsed }

theorem batchMem_batchMem (A U : Loc) (a a' : VringAvail) (x x' : UInt16) (m : Mem) :
    batchMem A U a' x' (batchMem A U a x m) = batchMem A U a' x' m := by
  simp [batchMem, Mem.setAvail, Mem.setUsed]

@[simp] theorem batchMem_avail (A U : Loc) (a : VringAvail) (x : UInt16) (m : Mem) :
    (batchMem A U a x m).avail A = a := Mem.setAvail_avail_self m A a

theorem unread_batchMem (A U : Loc) (a : VringAvail) (x : UInt16) :
    Unread sp (batchMem A U a x) := (unread_setAvail A a).comp (unread_setUsedIdx U x)

theorem addAll_append (num : UInt32) (as bs : List UInt16) : ∀ a : VringAvail,
    a.addAll num (as ++ bs) = (a.addAll num as).addAll num bs := by
  induction as with
  | nil => exact fun _ => rfl
  | cons d as ih => exact fun a => ih (a.add num d)

/-- What a batch leaves behind, in terms of what consuming its heads does. -/
def batchResult (sp : AddrSpace) (fuel : Nat) (i : RingIdx) (A U : Loc) (ds : List UInt16)
    (t : VringTable κ) (m : Mem) : Run (Consumed κ) := do
  let c ← consumeHeads sp fuel i ds t m
  return { c with
    mem := batchMem A U ((m.avail A).addAll (t.vring i).num ds)
      (c.table.vring i).lastUsedIdx c.mem }

theorem Window.runBatch {ds : List UInt16} (h : Window sp i A U t m ds.length) :
    runBatches sp fuel i [ds] t m = batchResult sp fuel i A U ds t m := by
  obtain ⟨e, he⟩ := processAvailVring_of_pending fuel h.pending
  have hwrite := (writeEntries_ret_iff h.avail h.num ds).mpr
    ⟨fun j hj => by rw [h.idx]; exact h.range j hj, rfl⟩
  rw [runBatches, hwrite, Outcome.ret_bind, he,
    (unread_setAvail A _).consumeHeads ds, batchResult]
  cases hc : consumeHeads sp fuel i ds t m with
  | fault e => rfl
  | spent => rfl
  | ret c =>
      have hused : sp.resolve (c.table.vring i).used = some U := by
        rw [(consumeHeads_frame ds hc).vring]
        exact h.used
      simp only [Outcome.ret_bind, availLeave, storeUsedIdx_of_resolve hused, runBatches,
        Outcome.pure_eq, List.append_nil]
      rfl

/-- A batch after another one is one batch of both. -/
theorem batchResult_append (as bs : List UInt16) :
    (batchResult sp fuel i A U as t m >>= fun c =>
      batchResult sp fuel i A U bs c.table c.mem >>= fun c' =>
        .ret { c' with calls := c.calls ++ c'.calls }) =
      batchResult sp fuel i A U (as ++ bs) t m := by
  rw [batchResult, batchResult, consumeHeads_append]
  cases hc : consumeHeads sp fuel i as t m with
  | fault e => rfl
  | spent => rfl
  | ret c =>
      have hnum : (c.table.vring i).num = (t.vring i).num := by
        rw [(consumeHeads_frame as hc).vring]
        rfl
      simp only [Outcome.ret_bind, Outcome.pure_eq, batchResult,
        (unread_batchMem A U _ _).consumeHeads bs, Outcome.bind_assoc, batchMem_avail,
        batchMem_batchMem, hnum, addAll_append]

theorem runBatches_cons (ds : List UInt16) (bss : List (List UInt16)) (t : VringTable κ) (m : Mem) :
    runBatches sp fuel i (ds :: bss) t m =
      runBatches sp fuel i [ds] t m >>= fun c =>
        runBatches sp fuel i bss c.table c.mem >>= fun c' =>
          .ret { c' with calls := c.calls ++ c'.calls } := by
  simp only [runBatches, Outcome.bind_assoc, Outcome.ret_bind, Outcome.pure_eq, List.append_nil]

theorem Window.mono {n k : Nat} (h : Window sp i A U t m n) (hk : k ≤ n) :
    Window sp i A U t m k :=
  ⟨h.avail, h.used, h.num, h.idx, Nat.le_trans hk h.small,
    fun j hj => h.range j (Nat.lt_of_lt_of_le hj hk), h.agree.imp_right fun hle => by omega⟩

/-- **The batches do not matter**: any way to split new entries into calls does what one
call for all of them does. -/
theorem runBatches_eq (bss : List (List UInt16)) : ∀ {t : VringTable κ} {m : Mem}, bss ≠ [] →
    Window sp i A U t m bss.flatten.length →
    runBatches sp fuel i bss t m = batchResult sp fuel i A U bss.flatten t m := by
  induction bss with
  | nil => exact fun h => absurd rfl h
  | cons ds bss ih =>
      intro t m _ h
      by_cases hlast : bss = []
      · subst hlast
        rw [List.flatten_singleton] at h ⊢
        exact h.runBatch
      · rw [List.flatten_cons] at h ⊢
        have hfirst := h.mono (k := ds.length) (by
          rw [List.length_append]
          exact Nat.le_add_right _ _)
        rw [runBatches_cons, hfirst.runBatch, ← batchResult_append]
        cases hb : batchResult sp fuel i A U ds t m with
        | fault e => rfl
        | spent => rfl
        | ret b =>
            obtain ⟨c, hc, hb⟩ := Outcome.bind_eq_ret.mp hb
            cases hb
            have hidx : ((batchMem A U ((m.avail A).addAll (t.vring i).num ds)
                (c.table.vring i).lastUsedIdx c.mem).avail A).idx =
                (m.avail A).idx + of ds.length := by
              rw [batchMem_avail, addAll_idx]
            have hrest := h.rest (consumeHeads_frame ds hc).vring hidx
            simp only [Outcome.ret_bind]
            rw [ih hlast hrest]

end Vapp
