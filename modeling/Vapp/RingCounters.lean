import Vapp.RingSystem

/-! # The counters of the two parties

What every run keeps, whatever the packets are: each 16-bit index is the image of a
number of events of the run, and every link of the free list is a descriptor of the
table or its end.  Descriptors that were freed twice do not break any of this.
-/
namespace Vapp

open Counter16

variable {κ μ : Type} {E : RingEnv} {s t : RingState κ μ} {l : RingLabel}

/-- A link of the free list: its end or an index of the table. -/
def Linked (d : UInt16) : Prop := d = vringIdxNone ∨ d.toNat < vhostVringSize

theorem Linked.lt {d : UInt16} (h : Linked d) (hne : d ≠ vringIdxNone) :
    d.toNat < vhostVringSize := h.resolve_left hne

/-- The indices of both parties, in terms of the history. -/
structure Counters (E : RingEnv) (s : RingState κ μ) : Prop where
  availIdx : (s.mem.avail E.availLoc).idx = of s.sent.length
  usedIdx : (s.mem.used E.usedLoc).idx = of s.published
  lastAvail : (s.cons.vring E.vIdx).lastAvailIdx = of s.outcomes.length
  lastUsed : (s.cons.vring E.vIdx).lastUsedIdx = of s.outcomes.length
  seenIdx : (s.prod.vring E.vIdx).lastUsedIdx = of s.seen
  seenSlot : s.seen % 65536 < vhostVringSize
  seenLe : s.seen ≤ s.published
  publishedLe : s.published ≤ s.outcomes.length
  consumedLe : s.outcomes.length ≤ s.sent.length
  cursor : ∀ a ∈ s.cursor, a.toNat = s.outcomes.length % vhostVringSize
  head : Linked (s.head E)
  next : ∀ d, d < vhostVringSize → Linked (s.mem.desc E.descLoc d).next

theorem Counters.lastUsed_lt (h : Counters E s) :
    (s.prod.vring E.vIdx).lastUsedIdx.toNat < vhostVringSize := by
  rw [h.seenIdx, toNat_of]
  exact h.seenSlot

/-- Inside one ring, the walk of `process_used_vring` to an index below the ring size
covers exactly the entries published since the last call. -/
theorem Counters.distance (h : Counters E s) (hwin : s.published ≤ s.seen + vhostVringSize)
    (hidx : (s.mem.used E.usedLoc).idx.toNat < vhostVringSize) :
    usedDistance vhostVringSize (s.prod.vring E.vIdx).lastUsedIdx.toNat
      (s.mem.used E.usedLoc).idx.toNat = s.published - s.seen ∧
    (s.prod.vring E.vIdx).lastUsedIdx.toNat = s.seen % vhostVringSize := by
  have hslot := h.seenSlot
  have hle := h.seenLe
  rw [h.usedIdx, toNat_of] at hidx
  rw [h.usedIdx, h.seenIdx, toNat_of, toNat_of, usedDistance]
  simp only [vhostVringSize_eq] at *
  omega

/-- Freeing descriptors of the table leaves every link in the table. -/
theorem walk_linked {sp : AddrSpace} {i : RingIdx} {D U : Loc} {num : Nat} (n : Nat) :
    ∀ {w : UsedLoop κ}, Walking sp i D U num w →
    (∀ e ∈ (w.mem.used U).ids num w.uIdx.toNat n, e.toNat < vhostVringSize) →
    Linked (w.table.vring i).lastAvailIdx →
    (∀ d, d < vhostVringSize → Linked (w.mem.desc D d).next) →
    Linked ((w.walk i D U n).table.vring i).lastAvailIdx ∧
      ∀ d, d < vhostVringSize → Linked ((w.walk i D U n).mem.desc D d).next := by
  induction n with
  | zero => exact fun _ _ hhead hnext => ⟨hhead, hnext⟩
  | succ n ih =>
      intro w h hids hhead hnext
      rw [VringUsed.ids_succ h.idx, ← h.reclaim_uIdx,
        ← UsedLoop.reclaim_used (i := i) (D := D)] at hids
      have hid : (w.entry U).id.toNat < vhostVringSize := hids _ (List.mem_cons_self ..)
      refine ih h.reclaim (fun e he => hids e (List.mem_cons_of_mem _ he)) ?_ fun d hd => ?_
      · refine .inr ?_
        simpa [UsedLoop.reclaim, toNat_toUInt16 hid] using hid
      · show Linked ((freeMem w.mem D (w.entry U).id.toNat _).desc D d).next
        rw [freeMem, Mem.setDesc_desc]
        split
        · exact hhead
        · exact hnext d hd

section Steps
variable (hw : Wired E s) (h : Counters E s)
include hw h

theorem Counters.put {buf : List UInt8} {r : Int} {p : VringTable κ} {m : Mem}
    (hput : putVring E.prodSpace s.prod E.vIdx buf s.mem = .ret (r, p, m)) :
    Counters E
      { s with prod := p, mem := m, sent := if r = 0 then s.sent ++ [buf] else s.sent } := by
  rcases putVring_ret hput with
    ⟨rfl, rfl, rfl⟩ | ⟨rfl, D, A, hD, hA, ha, -, rfl, hdesc, havail, hused⟩
  · exact ⟨h.1, h.2, h.3, h.4, h.5, h.6, h.7, h.8, h.9, h.10, h.11, h.12⟩
  · rw [hw.prodDesc] at hD
    rw [hw.prodAvail] at hA
    cases hD
    cases hA
    have hlen : (s.sent ++ [buf]).length = s.sent.length + 1 := by simp
    refine ⟨?_, ?_, h.lastAvail, h.lastUsed, ?_, h.seenSlot, h.seenLe, h.publishedLe, ?_,
      h.cursor, ?_, ?_⟩
    · rw [if_pos rfl, hlen, havail, Mem.setAvail_avail_self, ← of_add_one, ← h.availIdx]
      rfl
    · rw [hused]
      exact h.usedIdx
    · simpa using h.seenIdx
    · rw [if_pos rfl, hlen]
      exact Nat.le_succ_of_le h.consumedLe
    · simpa [RingState.head] using h.next _ ha
    · intro d hd
      show Linked (m.desc E.descLoc d).next
      rw [hdesc, Mem.setDesc_desc]
      split
      · exact .inl rfl
      · exact h.next d hd

theorem Counters.reclaim {fuel : Nat} {u : UsedLoop κ}
    (hcall : processUsedVring E.prodSpace fuel s.prod E.vIdx s.mem = .ret u) :
    Counters E { s with prod := u.table, mem := u.mem, seen := s.published } := by
  have hwalk := hw.walking h.lastUsed_lt
  obtain ⟨hidx, -, hids, rfl⟩ := (processUsedVring_ret_iff hwalk).mp hcall
  have hframe := UsedLoop.walk_frame (i := E.vIdx) (D := E.descLoc) (U := E.usedLoc)
    (usedDistance vhostVringSize (s.prod.vring E.vIdx).lastUsedIdx.toNat
      (s.mem.used E.usedLoc).idx.toNat) (.start s.prod E.vIdx s.mem)
  obtain ⟨hhead, hnext⟩ := walk_linked _ hwalk hids h.head h.next
  have hend : ((UsedLoop.start s.prod E.vIdx s.mem).walk E.vIdx E.descLoc E.usedLoc
      (usedDistance vhostVringSize (s.prod.vring E.vIdx).lastUsedIdx.toNat
        (s.mem.used E.usedLoc).idx.toNat)).uIdx = of s.published := by
    rw [← UInt16.toNat_inj, walk_uIdx _ hwalk, ← h.usedIdx]
    exact add_usedDistance hwalk.idx hidx
  rw [h.usedIdx, toNat_of] at hidx
  refine ⟨?_, ?_, h.lastAvail, h.lastUsed, ?_, hidx, Nat.le_refl _, h.publishedLe,
    h.consumedLe, h.cursor, ?_, hnext⟩
  · exact (congrArg (fun f => (f E.availLoc).idx) hframe.avail).trans h.availIdx
  · exact (congrArg (fun f => (f E.usedLoc).idx) hframe.used).trans h.usedIdx
  · simpa [UsedLoop.finish] using hend
  · simpa [RingState.head, UsedLoop.finish] using hhead

theorem Counters.enter {a : UInt16} (hcall : availEnter s.cons E.vIdx = .ret a) :
    Counters E { s with cursor := some a } := by
  refine ⟨h.1, h.2, h.3, h.4, h.5, h.6, h.7, h.8, h.9, fun b hb => ?_, h.11, h.12⟩
  cases hb
  rw [availEnter_of_num hw.consNum (by decide)] at hcall
  cases hcall
  have hlt := Nat.mod_lt (s.cons.vring E.vIdx).lastAvailIdx.toNat
    (show 0 < vhostVringSize by decide)
  rw [UInt16.toNat_ofNat_of_lt' (Nat.lt_trans hlt (by decide)), h.lastAvail,
    slot_of vhostVringSize_dvd]

theorem Counters.serve {a : UInt16} {fuel : Nat} {r : AvailTurn μ} (hcur : s.cursor = some a)
    (hturn : availTurn E.consSpace fuel s.cons E.vIdx a s.mem = .ret (some r)) :
    Counters E
      { s with
        cons := r.table
        mem := r.mem
        cursor := some r.aIdx
        outcomes := s.outcomes ++ [r.call] } := by
  obtain ⟨A, d, hA, hne, -, hf, ht, hm, hnext, -⟩ := availTurn_some hturn
  rw [hw.consAvail] at hA
  cases hA
  have hlen : (s.outcomes ++ [r.call]).length = s.outcomes.length + 1 := by simp
  have hidx : (r.table.vring E.vIdx) = (s.cons.vring E.vIdx).consumed := by
    rw [ht, VringTable.setVring_self]
  have hlt : s.outcomes.length < s.sent.length := by
    refine Nat.lt_of_le_of_ne h.consumedLe fun heq => hne ?_
    rw [h.lastAvail, h.availIdx, heq]
  refine ⟨?_, ?_, ?_, ?_, h.seenIdx, h.seenSlot, h.seenLe, ?_, ?_, ?_, h.head, ?_⟩
  · rw [hm, hf.avail]
    exact h.availIdx
  · exact (congrArg (fun m : Mem => (m.used E.usedLoc).idx) hm).trans
      ((hf.usedIdx _).trans h.usedIdx)
  · rw [hlen, hidx, ← of_add_one, ← h.lastAvail]
    rfl
  · rw [hlen, hidx, ← of_add_one, ← h.lastUsed]
    rfl
  · rw [hlen]
    exact Nat.le_succ_of_le h.publishedLe
  · rw [hlen]
    exact hlt
  · intro b hb
    cases hb
    have ha := h.cursor a hcur
    have hmod := Nat.mod_lt (a.toNat + 1) (show 0 < vhostVringSize by decide)
    rw [hnext, nextSlot, hw.consNum, UInt16.toNat_ofNat_of_lt' (Nat.lt_trans hmod (by decide)), ha,
      slot_succ, hlen]
  · intro d hd
    show Linked (r.mem.desc E.descLoc d).next
    rw [hm, hf.desc]
    exact h.next d hd

theorem Counters.leave {m : Mem}
    (hleave : availLeave E.consSpace s.cons E.vIdx s.mem = .ret m) :
    Counters E { s with mem := m, cursor := none, published := s.outcomes.length } := by
  rw [availLeave, storeUsedIdx_of_resolve hw.consUsed] at hleave
  cases hleave
  refine ⟨h.1, ?_, h.3, h.4, h.5, h.6, Nat.le_trans h.seenLe h.publishedLe, Nat.le_refl _,
    h.9, nofun, h.11, h.12⟩
  rw [Mem.setUsed_used_self]
  exact h.lastUsed

end Steps

/-- **Every step keeps the wiring and the counters.** -/
theorem counters_step (h : Wired E s ∧ Counters E s) (hs : RingStep E s l t) :
    Wired E t ∧ Counters E t := by
  obtain ⟨hw, hc⟩ := h
  refine ⟨hw.step hc.lastUsed_lt hs, ?_⟩
  cases hs with
  | put hput => exact hc.put hw hput
  | reclaim hcall => exact hc.reclaim hw hcall
  | enter _ hcall => exact hc.enter hw hcall
  | serve hcur hturn => exact hc.serve hw hcur hturn
  | leave _ _ hleave => exact hc.leave hw hleave

end Vapp
