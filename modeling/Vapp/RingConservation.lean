import Vapp.RingProgress
import Vapp.SessionRings

/-! # Conservation of descriptors

Between calls each descriptor of the TX ring is in the free list, in an avail entry that
the server has not consumed or in a used entry that the client has not reclaimed.  The
entries are the ones the 16-bit indices of the two parties delimit.
-/
namespace Vapp

open Counter16 ArrayChain

variable {κ μ : Type} {E : RingEnv} {s t : RingState κ μ} {l : RingLabel}

/-- The descriptors in the avail entries that the consumer has not consumed. -/
def RingState.pendingAvail (E : RingEnv) (s : RingState κ μ) : List Nat :=
  let last := (s.cons.vring E.vIdx).lastAvailIdx
  (List.range ((s.mem.avail E.availLoc).idx - last).toNat).map fun j =>
    ((s.mem.avail E.availLoc).ring ((last + of j).toNat % vhostVringSize)).toNat

/-- The descriptors in the used entries that the producer has not reclaimed. -/
def RingState.pendingUsed (E : RingEnv) (s : RingState κ μ) : List Nat :=
  let last := (s.prod.vring E.vIdx).lastUsedIdx
  (List.range ((s.mem.used E.usedLoc).idx - last).toNat).map fun j =>
    ((s.mem.used E.usedLoc).ring ((last + of j).toNat % vhostVringSize)).id.toNat

/-- Each descriptor is in exactly one of the three places, and the free list ends. -/
def Conserved (E : RingEnv) (s : RingState κ μ) : Prop :=
  ∃ free : List UInt16, Chain (s.next E) vringIdxNone (s.head E) free ∧
    (free.map UInt16.toNat ++ s.pendingAvail E ++ s.pendingUsed E).Perm
      (List.range vhostVringSize)

/-- Outside a call of `process_avail_vring` every consumed entry is published. -/
def Settled (s : RingState κ μ) : Prop := s.cursor = none → s.published = s.outcomes.length

theorem settled_step (h : Settled s) (hs : RingStep E s l t) : Settled t := by
  cases hs with
  | put _ => exact h
  | reclaim _ => exact h
  | enter _ _ => exact nofun
  | serve _ _ => exact nofun
  | leave _ _ _ => exact fun _ => rfl

theorem allDescs_toNat : allDescs.map UInt16.toNat = List.range vhostVringSize := by
  rw [allDescs, List.map_map]
  refine (List.map_congr_left fun k hk => ?_).trans (List.map_id _)
  exact toNat_of_lt (Nat.lt_trans (List.mem_range.mp hk) (by decide))

/-- The used entries, by their numbers. -/
theorem Counters.pendingUsed_eq (hc : Counters E s) (hwin : s.published - s.seen < 65536) :
    s.pendingUsed E = (List.range (s.published - s.seen)).map fun j =>
      ((s.mem.used E.usedLoc).ring ((s.seen + j) % vhostVringSize)).id.toNat := by
  rw [RingState.pendingUsed, hc.usedIdx, hc.seenIdx, toNat_of_sub hc.seenLe hwin]
  refine List.map_congr_left fun j _ => ?_
  rw [of_add_of, slot_of vhostVringSize_dvd]

/-- Two used entries that name the same descriptor break the partition. -/
theorem Counters.not_conserved (hc : Counters E s) (hwin : s.published - s.seen < 65536)
    {i j : Nat} (hi : i < s.published - s.seen) (hj : j < s.published - s.seen) (hne : i ≠ j)
    (heq : ((s.mem.used E.usedLoc).ring ((s.seen + i) % vhostVringSize)).id =
      ((s.mem.used E.usedLoc).ring ((s.seen + j) % vhostVringSize)).id) : ¬ Conserved E s := by
  rintro ⟨free, -, hperm⟩
  have hnodup := hperm.nodup_iff.mpr List.nodup_range
  have hused := (List.nodup_append.mp hnodup).2.1
  rw [hc.pendingUsed_eq hwin] at hused
  exact hne (List.inj_on_of_nodup_map hused (List.mem_range.mpr hi) (List.mem_range.mpr hj)
    (congrArg UInt32.toNat heq))

section Ledger
variable {free heads : List UInt16}

theorem Ledger.pendingAvail_eq (hc : Counters E s) (h : Ledger E s free heads) :
    s.pendingAvail E = (heads.drop s.outcomes.length).map UInt16.toNat := by
  have hwindow := h.length
  rw [vhostVringSize_eq] at hwindow
  have hseen := Nat.le_trans hc.seenLe hc.publishedLe
  have hle := hc.consumedLe
  refine List.ext_getElem ?_ fun j h1 h2 => ?_
  · rw [RingState.pendingAvail, List.length_map, List.length_range, hc.availIdx, hc.lastAvail,
      toNat_of_sub hle (by omega), List.length_map, List.length_drop, h.count]
  · rw [List.length_map, List.length_drop, h.count] at h2
    have hd : heads[s.outcomes.length + j]? = some _ :=
      List.getElem?_eq_getElem (by rw [h.count]; omega)
    have hbuf : s.sent[s.outcomes.length + j]? = some _ :=
      List.getElem?_eq_getElem (by omega)
    have hring := (h.entry _ _ _ (Nat.le_add_right _ j) hd hbuf).ring
    simp only [RingState.pendingAvail, List.getElem_map, List.getElem_range, List.getElem_drop]
    rw [hc.lastAvail, of_add_of, slot_of vhostVringSize_dvd, hring]

theorem Ledger.pendingUsed_eq (hc : Counters E s) (h : Ledger E s free heads) :
    s.pendingUsed E =
      ((heads.drop s.seen).take (s.published - s.seen)).map UInt16.toNat := by
  have hwindow := h.length
  rw [vhostVringSize_eq] at hwindow
  have hpub := hc.publishedLe
  have hle := hc.consumedLe
  rw [hc.pendingUsed_eq (by omega)]
  refine List.ext_getElem ?_ fun j h1 h2 => ?_
  · rw [List.length_map, List.length_range, List.length_map, List.length_take, List.length_drop,
      h.count]
    omega
  · rw [List.length_map, List.length_range] at h1
    have hd : heads[s.seen + j]? = some _ :=
      List.getElem?_eq_getElem (by rw [h.count]; omega)
    have hid := h.used _ _ (Nat.le_add_right _ j) (by omega) hd
    simp only [List.getElem_map, List.getElem_range, List.getElem_take, List.getElem_drop]
    rw [hid, UInt16.toNat_toUInt32]

/-- **The account of the descriptors is the partition.** -/
theorem Ledger.conserved (hc : Counters E s) (h : Ledger E s free heads) (hidle : Settled s)
    (hcur : s.cursor = none) : Conserved E s := by
  refine ⟨free, h.chain, ?_⟩
  rw [h.pendingAvail_eq hc, h.pendingUsed_eq hc, ← allDescs_toNat, ← List.map_append,
    ← List.map_append]
  refine List.Perm.map _ (List.Perm.trans ?_ h.perm)
  have hsplit := drop_eq_take_append heads hc.seenLe
  rw [← hidle hcur, List.append_assoc]
  refine List.Perm.append_left free ?_
  exact List.perm_append_comm.trans (List.Perm.of_eq hsplit.symm)

end Ledger

/-- Putting a packet leaves the used ring alone. -/
theorem put_used {buf : List UInt8} (hs : RingStep E s (.put buf) t) : t.mem.used = s.mem.used := by
  cases hs with
  | put hput =>
      rcases putVring_ret hput with ⟨-, -, rfl⟩ | ⟨-, _, _, -, -, -, -, -, -, -, hused⟩
      · rfl
      · exact hused

/-- Publishing the entries does not change them. -/
theorem leave_used (hw : Wired E s) (hs : RingStep E s .leave t) :
    (t.mem.used E.usedLoc).ring = (s.mem.used E.usedLoc).ring := by
  cases hs with
  | leave _ _ hleave =>
      rw [availLeave, storeUsedIdx_of_resolve hw.consUsed] at hleave
      cases hleave
      rw [Mem.setUsed_used_self]

/-- The used ring after an entry was consumed: filled for a packet that fits, as it was for
one that does not. -/
theorem Tracked.serve_used (h : Tracked E s) (hfits : AllFit s) (hs : RingStep E s .serve t)
    {buf : List UInt8} (hbuf : s.sent[s.outcomes.length]? = some buf) :
    (Fits buf → ∃ len, (t.mem.used E.usedLoc).ring =
      Function.update (s.mem.used E.usedLoc).ring (s.outcomes.length % vhostVringSize)
        ⟨((s.mem.avail E.availLoc).ring (s.outcomes.length % vhostVringSize)).toUInt32, len⟩) ∧
    (¬ Fits buf → t.mem = s.mem) := by
  obtain ⟨free, heads, hl⟩ := h.ledger hfits
  cases hs with
  | serve hcur hturn =>
      constructor
      · intro hfit
        obtain ⟨-, d, len, hd, hm⟩ := hl.serve_fits h.wired h.counters hcur hbuf hfit hturn
        refine ⟨len, ?_⟩
        rw [(hl.entry _ d buf (Nat.le_refl _) hd hbuf).ring, hm, Mem.setUsed_used_self]
      · exact fun hfit => (hl.serve_refused h.wired h.counters hcur hbuf hfit hturn).2

namespace Session

/-- **Conservation on the TX ring**: between calls, while every packet consumed so far was
one that fits, each descriptor is in exactly one of its three places. -/
theorem tx_descriptors_conserved {S : Session} {sock : Int} {m : Mem} {w : World}
    (hopen : S.Opened sock m w) {ls : List RingLabel} {s : RingState Unit ServerContext}
    (hrun : Transition.Run (RingStep S.txEnv) (S.txState w) ls s) (hidle : s.cursor = none)
    (hfit : ∀ buf ∈ s.sent.take s.outcomes.length, Fits buf) : Conserved S.txEnv s := by
  have h := tracked_run (tx_start hopen).tracked hrun
  have hsettled : Settled s := Transition.Run.invariant (I := Settled) (A := fun _ => True)
    (fun _ _ _ h _ hs => settled_step h hs) (fun _ => rfl) hrun fun _ _ => trivial
  obtain ⟨free, heads, hl⟩ := h.ledger fun k buf hk hbuf => by
    refine hfit buf (List.mem_iff_getElem?.mpr ⟨k, ?_⟩)
    rw [List.getElem?_take, if_pos hk, hbuf]
  exact hl.conserved h.counters hsettled hidle

/-- After five packets, of which three were reclaimed. -/
theorem tx_descriptors_conserved_demo : ∃ w s, demo.Opened 4 Mem.zero w ∧
    Transition.Run (RingStep demo.txEnv) (demo.txState w) (cycleLabels 3 2 [0]) s ∧
    s.outcomes.length = 5 ∧ s.seen = 3 ∧ Conserved demo.txEnv s := by
  obtain ⟨w, hopen⟩ := demo.opened_exists 4 Mem.zero
  obtain ⟨s, hrun, hsent, hout, -, hseen, hidle⟩ := (tx_start hopen).can_cycle (n := 3) (k := 2)
    (by decide) (by decide) (show Fits [0] by decide)
  refine ⟨w, s, hopen, hrun, hout, hseen, tx_descriptors_conserved hopen hrun hidle ?_⟩
  intro buf hbuf
  rw [hsent] at hbuf
  rw [List.eq_of_mem_replicate (List.mem_of_mem_take hbuf)]
  decide

/-- A packet of 1508 bytes behind one that fits: `_process_desc` leaves its used slot as it
was, so that the used ring names descriptor 0 twice and descriptor 1 is lost. -/
theorem tx_descriptor_leaked : ∃ w s, demo.Opened 4 Mem.zero w ∧
    Transition.Run (RingStep demo.txEnv) (demo.txState w)
      [.put [0], .put (List.replicate 1508 0), .enter, .serve, .serve, .leave] s ∧
    s.cursor = none ∧ ¬ Conserved demo.txEnv s := by
  obtain ⟨w, hopen⟩ := demo.opened_exists 4 Mem.zero
  have hstart := tx_start hopen
  have h0 := hstart.tracked
  have hl0 := hstart.ledger
  have hlen : (List.replicate 1508 (0 : UInt8)).length = 1508 := List.length_replicate
  generalize List.replicate 1508 (0 : UInt8) = long at hlen ⊢
  have hlong : ¬ Fits long := by
    rw [Fits, hlen]
    decide
  -- both packets are put
  obtain ⟨p1, m1, hput1⟩ := hl0.putVring_of_ne h0.wired h0.counters
    (hl0.head_ne_iff.mpr (show 0 < vhostVringSize by decide))
    (show ([0] : List UInt8).length ≤ bufferSize by decide)
  have hs1 : RingStep demo.txEnv _ _ _ := .put hput1
  have h1 := tracked_step h0 hs1
  obtain ⟨free1, -, hl1⟩ := hl0.put h0.wired h0.counters hput1
  obtain ⟨p2, m2, hput2⟩ := hl1.putVring_of_ne h1.wired h1.counters
    (hl1.head_ne_iff.mpr (show 1 < vhostVringSize by decide))
    (show long.length ≤ bufferSize by rw [hlen]; decide)
  have hs2 : RingStep demo.txEnv _ _ _ := .put hput2
  have h2 := tracked_step h1 hs2
  obtain ⟨free2, -, hl2⟩ := hl1.put h1.wired h1.counters hput2
  have hslot : (m2.avail demo.txEnv.availLoc).ring 0 = 0 :=
    (hl2.entry 0 _ [0] (Nat.le_refl 0) rfl rfl).ring.trans hstart.prodAvail
  have hstale : m2.used = w.mem.used := (put_used hs2).trans (put_used hs1)
  -- the server consumes both
  obtain ⟨a, hs3⟩ := h2.wired.can_enter rfl
  have h3 := tracked_step h2 hs3
  have hfit3 : AllFit { demo.txState w with
      prod := p2, mem := m2, sent := [[0], long], cursor := some a } :=
    fun k _ hk _ => absurd hk (Nat.not_lt_zero k)
  obtain ⟨_, _, hl3⟩ := h3.ledger hfit3
  obtain ⟨c4, m4, b4, hs4⟩ := hl3.can_serve h3.wired h3.counters rfl (show 0 < 2 by decide)
  have h4 := tracked_step h3 hs4
  obtain ⟨len, hring⟩ := (h3.serve_used hfit3 hs4 rfl).1 (by decide)
  have hfit4 : ∀ o, AllFit { demo.txState w with
      prod := p2, cons := c4, mem := m4, sent := [[0], long], cursor := some b4
      outcomes := [o] } := by
    intro o k buf hk hbuf
    obtain rfl : k = 0 := Nat.lt_one_iff.mp hk
    cases hbuf
    decide
  obtain ⟨_, _, hl4⟩ := h4.ledger (hfit4 _)
  obtain ⟨c5, m5, b5, hs5⟩ := hl4.can_serve h4.wired h4.counters rfl (show 1 < 2 by decide)
  have h5 := tracked_step h4 hs5
  have hsame := (h4.serve_used (hfit4 _) hs5 rfl).2 hlong
  obtain ⟨m6, hs6⟩ := h5.wired.can_leave h5.counters rfl rfl
  have h6 := tracked_step h5 hs6
  refine ⟨w, _, hopen, (((((Transition.Run.one hs1).snoc hs2).snoc hs3).snoc hs4).snoc hs5).snoc
    hs6, rfl, ?_⟩
  -- slot 0 names the first descriptor, slot 1 still what the object held at first
  have hring6 : (m6.used demo.txEnv.usedLoc).ring = (m4.used demo.txEnv.usedLoc).ring :=
    (leave_used h5.wired hs6).trans (congrArg (fun m : Mem => (m.used _).ring) hsame)
  have hfirst : ((m4.used demo.txEnv.usedLoc).ring 0).id = 0 := by
    have hid : ((m4.used demo.txEnv.usedLoc).ring 0).id =
        ((m2.avail demo.txEnv.availLoc).ring 0).toUInt32 := by
      rw [hring]
      rfl
    rw [hid, hslot]
    rfl
  have hsecond : ((m4.used demo.txEnv.usedLoc).ring 1).id = 0 := by
    have hkeep : (m4.used demo.txEnv.usedLoc).ring 1 = (m2.used demo.txEnv.usedLoc).ring 1 := by
      rw [hring]
      exact Function.update_of_ne (show 1 ≠ 0 % vhostVringSize by decide) _ _
    rw [hkeep, hstale, hopen.eqs.2.1]
    exact congrArg (fun f => (f 1).id) (demo.layout_usedRing Mem.zero txIdx)
  refine h6.counters.not_conserved (i := 0) (j := 1) (show 2 < 65536 by decide)
    (show 0 < 2 by decide) (show 1 < 2 by decide) (by decide) ?_
  show ((m6.used demo.txEnv.usedLoc).ring 0).id = ((m6.used demo.txEnv.usedLoc).ring 1).id
  rw [hring6, hfirst, hsecond]

end Session

end Vapp
