import Vapp.RingProgress
import Vapp.SessionRings
import Vapp.Library.FifoChannel

/-! # A ring is a channel

As long as only packets that fit are put, the two parties of a ring implement a lossless
first-in first-out channel: putting a packet sends it, a turn of `process_avail_vring`
delivers the oldest one, and what is under way is what the avail slots from the
consumer's `last_avail_idx` to `avail->idx` hold.
-/
namespace Vapp

open Counter16

variable {κ μ : Type} {E : RingEnv} {s t : RingState κ μ} {l : RingLabel}

/-- The packet that a label puts. -/
def RingLabel.packet? : RingLabel → Option (List UInt8)
  | .put buf => some buf
  | _ => none

/-- The calls of `avail_handler` made so far. -/
def RingState.delivered (s : RingState κ μ) : List HandlerCall := s.outcomes.filterMap id

/-- The packet that the avail slot of the index `k` holds, as the consumer reads it. -/
def RingState.slotPacket (E : RingEnv) (s : RingState κ μ) (k : UInt16) :
    Run (List UInt8) := do
  let v := s.cons.vring E.vIdx
  let i ← loadAvailRing E.consSpace s.mem v.avail (k.toNat % v.num.toNat)
  let d ← loadDesc E.consSpace s.mem v.desc i.toNat
  readBytes E.consSpace s.mem (s.cons.translate d.addr + .ofNat virtioNetHdrSize)
    (d.len.toNat - virtioNetHdrSize)

/-- The packets in the avail slots from the consumer's `last_avail_idx` to `avail->idx`. -/
def RingState.held (E : RingEnv) (s : RingState κ μ) : List (Run (List UInt8)) :=
  let last := (s.cons.vring E.vIdx).lastAvailIdx
  (List.range ((s.mem.avail E.availLoc).idx - last).toNat).map fun j =>
    s.slotPacket E (last + of j)

/-- The channel that a state of the ring stands for. -/
def RingState.channel (s : RingState κ μ) : FifoChannel HandlerCall where
  sent := s.sent.map callOf
  delivered := s.delivered
  waiting := (s.sent.drop s.outcomes.length).map callOf

/-- A packet that fits is never refused. -/
theorem Ledger.put_ret {free heads : List UInt16} (hw : Wired E s)
    (h : Ledger E s free heads) {buf : List UInt8} (hfit : Fits buf) {r : Int}
    {p : VringTable κ} {m : Mem}
    (hput : putVring E.prodSpace s.prod E.vIdx buf s.mem = .ret (r, p, m)) : r = 0 := by
  have ha : (s.prod.vring E.vIdx).lastAvailIdx.toNat < vhostVringSize := by
    apply Decidable.byContradiction
    intro hge
    rw [putVring_of_out_of_range hw.prodDesc hge] at hput
    cases hput
  have hne : s.head E ≠ vringIdxNone := by
    intro heq
    rw [show (s.prod.vring E.vIdx).lastAvailIdx = _ from heq] at ha
    exact absurd ha (by decide)
  obtain ⟨free', rfl, -⟩ := h.chain.pop hne
  refine putVring_accepts hput hw.prodDesc ?_
  have hlen : (s.mem.desc E.descLoc (s.prod.vring E.vIdx).lastAvailIdx.toNat).len.toNat =
      bufferSize := congrArg UInt32.toNat (h.fresh _ (List.mem_cons_self ..))
  have hfit' : buf.length + virtioNetHdrSize < ethPacketSize := hfit
  rw [hlen]
  exact Nat.le_trans (Nat.le_of_lt (Nat.lt_of_le_of_lt (Nat.le_add_right _ _) hfit')) (by decide)

/-- Consuming an entry delivers the oldest packet under way. -/
theorem channel_serve (h : Tracked E s) (hsent : SentFit s) {a : UInt16} {fuel : Nat}
    {r : AvailTurn μ} (hcur : s.cursor = some a)
    (hturn : availTurn E.consSpace fuel s.cons E.vIdx a s.mem = .ret (some r))
    (hlt : s.outcomes.length < s.sent.length) :
    FifoChannel.Step s.channel ()
      { sent := s.sent.map callOf
        delivered := (s.outcomes ++ [r.call]).filterMap id
        waiting := (s.sent.drop (s.outcomes ++ [r.call]).length).map callOf } := by
  obtain ⟨free, heads, hl⟩ := h.ledger hsent.allFit
  have hbuf := List.getElem?_eq_getElem hlt
  have hfit := hsent _ (List.getElem_mem hlt)
  have hcall := (hl.serve_fits h.wired h.counters hcur hbuf hfit hturn).1
  have hdrop := List.drop_eq_getElem_cons hlt
  have hstep := FifoChannel.Step.deliver s.channel (callOf s.sent[s.outcomes.length])
    ((s.sent.drop (s.outcomes.length + 1)).map callOf) (by
      rw [RingState.channel, hdrop, List.map_cons])
  rw [List.filterMap_append, hcall, List.length_append, List.length_singleton]
  exact hstep

/-- **Every step of the ring is a run of the channel.** -/
theorem channel_step (h : Tracked E s ∧ SentFit s)
    (hl : ∀ buf, l = .put buf → Fits buf) (hs : RingStep E s l t) :
    ∃ ms, Transition.Run FifoChannel.Step s.channel ms t.channel := by
  obtain ⟨h, hsent⟩ := h
  have ht := tracked_step h hs
  cases hs with
  | @put buf r p m hput =>
      obtain ⟨free, heads, hledger⟩ := h.ledger hsent.allFit
      obtain rfl := hledger.put_ret h.wired (hl buf rfl) hput
      have hstep := FifoChannel.Step.send s.channel (callOf buf)
      have hchannel : RingState.channel
          { s with prod := p, mem := m, sent := s.sent ++ [buf] } =
          { s.channel with
            sent := s.channel.sent ++ [callOf buf]
            waiting := s.channel.waiting ++ [callOf buf] } := by
        simp only [RingState.channel, RingState.delivered,
          List.drop_append_of_le_length h.counters.consumedLe, List.map_append, List.map_cons,
          List.map_nil]
      refine ⟨[()], .one ?_⟩
      rw [if_pos rfl, hchannel]
      exact hstep
  | reclaim _ => exact ⟨[], .nil⟩
  | enter _ _ => exact ⟨[], .nil⟩
  | @serve a fuel r hcur hturn =>
      have hlast : s.outcomes.length < (s.outcomes ++ [r.call]).length := by simp
      exact ⟨[()], .one (channel_serve h hsent hcur hturn
        (Nat.lt_of_lt_of_le hlast ht.counters.consumedLe))⟩
  | leave _ _ _ => exact ⟨[], .nil⟩

/-- What an avail slot holds, for an entry that is still to be consumed. -/
theorem Ledger.slotPacket_eq {free heads : List UInt16} (hw : Wired E s) (hc : Counters E s)
    (h : Ledger E s free heads) {k : Nat} {buf : List UInt8} (hk : s.outcomes.length ≤ k)
    (hbuf : s.sent[k]? = some buf) (hfit : Fits buf) :
    s.slotPacket E (of k) = .ret buf := by
  obtain ⟨hlt, -⟩ := List.getElem?_eq_some_iff.mp hbuf
  obtain ⟨d, hd⟩ : ∃ d, heads[k]? = some d :=
    ⟨_, List.getElem?_eq_getElem (by rw [h.count]; exact hlt)⟩
  have hseen := Nat.le_trans hc.seenLe hc.publishedLe
  have hrange := h.lt_of_mem (List.mem_append_right _ (mem_drop (Nat.le_trans hseen hk) hd))
  have hholds := h.entry k d buf hk hd hbuf
  have hB := (hw.consBuf _ hrange).mono (k := virtioNetHdrSize + buf.length) (by
    have : buf.length + virtioNetHdrSize < ethPacketSize := hfit
    rw [bufferSize]
    omega)
  have hread := readBytes_of_shows (m := s.mem) (Shows.drop virtioNetHdrSize hB)
  have hlen : (s.mem.desc E.descLoc d.toNat).len.toNat - virtioNetHdrSize = buf.length := by
    rw [hholds.len, Nat.add_sub_cancel_left]
  have hslot : k % vhostVringSize < vhostVringSize := Nat.mod_lt _ (by decide)
  simp only [RingState.slotPacket, hw.consNum, slot_of vhostVringSize_dvd,
    loadAvailRing_of_resolve hw.consAvail hslot, hholds.ring, Outcome.ret_bind,
    loadDesc_of_resolve hw.consDesc hrange, hw.addr _ hrange, hlen, hread, hholds.bytes hfit]

/-- **What is under way is what the avail slots hold.** -/
theorem held_eq (h : Tracked E s) (hsent : SentFit s) :
    s.held E = (s.sent.drop s.outcomes.length).map .ret := by
  obtain ⟨free, heads, hl⟩ := h.ledger hsent.allFit
  have hc := h.counters
  have hle := hc.consumedLe
  have hseen := Nat.le_trans hc.seenLe hc.publishedLe
  have hwindow := hl.length
  rw [vhostVringSize_eq] at hwindow
  refine List.ext_getElem ?_ fun j h1 h2 => ?_
  · rw [RingState.held, List.length_map, List.length_range, hc.availIdx, hc.lastAvail,
      toNat_of_sub hle (by omega), List.length_map, List.length_drop]
  · rw [List.length_map, List.length_drop] at h2
    have hk : s.sent[s.outcomes.length + j]? = some s.sent[s.outcomes.length + j] :=
      List.getElem?_eq_getElem (by omega)
    have hslot := hl.slotPacket_eq h.wired hc (Nat.le_add_right _ j) hk
      (hsent _ (List.getElem_mem _))
    rw [← of_add_of, ← hc.lastAvail] at hslot
    simp only [RingState.held, List.getElem_map, List.getElem_range, List.getElem_drop]
    exact hslot

/-- What was put is what the labels of the run say. -/
theorem sent_eq {s0 : RingState κ μ} {ls : List RingLabel} (h0 : Start E s0)
    (hrun : Transition.Run (RingStep E) s0 ls s)
    (hfit : ∀ buf, RingLabel.put buf ∈ ls → Fits buf) :
    (Tracked E s ∧ SentFit s) ∧ s.sent = ls.filterMap RingLabel.packet? := by
  induction hrun with
  | nil =>
      refine ⟨⟨h0.tracked, ?_⟩, h0.sent⟩
      rintro buf hbuf
      rw [h0.sent] at hbuf
      exact absurd hbuf List.not_mem_nil
  | @snoc ls t u l hrun hs ih =>
      obtain ⟨⟨ht, hsent⟩, heq⟩ := ih fun buf hbuf => hfit buf (List.mem_append_left _ hbuf)
      have hl : ∀ buf, l = .put buf → Fits buf := by
        rintro buf rfl
        exact hfit buf (List.mem_append_right _ (List.mem_singleton.mpr rfl))
      refine ⟨⟨tracked_step ht hs, sentFit_step hl hsent hs⟩, ?_⟩
      rw [List.filterMap_append, ← heq]
      cases hs with
      | @put buf r p m hput =>
          obtain ⟨free, heads, hledger⟩ := ht.ledger hsent.allFit
          obtain rfl := hledger.put_ret ht.wired (hl buf rfl) hput
          rfl
      | reclaim _ => exact (List.append_nil _).symm
      | enter _ _ => exact (List.append_nil _).symm
      | serve _ _ => exact (List.append_nil _).symm
      | leave _ _ _ => exact (List.append_nil _).symm

/-- **A ring is a lossless first-in first-out channel**: in every state that a run
reaches, what was delivered and what the avail slots hold make up what was put. -/
theorem ring_lossless {s0 : RingState κ μ} {ls : List RingLabel} (h0 : Start E s0)
    (hrun : Transition.Run (RingStep E) s0 ls s)
    (hfit : ∀ buf, RingLabel.put buf ∈ ls → Fits buf) :
    s.sent = ls.filterMap RingLabel.packet? ∧ s.channel.Lossless ∧
      s.held E = (s.sent.drop s.outcomes.length).map .ret := by
  obtain ⟨⟨ht, hsent⟩, heq⟩ := sent_eq h0 hrun hfit
  refine ⟨heq, ?_, held_eq ht hsent⟩
  have hempty : s0.channel = FifoChannel.empty := by
    rw [RingState.channel, RingState.delivered, h0.sent, h0.outcomes]
    rfl
  have hstart : Tracked E s0 ∧ SentFit s0 := (sent_eq h0 .nil nofun).1
  obtain ⟨ms, hms⟩ : ∃ ms, Transition.Run FifoChannel.Step s0.channel ms s.channel :=
    Transition.Run.simulate (I := fun s => Tracked E s ∧ SentFit s)
      (A := fun l => ∀ buf, l = .put buf → Fits buf) RingState.channel
      (fun _ _ _ h hl hs => ⟨tracked_step h.1 hs, sentFit_step hl h.2 hs⟩)
      (fun _ _ _ h hl hs => channel_step h hl hs) hstart hrun fun l hmem buf hbuf =>
        hfit buf (hbuf ▸ hmem)
  rw [hempty] at hms
  exact FifoChannel.lossless_of_run hms

end Vapp
