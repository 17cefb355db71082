import Vapp.RingRuns
import Vapp.RingCalls

/-! # What the parties can do

For the states of a run, the steps that are possible and what they lead to: a packet can
be put while the free list is not empty, every entry can be consumed, and the used
entries can be reclaimed while the published index lies below the ring size.
-/
namespace Vapp

open Counter16 ArrayChain

variable {κ μ : Type} {E : RingEnv} {s t : RingState κ μ} {l : RingLabel}

/-- A packet is put in the head of the free list. -/
theorem Ledger.putVring_of_ne {free heads : List UInt16} (hw : Wired E s)
    (h : Ledger E s free heads) (hc : Counters E s) (hne : s.head E ≠ vringIdxNone)
    {buf : List UInt8} (hbuf : buf.length ≤ bufferSize) :
    ∃ p m, putVring E.prodSpace s.prod E.vIdx buf s.mem = .ret (0, p, m) := by
  obtain ⟨free', rfl, -⟩ := h.chain.pop hne
  exact ⟨_, _, putVring_fresh hw (hc.head.lt hne) (h.fresh _ (List.mem_cons_self ..)) hbuf⟩

theorem Ledger.can_put {free heads : List UInt16} (hw : Wired E s) (h : Ledger E s free heads)
    (hc : Counters E s) (hne : s.head E ≠ vringIdxNone) {buf : List UInt8}
    (hbuf : buf.length ≤ bufferSize) :
    ∃ p m, RingStep E s (.put buf) { s with prod := p, mem := m, sent := s.sent ++ [buf] } := by
  obtain ⟨p, m, hput⟩ := h.putVring_of_ne hw hc hne hbuf
  exact ⟨p, m, .put hput⟩

/-- The server enters `process_avail_vring`. -/
theorem Wired.can_enter (hw : Wired E s) (hidle : s.cursor = none) :
    ∃ a, RingStep E s .enter { s with cursor := some a } :=
  ⟨_, .enter hidle (availEnter_of_num hw.consNum (by decide))⟩

/-- The server leaves `process_avail_vring` at the end of avail. -/
theorem Wired.can_leave (hw : Wired E s) (hc : Counters E s) {a : UInt16}
    (hcur : s.cursor = some a) (hend : s.outcomes.length = s.sent.length) :
    ∃ m, RingStep E s .leave
      { s with mem := m, cursor := none, published := s.outcomes.length } := by
  have heq : (s.cons.vring E.vIdx).lastAvailIdx = (s.mem.avail E.availLoc).idx := by
    rw [hc.lastAvail, hc.availIdx, hend]
  have hturn : availTurn E.consSpace 0 s.cons E.vIdx a s.mem = .ret none :=
    availTurn_of_eq hw.consAvail heq
  exact ⟨_, .leave hcur hturn (storeUsedIdx_of_resolve hw.consUsed)⟩

/-- The next entry is consumed. -/
theorem Ledger.can_serve {free heads : List UInt16} (hw : Wired E s) (hc : Counters E s)
    (h : Ledger E s free heads) {a : UInt16} (hcur : s.cursor = some a)
    (hlt : s.outcomes.length < s.sent.length) :
    ∃ c m b, RingStep E s .serve
      { s with
        cons := c
        mem := m
        cursor := some b
        outcomes := s.outcomes ++
          [if Fits s.sent[s.outcomes.length] then some (callOf s.sent[s.outcomes.length])
            else none] } := by
  have hbuf := List.getElem?_eq_getElem hlt
  obtain ⟨d, -, hrange, hholds, hring, hsingle⟩ := h.pending hw hc hcur hbuf
  have hwindow := h.length
  have hle := Nat.le_trans hc.seenLe hc.publishedLe
  have hne : (s.cons.vring E.vIdx).lastAvailIdx ≠ (s.mem.avail E.availLoc).idx := by
    rw [hc.lastAvail, hc.availIdx]
    intro heq
    rw [vhostVringSize_eq] at hwindow
    rw [of_eq_of_iff hc.consumedLe (by omega)] at heq
    omega
  by_cases hfit : Fits s.sent[s.outcomes.length]
  · obtain ⟨res, -, -, hres, hcall, -⟩ :=
      h.processDesc_fits hw hc hcur hbuf hfit Nat.one_pos
    rw [if_pos hfit, ← hcall]
    exact ⟨_, _, _, .serve hcur (availTurn_of_ret hw.consAvail hne hres)⟩
  · have hlong : ethPacketSize ≤ (s.mem.desc E.descLoc d.toNat).len.toNat := by
      rw [hholds.len, Nat.add_comm]
      exact Nat.not_lt.mp hfit
    rw [if_neg hfit]
    exact ⟨_, _, _, .serve hcur (availTurn_of_ret hw.consAvail hne
      (processDesc_of_long hsingle hlong Nat.one_pos))⟩

/-- The published entries are reclaimed. -/
theorem Ledger.can_reclaim {free heads : List UInt16} (hw : Wired E s) (hc : Counters E s)
    (h : Ledger E s free heads) (hidx : s.published % 65536 < vhostVringSize) :
    ∃ p m, RingStep E s .reclaim { s with prod := p, mem := m, seen := s.published } := by
  have hwalk := hw.walking hc.lastUsed_lt
  have hidx' : (s.mem.used E.usedLoc).idx.toNat < vhostVringSize := by
    rw [hc.usedIdx, toNat_of]
    exact hidx
  have hpub := hc.publishedLe
  have hsent := hc.consumedLe
  have hwindow := h.length
  obtain ⟨hdist, hu⟩ := hc.distance (by omega) hidx'
  refine ⟨_, _, .reclaim ((processUsedVring_ret_iff hwalk).mpr
    ⟨hidx', Nat.lt_succ_self _, fun e he => ?_, rfl⟩)⟩
  rw [hdist, hu] at he
  obtain ⟨k, hk, rfl⟩ := VringUsed.mem_ids.mp he
  obtain ⟨d, hd⟩ : ∃ d, heads[s.seen + k]? = some d :=
    ⟨_, List.getElem?_eq_getElem (by rw [h.count]; omega)⟩
  rw [Nat.mod_add_mod, h.used _ d (Nat.le_add_right _ _) (by omega) hd]
  simpa using h.lt_of_mem (List.mem_append_right _ (Ledger.mem_drop (Nat.le_add_right _ _) hd))

/-! ### Several steps -/

/-- Only packets that fit have been put. -/
def SentFit (s : RingState κ μ) : Prop := ∀ buf ∈ s.sent, Fits buf

theorem SentFit.allFit (h : SentFit s) : AllFit s := fun _ _ _ hbuf =>
  h _ (List.mem_of_getElem? hbuf)

/-- Putting only packets that fit keeps it so. -/
theorem sentFit_step (hl : ∀ buf, l = .put buf → Fits buf) (h : SentFit s)
    (hs : RingStep E s l t) : SentFit t := by
  cases hs with
  | @put buf r p m _ =>
      intro b hb
      by_cases hr : r = 0
      · rw [if_pos hr] at hb
        rcases List.mem_append.mp hb with hb | hb
        · exact h b hb
        · rw [List.mem_singleton.mp hb]
          exact hl buf rfl
      · rw [if_neg hr] at hb
        exact h b hb
  | reclaim _ => exact h
  | enter _ _ => exact h
  | serve _ _ => exact h
  | leave _ _ _ => exact h

theorem Fits.room {buf : List UInt8} (h : Fits buf) : buf.length ≤ bufferSize := by
  have : buf.length + virtioNetHdrSize < ethPacketSize := h
  rw [bufferSize]
  omega

/-- The free list is empty exactly while all descriptors are outstanding. -/
theorem Ledger.head_ne_iff {free heads : List UInt16} (h : Ledger E s free heads) :
    s.head E ≠ vringIdxNone ↔ s.sent.length - s.seen < vhostVringSize := by
  have hlen := h.length
  rw [ne_eq, ← h.chain.eq_nil_iff, ← List.length_eq_zero_iff]
  omega

/-- Packets that fit can be put one after the other while there are descriptors. -/
theorem Tracked.can_puts (bufs : List (List UInt8)) : ∀ {s : RingState κ μ}, Tracked E s →
    SentFit s → (∀ buf ∈ bufs, Fits buf) →
    s.sent.length - s.seen + bufs.length ≤ vhostVringSize →
    ∃ p m, Transition.Run (RingStep E) s (bufs.map .put)
      { s with prod := p, mem := m, sent := s.sent ++ bufs } := by
  induction bufs with
  | nil =>
      intro s _ _ _ _
      refine ⟨s.prod, s.mem, ?_⟩
      rw [List.append_nil]
      exact .nil
  | cons buf bufs ih =>
      intro s h hsent hfit hroom
      rw [List.length_cons] at hroom
      obtain ⟨free, heads, hl⟩ := h.ledger hsent.allFit
      have hbuf := hfit buf (List.mem_cons_self ..)
      have hne := hl.head_ne_iff.mpr (by omega)
      have hle := Nat.le_trans h.counters.seenLe (Nat.le_trans h.counters.publishedLe
        h.counters.consumedLe)
      obtain ⟨p, m, hstep⟩ := hl.can_put h.wired h.counters hne hbuf.room
      have hsent' : SentFit { s with prod := p, mem := m, sent := s.sent ++ [buf] } := by
        intro b hb
        rcases List.mem_append.mp hb with hb | hb
        · exact hsent b hb
        · rwa [List.mem_singleton.mp hb]
      obtain ⟨p', m', hrun⟩ := ih (tracked_step h hstep) hsent'
        (fun b hb => hfit b (List.mem_cons_of_mem _ hb)) (by
          show (s.sent ++ [buf]).length - s.seen + bufs.length ≤ vhostVringSize
          rw [List.length_append, List.length_singleton]
          omega)
      refine ⟨p', m', ?_⟩
      have := (Transition.Run.one hstep).append hrun
      rwa [List.append_assoc] at this

/-- The next entries can be consumed one after the other. -/
theorem Tracked.can_serves (n : Nat) : ∀ {s : RingState κ μ} {a : UInt16}, Tracked E s →
    SentFit s → s.cursor = some a → s.outcomes.length + n ≤ s.sent.length →
    ∃ c m b os, os.length = n ∧ Transition.Run (RingStep E) s (List.replicate n .serve)
      { s with cons := c, mem := m, cursor := some b, outcomes := s.outcomes ++ os } := by
  induction n with
  | zero =>
      intro s a _ _ hcur _
      refine ⟨s.cons, s.mem, a, [], rfl, ?_⟩
      rw [List.append_nil, ← hcur]
      exact .nil
  | succ n ih =>
      intro s a h hsent hcur hle
      obtain ⟨free, heads, hl⟩ := h.ledger hsent.allFit
      obtain ⟨c, m, b, hstep⟩ := hl.can_serve h.wired h.counters hcur (by omega)
      obtain ⟨c', m', b', os, hos, hrun⟩ := ih (tracked_step h hstep) hsent rfl (by
        show (s.outcomes ++ [_]).length + n ≤ s.sent.length
        rw [List.length_append, List.length_singleton]
        omega)
      have := (Transition.Run.one hstep).append hrun
      rw [List.append_assoc] at this
      refine ⟨c', m', b', _, ?_, this⟩
      rw [List.length_append, hos, List.length_singleton, Nat.add_comm]

/-- A call of `process_avail_vring` that finds only packets that fit consumes and publishes
them all. -/
theorem Tracked.can_call (h : Tracked E s) (hsent : SentFit s) (hidle : s.cursor = none) :
    ∃ c m os, s.outcomes.length + os.length = s.sent.length ∧
      Transition.Run (RingStep E) s
        (callLabels (s.sent.length - s.outcomes.length) ++ [.leave])
        { s with
          cons := c
          mem := m
          cursor := none
          outcomes := s.outcomes ++ os
          published := s.sent.length } := by
  have hle := h.counters.consumedLe
  obtain ⟨a, henter⟩ := h.wired.can_enter hidle
  obtain ⟨c, m, b, os, hos, hrun⟩ := Tracked.can_serves (s.sent.length - s.outcomes.length)
    (tracked_step h henter) hsent rfl (by
      show s.outcomes.length + _ ≤ s.sent.length
      omega)
  have ht := tracked_run (tracked_step h henter) hrun
  have hend : (s.outcomes ++ os).length = s.sent.length := by
    rw [List.length_append]
    omega
  obtain ⟨m', hleave⟩ := ht.wired.can_leave ht.counters rfl hend
  refine ⟨c, m', os, by omega, ?_⟩
  have := (Transition.Run.one henter).append (hrun.snoc hleave)
  simpa [callLabels, hend] using this

/-- On a fresh ring, up to a ring of packets can be put. -/
theorem Start.can_puts (h : Start E s) {n : Nat} (hn : n ≤ vhostVringSize) {buf : List UInt8}
    (hfit : Fits buf) :
    ∃ p m, Transition.Run (RingStep E) s (List.replicate n (.put buf))
      { s with prod := p, mem := m, sent := List.replicate n buf } := by
  obtain ⟨p, m, hrun⟩ := h.tracked.can_puts (List.replicate n buf)
    (by rw [SentFit, h.sent]; exact nofun)
    (fun b hb => List.eq_of_mem_replicate hb ▸ hfit)
    (by
      rw [h.sent, List.length_replicate, List.length_nil]
      omega)
  rw [List.map_replicate, h.sent, List.nil_append] at hrun
  exact ⟨p, m, hrun⟩

/-- They can then all be consumed in one call. -/
theorem Start.can_batch (h : Start E s) {n : Nat} (hn : n ≤ vhostVringSize) {buf : List UInt8}
    (hfit : Fits buf) :
    ∃ t, Transition.Run (RingStep E) s
        (List.replicate n (.put buf) ++ (callLabels n ++ [.leave])) t ∧
      t.sent = List.replicate n buf ∧ t.outcomes.length = n ∧ t.published = n ∧ t.seen = 0 ∧
      t.cursor = none := by
  obtain ⟨p, m, hputs⟩ := h.can_puts hn hfit
  obtain ⟨c, m', os, hos, hcall⟩ := (tracked_run h.tracked hputs).can_call
    (fun b hb => List.eq_of_mem_replicate hb ▸ hfit) h.cursor
  simp only [List.length_replicate, h.outcomes, List.length_nil, Nat.sub_zero, Nat.zero_add,
    List.nil_append] at hos hputs hcall
  exact ⟨_, hputs.append hcall, rfl, hos, rfl, h.seen, rfl⟩

/-- Two batches, and a call of `process_used_vring` between them. -/
def cycleLabels (n k : Nat) (buf : List UInt8) : List RingLabel :=
  (List.replicate n (.put buf) ++ (callLabels n ++ [.leave])) ++ [.reclaim] ++
    (List.replicate k (.put buf) ++ (callLabels k ++ [.leave]))

/-- A second batch can be put in the descriptors that come back from the first. -/
theorem Start.can_cycle (h : Start E s) {n k : Nat} (hn : n < vhostVringSize)
    (hk : k ≤ vhostVringSize) {buf : List UInt8} (hfit : Fits buf) :
    ∃ t, Transition.Run (RingStep E) s (cycleLabels n k buf) t ∧
      t.sent = List.replicate (n + k) buf ∧ t.outcomes.length = n + k ∧
      t.published = n + k ∧ t.seen = n ∧ t.cursor = none := by
  obtain ⟨t, hbatch, hsent, hout, hpub, -, hidle⟩ := h.can_batch (Nat.le_of_lt hn) hfit
  have ht := tracked_run h.tracked hbatch
  have hfits : ∀ j, ∀ b ∈ List.replicate j buf, Fits b :=
    fun j b hb => List.eq_of_mem_replicate hb ▸ hfit
  have htfits : SentFit t := by
    rw [SentFit, hsent]
    exact hfits n
  obtain ⟨free, heads, hl⟩ := ht.ledger htfits.allFit
  obtain ⟨p, m, hreclaim⟩ := hl.can_reclaim ht.wired ht.counters (by
    rw [hpub, Nat.mod_eq_of_lt (Nat.lt_trans hn (by decide))]
    exact hn)
  have hback := tracked_step ht hreclaim
  obtain ⟨p', m', hputs⟩ := hback.can_puts (List.replicate k buf) htfits (hfits k) (by
    show t.sent.length - t.published + (List.replicate k buf).length ≤ vhostVringSize
    rw [hsent, hpub, List.length_replicate, List.length_replicate]
    omega)
  have hall : t.sent ++ List.replicate k buf = List.replicate (n + k) buf := by
    rw [hsent, List.replicate_append_replicate]
  rw [List.map_replicate] at hputs
  obtain ⟨c, m'', os, hos, hcall⟩ := (tracked_run hback hputs).can_call (by
    show ∀ b ∈ t.sent ++ List.replicate k buf, Fits b
    rw [hall]
    exact hfits (n + k)) hidle
  have hlen : (t.sent ++ List.replicate k buf).length = n + k := by
    rw [hall, List.length_replicate]
  simp only [hlen, hout, Nat.add_sub_cancel_left] at hos hcall
  refine ⟨_, (hbatch.snoc hreclaim).append (hputs.append hcall), hall, ?_, rfl, hpub, rfl⟩
  rw [List.length_append, hout, hos]

end Vapp
