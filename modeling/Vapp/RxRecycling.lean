import Vapp.RingConservation
import Vapp.ServerPackets

/-! # The descriptors of the RX ring

On the RX ring the server puts packets and the client consumes them.  The server has no
call of `process_used_vring`, so its runs have no reclaiming step: what the client reports
in the used ring never comes back to the free list.
-/
namespace Vapp

open Counter16 ArrayChain

variable {κ μ : Type} {E : RingEnv} {s t : RingState κ μ} {l : RingLabel}

/-- The labels of runs in which the server is the producer: it never reclaims, and puts
what `poll_server` sends. -/
def SendsOnly (ls : List RingLabel) : Prop :=
  RingLabel.reclaim ∉ ls ∧ ∀ buf, RingLabel.put buf ∈ ls → Sendable buf

/-- The consumer has reported descriptor `d` in a published used entry. -/
def Reported (E : RingEnv) (s : RingState κ μ) (d : UInt16) : Prop :=
  ∃ k, k < s.published ∧
    ((s.mem.used E.usedLoc).ring (k % vhostVringSize)).id.toNat = d.toNat

/-- Descriptor `d` is on the free list of the producer. -/
def Available (E : RingEnv) (s : RingState κ μ) (d : UInt16) : Prop :=
  ∃ free, Chain (s.next E) vringIdxNone (s.head E) free ∧ d ∈ free

/-- Every reported descriptor becomes available again, and the head of the free list is a
descriptor. -/
def Recycled (E : RingEnv) (s : RingState κ μ) : Prop :=
  (∀ d, Reported E s d → ∃ ls t, SendsOnly ls ∧ Transition.Run (RingStep E) s ls t ∧
    Available E t d) ∧
  (s.head E).toNat < vhostVringSize

/-- What holds in the runs of a producer that never reclaims. -/
structure Unreclaimed (E : RingEnv) (s : RingState κ μ) : Prop where
  tracked : Tracked E s
  sentFit : SentFit s
  seen : s.seen = 0

namespace Unreclaimed

theorem step (h : Unreclaimed E s) (hl : l ≠ .reclaim) (hfit : ∀ buf, l = .put buf → Fits buf)
    (hs : RingStep E s l t) : Unreclaimed E t := by
  refine ⟨tracked_step h.tracked hs, sentFit_step hfit h.sentFit hs, ?_⟩
  cases hs with
  | put _ => exact h.seen
  | reclaim _ => exact absurd rfl hl
  | enter _ _ => exact h.seen
  | serve _ _ => exact h.seen
  | leave _ _ _ => exact h.seen

theorem ledger (h : Unreclaimed E s) : ∃ free heads, Ledger E s free heads :=
  h.tracked.ledger h.sentFit.allFit

/-- Without reclaiming, a ring is used up after as many packets as it has descriptors. -/
theorem head_lt_iff (h : Unreclaimed E s) :
    (s.head E).toNat < vhostVringSize ↔ s.sent.length < vhostVringSize := by
  obtain ⟨free, heads, hl⟩ := h.ledger
  have hne := hl.head_ne_iff
  rw [h.seen, Nat.sub_zero] at hne
  rw [← hne]
  constructor
  · intro hlt heq
    rw [heq] at hlt
    exact absurd hlt (by decide)
  · exact h.tracked.counters.head.lt

theorem sent_le (h : Unreclaimed E s) : s.sent.length ≤ vhostVringSize := by
  obtain ⟨free, heads, hl⟩ := h.ledger
  have hlen := hl.length
  rw [h.seen] at hlen
  omega

/-- Used entries of before are never written again. -/
theorem keeps_used (h : Unreclaimed E s) (hl : l ≠ .reclaim) (hs : RingStep E s l t) {k : Nat}
    (hk : k < s.outcomes.length) :
    (t.mem.used E.usedLoc).ring k = (s.mem.used E.usedLoc).ring k ∧ k < t.outcomes.length := by
  have hsent := h.sent_le
  have hle := h.tracked.counters.consumedLe
  cases hs with
  | @put buf r p m hput => exact ⟨by rw [put_used (.put hput)], hk⟩
  | reclaim _ => exact absurd rfl hl
  | enter _ _ => exact ⟨rfl, hk⟩
  | @serve a fuel r hcur hturn =>
      have hs : RingStep E s .serve _ := .serve hcur hturn
      have hnext := (counters_step ⟨h.tracked.wired, h.tracked.counters⟩ hs).2.consumedLe
      have hlt : s.outcomes.length < s.sent.length := by
        have : (s.outcomes ++ [r.call]).length ≤ s.sent.length := hnext
        rwa [List.length_append, List.length_singleton] at this
      have hbuf := List.getElem?_eq_getElem hlt
      obtain ⟨len, hring⟩ := (h.tracked.serve_used h.sentFit.allFit hs hbuf).1
        (h.sentFit _ (List.getElem_mem hlt))
      refine ⟨?_, ?_⟩
      · rw [hring, Function.update_of_ne]
        rw [Nat.mod_eq_of_lt (by omega)]
        exact Nat.ne_of_lt hk
      · show k < (s.outcomes ++ [r.call]).length
        rw [List.length_append]
        omega
  | leave hcur hturn hleave =>
      exact ⟨by rw [leave_used h.tracked.wired (.leave hcur hturn hleave)], hk⟩

/-- A reported descriptor is not on the free list. -/
theorem reported_not_available (h : Unreclaimed E s) {d : UInt16} {k : Nat}
    (hk : k < s.outcomes.length)
    (hid : ((s.mem.used E.usedLoc).ring k).id.toNat = d.toNat) : ¬ Available E s d := by
  obtain ⟨free, heads, hl⟩ := h.ledger
  rintro ⟨free', hchain, hd⟩
  rw [← hl.chain.unique hchain] at hd
  have hle := h.tracked.counters.consumedLe
  have hsent := h.sent_le
  obtain ⟨a, ha⟩ : ∃ a, heads[k]? = some a :=
    ⟨_, List.getElem?_eq_getElem (by rw [hl.count]; omega)⟩
  have hseen : s.seen ≤ k := by
    rw [h.seen]
    exact Nat.zero_le k
  have hused := hl.used k a hseen hk ha
  rw [Nat.mod_eq_of_lt (by omega)] at hused
  rw [hused, UInt16.toNat_toUInt32] at hid
  exact hl.free_ne hd hseen ha (UInt16.toNat_inj.mp hid)

/-- **What is reported never becomes available again.** -/
theorem never_available (h : Unreclaimed E s) {ls : List RingLabel} (hls : SendsOnly ls)
    (hrun : Transition.Run (RingStep E) s ls t) {d : UInt16} (hd : Reported E s d) :
    ¬ Available E t d := by
  obtain ⟨k, hk, hid⟩ := hd
  have hpub := h.tracked.counters.publishedLe
  have hle := h.tracked.counters.consumedLe
  have hsent := h.sent_le
  rw [Nat.mod_eq_of_lt (by omega)] at hid
  have hend : Unreclaimed E t ∧ k < t.outcomes.length ∧
      ((t.mem.used E.usedLoc).ring k).id.toNat = d.toNat := by
    refine Transition.Run.invariant
      (I := fun t => Unreclaimed E t ∧ k < t.outcomes.length ∧
        ((t.mem.used E.usedLoc).ring k).id.toNat = d.toNat)
      (A := fun l => l ≠ .reclaim ∧ ∀ buf, l = .put buf → Fits buf) ?_
      ⟨h, by omega, hid⟩ hrun fun l hl => ⟨?_, ?_⟩
    · rintro t l u ⟨ht, hkt, hidt⟩ ⟨hl, hfit⟩ hs
      obtain ⟨hring, hku⟩ := ht.keeps_used hl hs hkt
      exact ⟨ht.step hl hfit hs, hku, by rw [hring, hidt]⟩
    · rintro rfl
      exact hls.1 hl
    · rintro buf rfl
      exact (hls.2 buf hl).fits
  exact hend.1.reported_not_available hend.2.1 hend.2.2

theorem recycled_iff (h : Unreclaimed E s) :
    Recycled E s ↔ s.published = 0 ∧ s.sent.length < vhostVringSize := by
  constructor
  · rintro ⟨hback, hhead⟩
    refine ⟨?_, h.head_lt_iff.mp hhead⟩
    apply Decidable.byContradiction
    intro hpub
    -- the first entry is reported and does not come back
    obtain ⟨free, heads, hl⟩ := h.ledger
    have hle := Nat.le_trans h.tracked.counters.publishedLe h.tracked.counters.consumedLe
    have hpos : 0 < s.outcomes.length :=
      Nat.lt_of_lt_of_le (Nat.pos_of_ne_zero hpub) h.tracked.counters.publishedLe
    obtain ⟨a, ha⟩ : ∃ a, heads[0]? = some a :=
      ⟨_, List.getElem?_eq_getElem (by rw [hl.count]; omega)⟩
    have hused := hl.used 0 a (Nat.le_of_eq h.seen) hpos ha
    have hreported : Reported E s a :=
      ⟨0, Nat.pos_of_ne_zero hpub, by rw [hused, UInt16.toNat_toUInt32]⟩
    obtain ⟨ls, t, hls, hrun, havail⟩ := hback a hreported
    exact h.never_available hls hrun hreported havail
  · rintro ⟨hpub, hlt⟩
    refine ⟨?_, h.head_lt_iff.mpr hlt⟩
    rintro d ⟨k, hk, -⟩
    omega

end Unreclaimed

theorem Start.unreclaimed {s₀ : RingState κ μ} (h0 : Start E s₀) {ls : List RingLabel}
    (hls : SendsOnly ls) (hrun : Transition.Run (RingStep E) s₀ ls s) : Unreclaimed E s := by
  refine Transition.Run.invariant (I := Unreclaimed E)
    (A := fun l => l ≠ .reclaim ∧ ∀ buf, l = .put buf → Fits buf)
    (fun _ _ _ ht hl hs => ht.step hl.1 hl.2 hs) ⟨h0.tracked, ?_, h0.seen⟩ hrun
    fun l hl => ⟨?_, ?_⟩
  · rw [SentFit, h0.sent]
    intro buf hbuf
    cases hbuf
  · rintro rfl
    exact hls.1 hl
  · rintro buf rfl
    exact (hls.2 buf hl).fits

/-- A packet is put, and consumed in a call of its own. -/
def roundLabels (buf : List UInt8) : List RingLabel := .put buf :: (callLabels 1 ++ [.leave])

theorem sendsOnly_rounds {buf : List UInt8} (hsend : Sendable buf) (n : Nat) :
    SendsOnly (List.replicate n (roundLabels buf)).flatten := by
  have hmem : ∀ l ∈ (List.replicate n (roundLabels buf)).flatten, l ∈ roundLabels buf := by
    intro l hl
    obtain ⟨ls, hls, hl⟩ := List.mem_flatten.mp hl
    rwa [List.eq_of_mem_replicate hls] at hl
  constructor
  · intro hr
    simpa [roundLabels, callLabels] using hmem _ hr
  · intro b hb
    have : b = buf := by simpa [roundLabels, callLabels] using hmem _ hb
    exact this ▸ hsend

/-- Rounds are possible until the descriptors are used up. -/
theorem Start.can_rounds {s₀ : RingState κ μ} (h0 : Start E s₀) {buf : List UInt8}
    (hsend : Sendable buf) (n : Nat) : n ≤ vhostVringSize →
    ∃ s, Transition.Run (RingStep E) s₀ (List.replicate n (roundLabels buf)).flatten s ∧
      s.sent.length = n ∧ s.outcomes.length = n ∧ s.published = n ∧ s.cursor = none := by
  induction n with
  | zero =>
      intro _
      refine ⟨s₀, .nil, ?_, ?_, h0.published, h0.cursor⟩
      · rw [h0.sent, List.length_nil]
      · rw [h0.outcomes, List.length_nil]
  | succ n ih =>
      intro hn
      obtain ⟨s, hrun, hsent, hout, hpub, hidle⟩ := ih (by omega)
      have h := h0.unreclaimed (sendsOnly_rounds hsend n) hrun
      have hone : ∀ b ∈ [buf], Fits b := fun b hb => List.mem_singleton.mp hb ▸ hsend.fits
      obtain ⟨p, m, hput⟩ := h.tracked.can_puts [buf] h.sentFit hone (by
        rw [h.seen, hsent, List.length_singleton]
        omega)
      have hfits : SentFit { s with prod := p, mem := m, sent := s.sent ++ [buf] } := by
        intro b hb
        rcases List.mem_append.mp hb with hb | hb
        · exact h.sentFit b hb
        · exact hone b hb
      obtain ⟨c, m', os, hos, hcall⟩ := (tracked_run h.tracked hput).can_call hfits hidle
      have hlen : (s.sent ++ [buf]).length = n + 1 := by
        rw [List.length_append, hsent, List.length_singleton]
      simp only [hlen, hout, Nat.add_sub_cancel_left] at hos hcall
      have hall := hrun.append (hput.append hcall)
      rw [List.replicate_succ', List.flatten_append, List.flatten_singleton]
      refine ⟨_, hall, hlen, ?_, rfl, rfl⟩
      show (s.outcomes ++ os).length = n + 1
      rw [List.length_append, hout, hos]

namespace Session

/-- **The RX ring is recycled only until it is used**: descriptors come back exactly while
the client has reported none, and the server has a valid one at the head of its free list
exactly while it has sent fewer packets than the ring has descriptors. -/
theorem rx_recycled_iff {S : Session} {sock : Int} {m : Mem} {w : World}
    (hopen : S.Opened sock m w) {ls : List RingLabel} {s : RingState ServerContext Unit}
    (hls : SendsOnly ls) (hrun : Transition.Run (RingStep S.rxEnv) (S.rxState w) ls s) :
    Recycled S.rxEnv s ↔ s.published = 0 ∧ s.sent.length < vhostVringSize :=
  ((rx_start hopen).unreclaimed hls hrun).recycled_iff

/-- Three packets were sent, consumed and reported. -/
theorem rx_recycled_iff_demo : ∃ w s, demo.Opened 4 Mem.zero w ∧
    Transition.Run (RingStep demo.rxEnv) (demo.rxState w)
      (List.replicate 3 (roundLabels [0])).flatten s ∧ s.sent.length = 3 ∧ s.published = 3 ∧
    (Recycled demo.rxEnv s ↔ s.published = 0 ∧ s.sent.length < vhostVringSize) := by
  obtain ⟨w, hopen⟩ := demo.opened_exists 4 Mem.zero
  obtain ⟨s, hrun, hsent, -, hpub, -⟩ :=
    (rx_start hopen).can_rounds sendable_zero 3 (by decide)
  exact ⟨w, s, hopen, hrun, hsent, hpub,
    rx_recycled_iff hopen (sendsOnly_rounds sendable_zero 3) hrun⟩

/-- With never more than one packet outstanding, the server has used up the RX ring after
as many packets as there are descriptors. -/
theorem rx_used_up : ∃ w s, demo.Opened 4 Mem.zero w ∧
    SendsOnly (List.replicate vhostVringSize (roundLabels [0])).flatten ∧
    Transition.Run (RingStep demo.rxEnv) (demo.rxState w)
      (List.replicate vhostVringSize (roundLabels [0])).flatten s ∧
    ¬ Recycled demo.rxEnv s ∧ ¬ (s.head demo.rxEnv).toNat < vhostVringSize := by
  obtain ⟨w, hopen⟩ := demo.opened_exists 4 Mem.zero
  have hstart := rx_start hopen
  obtain ⟨s, hrun, hsent, -, -, -⟩ :=
    hstart.can_rounds sendable_zero vhostVringSize (Nat.le_refl _)
  have hls := sendsOnly_rounds sendable_zero vhostVringSize
  have h := hstart.unreclaimed hls hrun
  have hhead : ¬ (s.head demo.rxEnv).toNat < vhostVringSize := by
    rw [h.head_lt_iff, hsent]
    exact Nat.lt_irrefl _
  exact ⟨w, s, hopen, hls, hrun, fun hrec => hhead hrec.2, hhead⟩

end Session

end Vapp
