import Vapp.RingProgress
import Vapp.SessionRings

/-! # Which packets arrive

`put_vring` accepts a packet up to the size of the buffer, header not counted;
`_process_desc` only copies one that, with its header, leaves a byte of its local buffer
free.  A packet between the two bounds is accepted and silently dropped.
-/
namespace Vapp

variable {κ μ : Type} {E : RingEnv} {s : RingState κ μ}

/-- Every packet consumed so far was handed to `avail_handler` whole. -/
def HandedWhole (s : RingState κ μ) : Prop :=
  ∀ (k : Nat) (buf : List UInt8), k < s.outcomes.length → s.sent[k]? = some buf →
    s.outcomes[k]? = some (some (callOf buf))

theorem Tracked.handedWhole_iff (h : Tracked E s) : HandedWhole s ↔ AllFit s := by
  constructor
  · intro hwhole
    -- the first packet that does not fit was not handed over
    suffices hall : ∀ n k buf, k < n → k < s.outcomes.length → s.sent[k]? = some buf →
        Fits buf from fun k buf hk hbuf => hall (k + 1) k buf (Nat.lt_succ_self k) hk hbuf
    intro n
    induction n with
    | zero => exact fun k _ hk => absurd hk (Nat.not_lt_zero k)
    | succ n ih =>
        intro k buf hkn hk hbuf
        apply Decidable.byContradiction
        intro hfit
        have hnone := h.refused k buf hbuf hfit
          (fun j b hj hb => ih j b (by omega) (by omega) hb) hk
        rw [hwhole k buf hk hbuf] at hnone
        cases hnone
  · intro hfits k buf hk hbuf
    obtain ⟨free, heads, hl⟩ := h.ledger hfits
    have ho := List.getElem?_eq_getElem hk
    rw [ho, hl.handed k buf _ hbuf ho]

/-- **The packets that arrive**: on a ring as it is laid out, every packet that was put and
consumed was handed over whole if and only if each of them, with its header, is shorter
than `ETH_PACKET_SIZE`. -/
theorem handed_whole_iff_fits {s₀ : RingState κ μ} (h0 : Start E s₀) {ls : List RingLabel}
    (hrun : Transition.Run (RingStep E) s₀ ls s) :
    HandedWhole s ↔ ∀ (k : Nat) (buf : List UInt8), k < s.outcomes.length →
      s.sent[k]? = some buf → buf.length + virtioNetHdrSize < ethPacketSize :=
  (tracked_run h0.tracked hrun).handedWhole_iff

/-- Five packets, the last two in descriptors that were reclaimed. -/
theorem handed_whole_iff_fits_demo : ∃ w s, Session.demo.Opened 4 Mem.zero w ∧
    Transition.Run (RingStep Session.demo.txEnv) (Session.demo.txState w)
      (cycleLabels 3 2 [0]) s ∧ s.outcomes.length = 5 ∧
    (HandedWhole s ↔ ∀ (k : Nat) (buf : List UInt8), k < s.outcomes.length →
      s.sent[k]? = some buf → buf.length + virtioNetHdrSize < ethPacketSize) := by
  obtain ⟨w, hopen⟩ := Session.demo.opened_exists 4 Mem.zero
  have hstart := Session.tx_start hopen
  obtain ⟨s, hrun, -, hout, -⟩ := hstart.can_cycle (n := 3) (k := 2) (by decide) (by decide)
    (show Fits [0] by decide)
  exact ⟨w, s, hopen, hrun, hout, handed_whole_iff_fits hstart hrun⟩

/-- `put_vring` accepts 1508 bytes, `_process_desc` drops them. -/
theorem packet_dropped : ∃ w s, Session.demo.Opened 4 Mem.zero w ∧
    Transition.Run (RingStep Session.demo.txEnv) (Session.demo.txState w)
      [.put (List.replicate 1508 0), .enter, .serve] s ∧
    s.sent = [List.replicate 1508 0] ∧ s.outcomes = [none] ∧ ¬ HandedWhole s := by
  obtain ⟨w, hopen⟩ := Session.demo.opened_exists 4 Mem.zero
  have hstart := Session.tx_start hopen
  have h0 := hstart.tracked
  have hl0 := hstart.ledger
  have hlen : (List.replicate 1508 (0 : UInt8)).length = 1508 := List.length_replicate
  generalize List.replicate 1508 (0 : UInt8) = long at hlen ⊢
  have hlong : ¬ Fits long := by
    rw [Fits, hlen]
    decide
  obtain ⟨p, m, hs1⟩ := hl0.can_put h0.wired h0.counters
    (hl0.head_ne_iff.mpr (show 0 < vhostVringSize by decide))
    (show long.length ≤ bufferSize by rw [hlen]; decide)
  have h1 := tracked_step h0 hs1
  obtain ⟨a, hs2⟩ := h1.wired.can_enter rfl
  have h2 := tracked_step h1 hs2
  obtain ⟨_, _, hl2⟩ := h2.ledger fun k _ hk _ => absurd hk (Nat.not_lt_zero k)
  obtain ⟨c, m', b, hs3⟩ := hl2.can_serve h2.wired h2.counters rfl (show 0 < 1 by decide)
  have h3 := tracked_step h2 hs3
  refine ⟨w, _, hopen, ((Transition.Run.one hs1).snoc hs2).snoc hs3, rfl, ?_, fun hwhole => ?_⟩
  · exact congrArg (fun o => [o]) (if_neg hlong)
  · exact hlong (h3.handedWhole_iff.mp hwhole 0 long Nat.one_pos rfl)

end Vapp
