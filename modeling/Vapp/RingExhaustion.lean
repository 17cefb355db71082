import Vapp.RingProgress
import Vapp.SessionRings

/-! # An empty free list

`put_vring` looks at the length of the descriptor at the head of the free list before
anything else, and it does so also when there is no such descriptor.
-/
namespace Vapp

open Counter16

variable {κ μ : Type} {E : RingEnv} {s : RingState κ μ}

/-- `put_vring` stays inside its arrays whatever it is to put, and on an empty free list it
refuses the packet and changes nothing. -/
def PutSafe (E : RingEnv) (s : RingState κ μ) : Prop :=
  ∀ buf, (∀ i, putVring E.prodSpace s.prod E.vIdx buf s.mem ≠ .fault (.subscript i)) ∧
    (s.head E = vringIdxNone →
      putVring E.prodSpace s.prod E.vIdx buf s.mem = .ret (-1, s.prod, s.mem))

theorem deref_ne_subscript {sp : AddrSpace} {a : UInt64} {i : Int} :
    deref sp a ≠ .fault (.subscript i) := by
  intro h
  unfold deref at h
  split at h <;> cases h

theorem writeBytes_ne_subscript {sp : AddrSpace} {i : Int} {bs : List UInt8} :
    ∀ {m : Mem} {a : UInt64}, writeBytes sp m a bs ≠ .fault (.subscript i) := by
  induction bs with
  | nil => exact nofun
  | cons b bs ih =>
      intro m a h
      rcases Outcome.bind_eq_fault.mp h with h | ⟨l, -, h⟩
      · exact deref_ne_subscript h
      · exact ih h

/-- **Where `put_vring` leaves an array**: only at the descriptor table, when the head of
the free list is not an index of it. -/
theorem Wired.putVring_subscript (hw : Wired E s) {buf : List UInt8} {i : Int}
    (h : putVring E.prodSpace s.prod E.vIdx buf s.mem = .fault (.subscript i)) :
    ¬ (s.head E).toNat < vhostVringSize := by
  intro ha
  have ha' : (s.prod.vring E.vIdx).lastAvailIdx.toNat < vhostVringSize := ha
  simp only [putVring, loadDesc_of_resolve hw.prodDesc ha', Outcome.ret_bind] at h
  split at h
  · cases h
  · rcases Outcome.bind_eq_fault.mp h with h | ⟨m1, -, h⟩
    · exact writeBytes_ne_subscript h
    rcases Outcome.bind_eq_fault.mp h with h | ⟨m2, -, h⟩
    · exact writeBytes_ne_subscript h
    rw [storeDesc_of_resolve hw.prodDesc ha', Outcome.ret_bind] at h
    rw [addAvail_of_resolve hw.prodAvail (num_ne_zero hw.prodNum)] at h
    · cases h
    · rw [hw.prodNum]
      exact Nat.mod_lt _ (by decide)

theorem putSafe_iff (hw : Wired E s) (hc : Counters E s) :
    PutSafe E s ↔ s.head E ≠ vringIdxNone := by
  constructor
  · intro hsafe hnone
    have hout : ¬ (s.prod.vring E.vIdx).lastAvailIdx.toNat < vhostVringSize := by
      rw [show (s.prod.vring E.vIdx).lastAvailIdx = vringIdxNone from hnone]
      decide
    exact (hsafe []).1 _ (putVring_of_out_of_range hw.prodDesc hout)
  · intro hne buf
    exact ⟨fun i h => hw.putVring_subscript h (hc.head.lt hne), fun hnone => absurd hnone hne⟩

namespace Session

/-- **`put_vring` is safe exactly while the free list is not empty**, in every state that a
run reaches. -/
theorem tx_put_safe_iff {S : Session} {sock : Int} {m : Mem} {w : World}
    (hopen : S.Opened sock m w) {ls : List RingLabel} {s : RingState Unit ServerContext}
    (hrun : Transition.Run (RingStep S.txEnv) (S.txState w) ls s) :
    PutSafe S.txEnv s ↔ s.head S.txEnv ≠ vringIdxNone := by
  have h := tracked_run (tx_start hopen).tracked hrun
  exact putSafe_iff h.wired h.counters

/-- The last descriptor is still free, and then it is not. -/
theorem tx_put_safe_iff_demo : ∃ w s t, demo.Opened 4 Mem.zero w ∧
    Transition.Run (RingStep demo.txEnv) (demo.txState w)
      (List.replicate (vhostVringSize - 1) (.put [0])) s ∧ s.sent.length = vhostVringSize - 1 ∧
    (PutSafe demo.txEnv s ↔ s.head demo.txEnv ≠ vringIdxNone) ∧
    Transition.Run (RingStep demo.txEnv) (demo.txState w)
      (List.replicate vhostVringSize (.put [0])) t ∧ t.sent.length = vhostVringSize ∧
    (PutSafe demo.txEnv t ↔ t.head demo.txEnv ≠ vringIdxNone) := by
  obtain ⟨w, hopen⟩ := demo.opened_exists 4 Mem.zero
  obtain ⟨p, m, hrun⟩ := (tx_start hopen).can_puts (Nat.sub_le vhostVringSize 1)
    (show Fits [0] by decide)
  obtain ⟨p', m', hrun'⟩ := (tx_start hopen).can_puts (Nat.le_refl _) (show Fits [0] by decide)
  exact ⟨w, _, _, hopen, hrun, List.length_replicate, tx_put_safe_iff hopen hrun, hrun',
    List.length_replicate, tx_put_safe_iff hopen hrun'⟩

/-- With a ring of packets outstanding, the next `put_vring` reads descriptor 65535. -/
theorem tx_put_past_table : ∃ w s, demo.Opened 4 Mem.zero w ∧
    Transition.Run (RingStep demo.txEnv) (demo.txState w)
      (List.replicate vhostVringSize (.put [0])) s ∧
    s.head demo.txEnv = vringIdxNone ∧ ¬ PutSafe demo.txEnv s ∧
    putVring demo.txEnv.prodSpace s.prod txIdx [0] s.mem = .fault (.subscript 65535) := by
  obtain ⟨w, hopen⟩ := demo.opened_exists 4 Mem.zero
  have hstart := tx_start hopen
  obtain ⟨p, m, hrun⟩ := hstart.can_puts (Nat.le_refl _) (show Fits [0] by decide)
  have h := tracked_run hstart.tracked hrun
  obtain ⟨free, heads, hl⟩ := h.ledger fun k _ hk _ => absurd hk (Nat.not_lt_zero k)
  have hnone : (p.vring txIdx).lastAvailIdx = vringIdxNone := by
    apply Decidable.byContradiction
    intro hne
    have hlt : (List.replicate vhostVringSize [(0 : UInt8)]).length - 0 < vhostVringSize :=
      hl.head_ne_iff.mp hne
    rw [List.length_replicate] at hlt
    exact absurd hlt (Nat.lt_irrefl _)
  refine ⟨w, _, hopen, hrun, hnone, fun hsafe => ?_, ?_⟩
  · exact (putSafe_iff h.wired h.counters).mp hsafe hnone
  · have hfault : putVring demo.txEnv.prodSpace p txIdx [0] m =
        .fault (.subscript (p.vring txIdx).lastAvailIdx.toNat) :=
      putVring_of_out_of_range h.wired.prodDesc (by rw [hnone]; decide)
    rw [hnone] at hfault
    exact hfault

end Session

end Vapp
