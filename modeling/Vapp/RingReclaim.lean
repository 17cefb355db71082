import Vapp.RingProgress
import Vapp.SessionRings

/-! # Reclaiming used descriptors

`process_used_vring` is to free one descriptor for each used entry that was published
since its last call.  It does so exactly while `used->idx`, which the consumer lets run
over the full 16-bit range, lies inside the ring; past it, the walk never ends.
-/
namespace Vapp

open Counter16

variable {κ μ : Type} {E : RingEnv} {s : RingState κ μ}

/-- The used entries published since the last call, in order: slot and id. -/
def RingState.publishedEntries (E : RingEnv) (s : RingState κ μ) : List (Nat × UInt32) :=
  (List.range (s.published - s.seen)).map fun k =>
    ((s.seen + k) % vhostVringSize,
      ((s.mem.used E.usedLoc).ring ((s.seen + k) % vhostVringSize)).id)

/-- The next call of `process_used_vring` returns and calls `_free_vring` for the entries
published since the last one, and a further call frees nothing. -/
def ReclaimExact (E : RingEnv) (s : RingState κ μ) : Prop :=
  ∃ fuel r, processUsedVring E.prodSpace fuel s.prod E.vIdx s.mem = .ret r ∧
    r.freed = s.publishedEntries E ∧
    ∃ fuel' r', processUsedVring E.prodSpace fuel' r.table E.vIdx r.mem = .ret r' ∧ r'.freed = []

/-- The published entries name descriptors of the table. -/
def IdsInRange (E : RingEnv) (s : RingState κ μ) : Prop :=
  ∀ k, s.seen ≤ k → k < s.published →
    ((s.mem.used E.usedLoc).ring (k % vhostVringSize)).id.toNat < vhostVringSize

/-- A call that finds nothing new frees nothing. -/
theorem processUsedVring_idle (hw : Wired E s) (hc : Counters E s)
    (hidle : s.published = s.seen) :
    ∃ r, processUsedVring E.prodSpace 1 s.prod E.vIdx s.mem = .ret r ∧ r.freed = [] := by
  have hwalk := hw.walking hc.lastUsed_lt
  have hidx : (s.mem.used E.usedLoc).idx.toNat < vhostVringSize := by
    rw [hc.usedIdx, toNat_of, hidle]
    exact hc.seenSlot
  obtain ⟨hdist, -⟩ := hc.distance (by omega) hidx
  rw [hidle, Nat.sub_self] at hdist
  refine ⟨_, (processUsedVring_ret_iff hwalk).mpr ⟨hidx, ?_, ?_, rfl⟩, ?_⟩
  · rw [hdist]
    exact Nat.one_pos
  · rw [hdist]
    exact fun e he => absurd he List.not_mem_nil
  · rw [hdist]
    rfl

/-- **When reclaiming is exact**, for a state with at most one ring of published entries. -/
theorem reclaimExact_iff (hw : Wired E s) (hc : Counters E s)
    (hwin : s.published ≤ s.seen + vhostVringSize) :
    ReclaimExact E s ↔
      (s.mem.used E.usedLoc).idx.toNat < vhostVringSize ∧ IdsInRange E s := by
  have hwalk := hw.walking hc.lastUsed_lt
  have hseen := hc.seenLe
  have hids : (s.mem.used E.usedLoc).idx.toNat < vhostVringSize →
      ((∀ e ∈ (s.mem.used E.usedLoc).ids vhostVringSize
        (s.prod.vring E.vIdx).lastUsedIdx.toNat (s.published - s.seen),
        e.toNat < vhostVringSize) ↔ IdsInRange E s) := by
    intro hidx
    rw [(hc.distance hwin hidx).2]
    constructor
    · intro h k hk hk'
      refine h _ (VringUsed.mem_ids.mpr ⟨k - s.seen, by omega, ?_⟩)
      rw [Nat.mod_add_mod, Nat.add_sub_cancel' hk]
    · intro h e he
      obtain ⟨k, hk, rfl⟩ := VringUsed.mem_ids.mp he
      rw [Nat.mod_add_mod]
      exact h _ (Nat.le_add_right _ _) (by omega)
  constructor
  · rintro ⟨fuel, r, hcall, -, -⟩
    obtain ⟨hidx, -, hall, -⟩ := (processUsedVring_ret_iff hwalk).mp hcall
    rw [(hc.distance hwin hidx).1] at hall
    exact ⟨hidx, (hids hidx).mp hall⟩
  · rintro ⟨hidx, hrange⟩
    obtain ⟨hdist, hslot⟩ := hc.distance hwin hidx
    obtain ⟨r, hr⟩ : ∃ r, r = ((UsedLoop.start s.prod E.vIdx s.mem).walk E.vIdx E.descLoc
        E.usedLoc (s.published - s.seen)).finish E.vIdx := ⟨_, rfl⟩
    have hcall : processUsedVring E.prodSpace (s.published - s.seen + 1) s.prod E.vIdx s.mem =
        .ret r := by
      refine (processUsedVring_ret_iff hwalk).mpr ⟨hidx, ?_, ?_, ?_⟩
      · rw [hdist]
        exact Nat.lt_succ_self _
      · rw [hdist]
        exact (hids hidx).mpr hrange
      · rw [hdist]
        exact hr
    refine ⟨_, r, hcall, ?_, ?_⟩
    · have hfreed := walk_freed (s.published - s.seen) hwalk
      have hu : (UsedLoop.start s.prod E.vIdx s.mem).uIdx.toNat = s.seen % vhostVringSize := hslot
      rw [hr]
      refine hfreed.trans ((List.nil_append _).trans (List.map_congr_left fun k _ => ?_))
      rw [hu, Nat.mod_add_mod]
      rfl
    · obtain ⟨hw', hc'⟩ := counters_step ⟨hw, hc⟩ (RingStep.reclaim hcall)
      obtain ⟨r', hr', hfreed⟩ := processUsedVring_idle hw' hc' rfl
      exact ⟨1, r', hr', hfreed⟩

namespace Session

/-- **Reclaiming on the TX ring is exact if and only if `used->idx` lies inside the ring**
and the published entries name descriptors of the table. -/
theorem tx_reclaim_exact_iff {S : Session} {sock : Int} {m : Mem} {w : World}
    (hopen : S.Opened sock m w) {ls : List RingLabel} {s : RingState Unit ServerContext}
    (hrun : Transition.Run (RingStep S.txEnv) (S.txState w) ls s)
    (hwin : s.published - s.seen ≤ vhostVringSize) :
    ReclaimExact S.txEnv s ↔
      (s.mem.used S.txEnv.usedLoc).idx.toNat < vhostVringSize ∧ IdsInRange S.txEnv s := by
  have h := tracked_run (tx_start hopen).tracked hrun
  exact reclaimExact_iff h.wired h.counters (by omega)

/-- Three packets have come and gone, two more are used and not yet reclaimed. -/
theorem tx_reclaim_exact_iff_demo : ∃ w s, demo.Opened 4 Mem.zero w ∧
    Transition.Run (RingStep demo.txEnv) (demo.txState w) (cycleLabels 3 2 [0]) s ∧
    s.published = 5 ∧ s.seen = 3 ∧
    (ReclaimExact demo.txEnv s ↔
      (s.mem.used demo.txEnv.usedLoc).idx.toNat < vhostVringSize ∧ IdsInRange demo.txEnv s) := by
  obtain ⟨w, hopen⟩ := demo.opened_exists 4 Mem.zero
  obtain ⟨s, hrun, -, -, hpub, hseen, -⟩ := (tx_start hopen).can_cycle (n := 3) (k := 2)
    (by decide) (by decide) (show Fits [0] by decide)
  refine ⟨w, s, hopen, hrun, hpub, hseen, tx_reclaim_exact_iff hopen hrun ?_⟩
  rw [hpub, hseen]
  decide

/-- Once a whole ring of packets has been put and consumed, `used->idx` is `num` and
`process_used_vring` does not return. -/
theorem tx_reclaim_diverges : ∃ w s, demo.Opened 4 Mem.zero w ∧
    Transition.Run (RingStep demo.txEnv) (demo.txState w)
      (List.replicate vhostVringSize (.put [0]) ++ (callLabels vhostVringSize ++ [.leave])) s ∧
    s.published - s.seen ≤ vhostVringSize ∧ ¬ ReclaimExact demo.txEnv s ∧
    ∀ fuel r, processUsedVring demo.txEnv.prodSpace fuel s.prod txIdx s.mem ≠ .ret r := by
  obtain ⟨w, hopen⟩ := demo.opened_exists 4 Mem.zero
  have hstart := tx_start hopen
  obtain ⟨s, hrun, -, -, hpub, hseen, -⟩ := hstart.can_batch (Nat.le_refl _)
    (show Fits [0] by decide)
  have ht := tracked_run hstart.tracked hrun
  have hne : ∀ fuel r,
      processUsedVring demo.txEnv.prodSpace fuel s.prod txIdx s.mem ≠ .ret r := by
    intro fuel r hcall
    have hidx := ((processUsedVring_ret_iff (ht.wired.walking ht.counters.lastUsed_lt)).mp
      hcall).1
    rw [ht.counters.usedIdx, hpub] at hidx
    exact absurd hidx (by decide)
  refine ⟨w, s, hopen, hrun, ?_, ?_, hne⟩
  · rw [hpub]
    exact Nat.sub_le _ _
  · rintro ⟨fuel, r, hcall, -⟩
    exact hne fuel r hcall

end Session

end Vapp
