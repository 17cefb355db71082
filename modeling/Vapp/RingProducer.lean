import Vapp.PutFrame
import Vapp.SessionRings

/-! # The producer of a ring

Seen from the producer, what the two parties of a ring do are packets put, descriptors freed
and steps of others.  What holds over all runs of such calls holds in a session.
-/
namespace Vapp

open Counter16

variable {κ μ : Type} {sp : AddrSpace} {i : RingIdx} {D U : Loc} {num : Nat}

/-- The walk of `process_used_vring` calls `_free_vring` for one entry after the other. -/
theorem walk_frees (n : Nat) : ∀ {s : UsedLoop κ} (taken : List UInt16),
    Walking sp i D U num s →
    (∀ e ∈ (s.mem.used U).ids num s.uIdx.toNat n, e.toNat < vhostVringSize) →
    ∃ ls taken', Transition.Run (ProdStep sp i D) ⟨s.table, s.mem, taken⟩ ls
      ⟨(s.walk i D U n).table, (s.walk i D U n).mem, taken'⟩ := by
  induction n with
  | zero => exact fun taken _ _ => ⟨[], taken, .nil⟩
  | succ n ih =>
      intro s taken h hids
      rw [VringUsed.ids_succ h.idx] at hids
      have hfirst := ProdStep.free (D := D) (s := ⟨s.table, s.mem, taken⟩)
        (freeVring_of_lt h.desc (hids _ List.mem_cons_self))
      have hrest : ∀ e ∈ ((s.reclaim i D U).mem.used U).ids num (s.reclaim i D U).uIdx.toNat n,
          e.toNat < vhostVringSize := by
        rw [UsedLoop.reclaim_used, h.reclaim_uIdx]
        exact fun e he => hids e (List.mem_cons_of_mem _ he)
      obtain ⟨ls, taken', hrun⟩ := ih _ h.reclaim hrest
      exact ⟨_, taken', (Transition.Run.one hfirst).append hrun⟩

/-- The end of the call moves an index that the free list has nothing to do with. -/
theorem finish_others (s : UsedLoop κ) (taken : List UInt16) :
    Others i D ⟨s.table, s.mem, taken⟩ ⟨(s.finish i).table, (s.finish i).mem, taken⟩ where
  vring := ⟨s.uIdx, VringTable.setVring_self ..⟩
  translate _ := rfl
  desc := rfl
  taken := rfl

section Ring
variable {E : RingEnv} {s t : RingState κ μ}

/-- The part of a ring that its producer works on. -/
def RingState.producer (s : RingState κ μ) (taken : List UInt16) : ProdState κ :=
  ⟨s.prod, s.mem, taken⟩

/-- Each step of the two parties is some calls of the producer. -/
theorem producer_step (h : Tracked E s) {l : RingLabel} (hs : RingStep E s l t)
    (taken : List UInt16) :
    ∃ ls taken', Transition.Run (ProdStep E.prodSpace E.vIdx E.descLoc) (s.producer taken) ls
      (t.producer taken') := by
  cases hs with
  | put hput => exact ⟨_, _, .one (.put hput)⟩
  | reclaim hcall =>
      have hwalk := h.wired.walking h.counters.lastUsed_lt
      obtain ⟨-, -, hids, rfl⟩ := (processUsedVring_ret_iff hwalk).mp hcall
      obtain ⟨ls, taken', hrun⟩ := walk_frees _ taken hwalk hids
      exact ⟨_, taken', .snoc hrun (.other (finish_others _ taken'))⟩
  | enter _ _ => exact ⟨[], taken, .nil⟩
  | serve _ hturn =>
      obtain ⟨A, d, -, -, -, hframe, -, hmem, -, -⟩ := availTurn_some hturn
      refine ⟨_, taken, .one (.other ⟨⟨_, rfl⟩, fun _ => rfl, ?_, rfl⟩)⟩
      exact congrFun ((congrArg Mem.desc hmem).trans hframe.desc) E.descLoc
  | leave _ _ hleave =>
      obtain ⟨_, -, rfl⟩ := availLeave_ret hleave
      exact ⟨_, taken, .one (.other ⟨⟨_, rfl⟩, fun _ => rfl, rfl, rfl⟩)⟩

/-- **A run of the two parties is one of the producer's calls.** -/
theorem producer_run (h : Tracked E s) {ls : List RingLabel}
    (hrun : Transition.Run (RingStep E) s ls t) (taken : List UInt16) :
    ∃ ls' taken', Transition.Run (ProdStep E.prodSpace E.vIdx E.descLoc) (s.producer taken) ls'
      (t.producer taken') := by
  obtain ⟨ls', q, hrun', -, taken', rfl⟩ := hrun.simulate_rel
    (R := fun s q => Tracked E s ∧ ∃ taken, q = s.producer taken)
    (fun s l t q hs hstep => by
      obtain ⟨hs, taken, rfl⟩ := hs
      obtain ⟨ms, taken', hms⟩ := producer_step hs hstep taken
      exact ⟨ms, _, hms, tracked_step hs hstep, taken', rfl⟩) ⟨h, taken, rfl⟩
  exact ⟨ls', taken', hrun'⟩

/-- Packets stay in their buffers exactly as far as they are not too long, whatever the two
parties have done. -/
theorem ring_put_inside_iff {base : UInt64} (h : Tracked E s)
    (hw : ProdWired E.prodSpace E.vIdx base E.shm (s.producer [])) {ls : List RingLabel}
    (hrun : Transition.Run (RingStep E) s ls t) {buf : List UInt8} {p : VringTable κ} {m : Mem}
    (hput : putVring E.prodSpace t.prod E.vIdx buf t.mem = .ret (0, p, m)) :
    PutInside E.prodSpace E.vIdx E.descLoc (t.producer []) buf m ↔
      buf.length ≤ ethPacketSize := by
  obtain ⟨ls', taken', hrun'⟩ := producer_run h hrun []
  have hlast : ProdWired E.prodSpace E.vIdx base E.shm (t.producer taken') :=
    hrun'.preserves (fun _ _ _ h hs => h.step hs) hw
  exact ProdWired.inside_iff ⟨hlast.desc, hlast.addr, hlast.sees⟩ hput

end Ring

/-- A whole region is seen from its base address on. -/
theorem Placed.shows_region {base : RingIdx → UInt64} (h : Placed base) (i : RingIdx) :
    Shows (regionSpace base) (base i) vhostClientPageSize.toNat ⟨i, 0⟩ := by
  have hshow : Shows (regionSpace base) (base i + .ofNat 0) vhostClientPageSize.toNat ⟨i, 0⟩ :=
    h.shows i (Nat.le_of_eq (Nat.zero_add _))
  rwa [show base i + .ofNat 0 = base i by simp] at hshow

namespace Session
variable {S : Session} {sock : Int} {m : Mem} {w : World}

/-- The client sees its regions where it has mapped them. -/
theorem client_sees (S : Session) (i : RingIdx) :
    Sees (regionSpace S.clientBase) S.clientTable (S.clientBase i) i :=
  ⟨Nat.le_trans (S.client.fits i) (by decide), S.clientBase i, S.client.shows_region i,
    fun _ _ => rfl⟩

/-- The server sees them where its table translates to. -/
theorem server_sees (S : Session) (m : Mem) (i : RingIdx) :
    Sees (regionSpace S.serverBase) (S.serverTable m) (S.clientBase i) i :=
  ⟨Nat.le_trans (S.client.fits i) (by decide), S.serverBase i, S.server.shows_region i,
    fun _ hoff => S.mapGuestAddr_eq i hoff⟩

theorem layout_addr (S : Session) (m : Mem) (i : RingIdx) {d : Nat} (hd : d < vhostVringSize) :
    ((S.layout m).desc ⟨i, offsetofDesc⟩ d).addr = layoutAddr (S.clientBase i) d := by
  rw [S.layout_desc, newVringTable_apply (Nat.le_trans (S.client.fits i) (by decide)) _ hd]
  rfl

/-- **Packets the client sends stay in their buffers** exactly if they are not too long. -/
theorem tx_put_inside_iff (hopen : S.Opened sock m w) {ls : List RingLabel}
    {s : RingState Unit ServerContext}
    (hrun : Transition.Run (RingStep S.txEnv) (S.txState w) ls s) {buf : List UInt8}
    {p : VringTable Unit} {m' : Mem}
    (hput : putVring (regionSpace S.clientBase) s.prod txIdx buf s.mem = .ret (0, p, m')) :
    PutInside (regionSpace S.clientBase) txIdx ⟨txIdx, offsetofDesc⟩ (s.producer []) buf m' ↔
      buf.length ≤ ethPacketSize := by
  have hstart := tx_start hopen
  obtain ⟨-, hmem, -⟩ := hopen.eqs
  refine ring_put_inside_iff hstart.tracked
    ⟨hstart.wired.prodDesc, fun d hd => ?_, S.client_sees txIdx⟩ hrun hput
  show (w.mem.desc _ d).addr = _
  rw [hmem]
  exact S.layout_addr m txIdx hd

/-- **Packets the server sends stay in their buffers** exactly if they are not too long. -/
theorem rx_put_inside_iff (hopen : S.Opened sock m w) {ls : List RingLabel}
    {s : RingState ServerContext Unit}
    (hrun : Transition.Run (RingStep S.rxEnv) (S.rxState w) ls s) {buf : List UInt8}
    {p : VringTable ServerContext} {m' : Mem}
    (hput : putVring (regionSpace S.serverBase) s.prod rxIdx buf s.mem = .ret (0, p, m')) :
    PutInside (regionSpace S.serverBase) rxIdx ⟨rxIdx, offsetofDesc⟩ (s.producer []) buf m' ↔
      buf.length ≤ ethPacketSize := by
  have hstart := rx_start hopen
  obtain ⟨-, hmem, htable⟩ := hopen.eqs
  have hsees : Sees (regionSpace S.serverBase) w.server.table (S.clientBase rxIdx) rxIdx := by
    rw [htable]
    exact S.server_sees _ rxIdx
  refine ring_put_inside_iff hstart.tracked ⟨hstart.wired.prodDesc, fun d hd => ?_, hsees⟩ hrun hput
  show (w.mem.desc _ d).addr = _
  rw [hmem]
  exact S.layout_addr m rxIdx hd

end Session

end Vapp
