import Vapp.Session
import Vapp.RingRuns

/-! # The two rings of a session

On the TX ring the client produces and the server consumes; on the RX ring it is the
other way round.  After the set-up both rings are as `Start` asks.
-/
namespace Vapp

namespace Session
variable (S : Session)

/-- The address the descriptors of ring `i` give for buffer `d`. -/
def bufferAddr (i : RingIdx) (d : Nat) : UInt64 :=
  S.clientBase i + .ofNat (sizeofVhostVring + bufferSize * d)

/-- The TX ring, seen by the client as producer. -/
def txEnv : RingEnv where
  prodSpace := regionSpace S.clientBase
  consSpace := regionSpace S.serverBase
  vIdx := txIdx
  shm := txIdx
  bufOff := sizeofVhostVring
  addr := S.bufferAddr txIdx

/-- The RX ring, seen by the server as producer. -/
def rxEnv : RingEnv where
  prodSpace := regionSpace S.serverBase
  consSpace := regionSpace S.clientBase
  vIdx := rxIdx
  shm := rxIdx
  bufOff := sizeofVhostVring
  addr := S.bufferAddr rxIdx

/-- The TX ring of a client and a server `w`, before its first use. -/
def txState (w : World) : RingState Unit ServerContext where
  prod := S.clientTable
  cons := w.server.table
  mem := w.mem
  cursor := none
  sent := []
  outcomes := []
  published := 0
  seen := 0

/-- The RX ring of a client and a server `w`, before its first use. -/
def rxState (w : World) : RingState ServerContext Unit where
  prod := w.server.table
  cons := S.clientTable
  mem := w.mem
  cursor := none
  sent := []
  outcomes := []
  published := 0
  seen := 0

/-! ### The layout of both rings -/

variable {S} {m : Mem} {i : RingIdx}

theorem layout_desc (S : Session) (m : Mem) (i : RingIdx) :
    (S.layout m).desc ⟨i, offsetofDesc⟩ =
      newVringTable (S.clientBase i) (m.desc ⟨i, offsetofDesc⟩) := by
  rcases ringIdx_cases i with rfl | rfl
  · simp [layout, newVring, rxIdx, txIdx]
  · simp [layout, newVring, rxIdx, txIdx]

theorem layout_availIdx (S : Session) (m : Mem) (i : RingIdx) :
    ((S.layout m).avail ⟨i, offsetofAvail⟩).idx = 0 := by
  rcases ringIdx_cases i with rfl | rfl
  · simp [layout, newVring, rxIdx, txIdx]
  · simp [layout, newVring, rxIdx, txIdx]

theorem layout_usedIdx (S : Session) (m : Mem) (i : RingIdx) :
    ((S.layout m).used ⟨i, offsetofUsed⟩).idx = 0 := by
  rcases ringIdx_cases i with rfl | rfl
  · simp [layout, newVring, rxIdx, txIdx]
  · simp [layout, newVring, rxIdx, txIdx]

/-- The used entries keep what the shared object held. -/
theorem layout_usedRing (S : Session) (m : Mem) (i : RingIdx) :
    ((S.layout m).used ⟨i, offsetofUsed⟩).ring = (m.used ⟨i, offsetofUsed⟩).ring := by
  rcases ringIdx_cases i with rfl | rfl
  · simp [layout, newVring, rxIdx, txIdx]
  · simp [layout, newVring, rxIdx, txIdx]

theorem bufferAddr_toNat (S : Session) (i : RingIdx) {d : Nat} (hd : d < vhostVringSize) :
    (S.bufferAddr i d).toNat = (S.clientBase i).toNat + (sizeofVhostVring + bufferSize * d) := by
  refine S.client.toNat_add i ?_
  rw [sizeofVhostVring_eq, bufferSize_eq, vhostClientPageSize_toNat]
  rw [vhostVringSize_eq] at hd
  omega

/-- Every descriptor of the laid out ring. -/
theorem layout_desc_apply (S : Session) (m : Mem) (i : RingIdx) {d : Nat}
    (hd : d < vhostVringSize) :
    (S.layout m).desc ⟨i, offsetofDesc⟩ d =
      { addr := S.bufferAddr i d
        len := .ofNat bufferSize
        flags := virtioDescFWrite
        next := if d + 1 = vhostVringSize then vringIdxNone else .ofNat (d + 1) } := by
  have haddr : UInt64.ofNat (roundUp 8 ((S.clientBase i).toNat + sizeofVhostVring) +
      bufferSize * d) = S.bufferAddr i d := by
    have hfits := S.client.fits i
    have haligned := S.client.aligned i
    have htoNat := S.bufferAddr_toNat i hd
    rw [← UInt64.toNat_inj, htoNat, UInt64.toNat_ofNat', roundUp]
    rw [sizeofVhostVring_eq, bufferSize_eq]
    rw [vhostClientPageSize_toNat] at hfits
    rw [vhostVringSize_eq] at hd
    omega
  rw [S.layout_desc, newVringTable_apply (Nat.le_trans (S.client.fits i) (by decide)) _ hd, haddr]

/-- A buffer, with room for a header in front of the next one, lies in its region. -/
theorem buffer_fits {d n : Nat} (hd : d < vhostVringSize)
    (hn : n ≤ virtioNetHdrSize + bufferSize) :
    sizeofVhostVring + bufferSize * d + n ≤ vhostClientPageSize.toNat := by
  rw [sizeofVhostVring_eq, vhostClientPageSize_toNat]
  rw [bufferSize_eq, virtioNetHdrSize_eq] at *
  rw [vhostVringSize_eq] at hd
  omega

/-- The client sees the buffers where the descriptors say. -/
theorem client_shows (S : Session) (i : RingIdx) {d n : Nat} (hd : d < vhostVringSize)
    (hn : n ≤ virtioNetHdrSize + bufferSize) :
    Shows (regionSpace S.clientBase) (S.clientTable.translate (S.bufferAddr i d)) n
      ⟨i, sizeofVhostVring + bufferSize * d⟩ :=
  S.client.shows i (buffer_fits hd hn)

/-- The server sees them where its region table translates to. -/
theorem server_shows (S : Session) (m : Mem) (i : RingIdx) {d n : Nat} (hd : d < vhostVringSize)
    (hn : n ≤ virtioNetHdrSize + bufferSize) :
    Shows (regionSpace S.serverBase) ((S.serverTable m).translate (S.bufferAddr i d)) n
      ⟨i, sizeofVhostVring + bufferSize * d⟩ := by
  have htr : (S.serverTable m).translate (S.bufferAddr i d) =
      S.serverBase i + .ofNat (sizeofVhostVring + bufferSize * d) := by
    refine S.mapGuestAddr_eq i ?_
    have := buffer_fits (n := 1) hd (by decide)
    omega
  rw [htr]
  exact S.server.shows i (buffer_fits hd hn)

section Opened
variable {sock : Int} {w : World}

/-- The descriptors of either ring after the set-up. -/
theorem Opened.desc (h : S.Opened sock m w) (i : RingIdx) {d : Nat} (hd : d < vhostVringSize) :
    w.mem.desc ⟨i, offsetofDesc⟩ d =
      { addr := S.bufferAddr i d
        len := .ofNat bufferSize
        flags := virtioDescFWrite
        next := if d + 1 = vhostVringSize then vringIdxNone else .ofNat (d + 1) } := by
  obtain ⟨-, hmem, -⟩ := h.eqs
  rw [hmem]
  exact S.layout_desc_apply m i hd

theorem Opened.availIdx (h : S.Opened sock m w) (i : RingIdx) :
    (w.mem.avail ⟨i, offsetofAvail⟩).idx = 0 := by
  obtain ⟨-, hmem, -⟩ := h.eqs
  rw [hmem, S.layout_availIdx]

theorem Opened.usedIdx (h : S.Opened sock m w) (i : RingIdx) :
    (w.mem.used ⟨i, offsetofUsed⟩).idx = 0 := by
  obtain ⟨-, hmem, -⟩ := h.eqs
  rw [hmem, S.layout_usedIdx]

/-- Either ring of the server after the set-up. -/
theorem Opened.vring (h : S.Opened sock m w) (i : RingIdx) :
    w.server.table.vring i = S.serverVring i 0 := by
  obtain ⟨-, -, htable⟩ := h.eqs
  rw [htable]
  exact congrArg (S.serverVring i) (S.layout_usedIdx m i)

theorem Opened.handlers (h : S.Opened sock m w) : w.server.table.handlers = serverHandlers := by
  obtain ⟨-, -, htable⟩ := h.eqs
  rw [htable]
  rfl

/-- The server sees the buffers of either ring after the set-up. -/
theorem Opened.shows (h : S.Opened sock m w) (i : RingIdx) {d n : Nat} (hd : d < vhostVringSize)
    (hn : n ≤ virtioNetHdrSize + bufferSize) :
    Shows (regionSpace S.serverBase) (w.server.table.translate (S.bufferAddr i d)) n
      ⟨i, sizeofVhostVring + bufferSize * d⟩ := by
  obtain ⟨-, -, htable⟩ := h.eqs
  rw [htable]
  exact S.server_shows _ i hd hn

/-- **The TX ring after the set-up.** -/
theorem tx_start (h : S.Opened sock m w) : Start S.txEnv (S.txState w) := by
  have hcons : (S.txState w).cons.vring txIdx = S.serverVring txIdx 0 := h.vring txIdx
  have hwired : Wired S.txEnv (S.txState w) :=
    { prodDesc := S.client.resolve txIdx (by decide)
      prodAvail := S.client.resolve txIdx (by decide)
      prodUsed := S.client.resolve txIdx (by decide)
      prodNum := rfl
      consDesc := hcons ▸ S.server.resolve txIdx (by decide)
      consAvail := hcons ▸ S.server.resolve txIdx (by decide)
      consUsed := hcons ▸ S.server.resolve txIdx (by decide)
      consNum := hcons ▸ rfl
      addr := fun d hd => congrArg VringDesc.addr (h.desc txIdx hd)
      prodBuf := fun d hd => S.client_shows txIdx hd (Nat.le_refl _)
      consBuf := fun d hd => h.shows txIdx hd (Nat.le_add_left _ _)
      handler := by
        refine ⟨availHandlerServer, congrArg ProcessHandler.availHandler h.handlers, ?_⟩
        exact fun call hcall => decide_eq_true (Nat.le_trans hcall (by decide)) }
  exact
    { wired := hwired
      len := fun d hd => congrArg VringDesc.len (h.desc txIdx hd)
      next := fun d hd => congrArg VringDesc.next (h.desc txIdx hd)
      availIdx := h.availIdx txIdx
      usedIdx := h.usedIdx txIdx
      prodAvail := rfl
      prodUsed := rfl
      consAvail := congrArg Vring.lastAvailIdx hcons
      consUsed := congrArg Vring.lastUsedIdx hcons
      cursor := rfl
      sent := rfl
      outcomes := rfl
      published := rfl
      seen := rfl }

/-- **The RX ring after the set-up.** -/
theorem rx_start (h : S.Opened sock m w) : Start S.rxEnv (S.rxState w) := by
  have hprod : (S.rxState w).prod.vring rxIdx = S.serverVring rxIdx 0 := h.vring rxIdx
  have hwired : Wired S.rxEnv (S.rxState w) :=
    { prodDesc := hprod ▸ S.server.resolve rxIdx (by decide)
      prodAvail := hprod ▸ S.server.resolve rxIdx (by decide)
      prodUsed := hprod ▸ S.server.resolve rxIdx (by decide)
      prodNum := hprod ▸ rfl
      consDesc := S.client.resolve rxIdx (by decide)
      consAvail := S.client.resolve rxIdx (by decide)
      consUsed := S.client.resolve rxIdx (by decide)
      consNum := rfl
      addr := fun d hd => congrArg VringDesc.addr (h.desc rxIdx hd)
      prodBuf := fun d hd => h.shows rxIdx hd (Nat.le_refl _)
      consBuf := fun d hd => S.client_shows rxIdx hd (Nat.le_add_left _ _)
      handler := ⟨⟨fun _ => true, fun c _ => c⟩, rfl, fun _ _ => rfl⟩ }
  exact
    { wired := hwired
      len := fun d hd => congrArg VringDesc.len (h.desc rxIdx hd)
      next := fun d hd => congrArg VringDesc.next (h.desc rxIdx hd)
      availIdx := h.availIdx rxIdx
      usedIdx := h.usedIdx rxIdx
      prodAvail := congrArg Vring.lastAvailIdx hprod
      prodUsed := congrArg Vring.lastUsedIdx hprod
      consAvail := rfl
      consUsed := rfl
      cursor := rfl
      sent := rfl
      outcomes := rfl
      published := rfl
      seen := rfl }

end Opened

end Session

end Vapp
