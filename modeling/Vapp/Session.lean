import Vapp.Client
import Vapp.VringSpec

/-! # A session

A client lays out its two rings, each in a shared object of its own, and sends the
messages of `init_vhost_client` to a fresh server.  Where the two processes map the
objects is up to the kernel: `Placed` says what is known of it.
-/
namespace Vapp

/-- The addresses `mmap` returned for the two regions: page-aligned, not null, below the
sign bit and apart from each other. -/
structure Placed (base : RingIdx → UInt64) : Prop where
  pos : ∀ i, base i ≠ 0
  aligned : ∀ i, (base i).toNat % 4096 = 0
  fits : ∀ i, (base i).toNat + vhostClientPageSize.toNat ≤ 2 ^ 63
  apart : (base rxIdx).toNat + vhostClientPageSize.toNat ≤ (base txIdx).toNat ∨
    (base txIdx).toNat + vhostClientPageSize.toNat ≤ (base rxIdx).toNat

/-- The mappings of a process that has both regions. -/
def regionSpace (base : RingIdx → UInt64) : AddrSpace :=
  [⟨base txIdx, vhostClientPageSize, txIdx⟩, ⟨base rxIdx, vhostClientPageSize, rxIdx⟩]

theorem ringIdx_cases (i : RingIdx) : i = rxIdx ∨ i = txIdx := by
  revert i
  decide

namespace Placed
variable {base : RingIdx → UInt64} (h : Placed base)
include h

/-- Adding an offset inside the region does not wrap. -/
theorem toNat_add (i : RingIdx) {off : Nat} (hoff : off ≤ vhostClientPageSize.toNat) :
    (base i + .ofNat off).toNat = (base i).toNat + off := by
  have hfits := h.fits i
  rw [vhostClientPageSize_toNat] at hfits hoff
  exact toNat_add_ofNat (by omega)

/-- The bytes of region `i` are seen from its base address on. -/
theorem shows (i : RingIdx) {off n : Nat} (hn : off + n ≤ vhostClientPageSize.toNat) :
    Shows (regionSpace base) (base i + .ofNat off) n ⟨i, off⟩ := by
  have hwrap : ∀ j, (base j).toNat + vhostClientPageSize.toNat ≤ 2 ^ 64 := fun j =>
    Nat.le_trans (h.fits j) (by decide)
  rcases ringIdx_cases i with rfl | rfl
  · have hsecond : Shows [⟨base rxIdx, vhostClientPageSize, rxIdx⟩] (base rxIdx + .ofNat off) n
        ⟨rxIdx, off⟩ :=
      shows_of_mapping (h.toNat_add rxIdx (by omega)) hn (hwrap rxIdx)
    intro k hk
    have hres := hsecond k hk
    -- the other mapping does not cover the address
    have hadd : (base rxIdx + .ofNat off + .ofNat k).toNat = (base rxIdx).toNat + off + k := by
      have hfits := h.fits rxIdx
      rw [UInt64.toNat_add, h.toNat_add rxIdx (by omega), UInt64.toNat_ofNat']
      rw [vhostClientPageSize_toNat] at *
      omega
    have hmiss : Mapping.resolve ⟨base txIdx, vhostClientPageSize, txIdx⟩
        (base rxIdx + .ofNat off + .ofNat k) = none := by
      rw [Mapping.resolve, if_neg]
      rintro ⟨hle : base txIdx ≤ _, hlt : _ < (base txIdx).toNat + vhostClientPageSize.toNat⟩
      rw [UInt64.le_iff_toNat_le] at hle
      rw [hadd] at hle hlt
      rcases h.apart with hapart | hapart <;> omega
    rw [regionSpace, AddrSpace.resolve, List.findSome?_cons, hmiss]
    exact hres
  · exact shows_of_mapping (h.toNat_add txIdx (by omega)) hn (hwrap txIdx)

theorem resolve (i : RingIdx) {off : Nat} (hoff : off < vhostClientPageSize.toNat) :
    (regionSpace base).resolve (base i + .ofNat off) = some ⟨i, off⟩ :=
  (h.shows (n := 1) i hoff).head

/-- No region is at the null pointer. -/
theorem resolve_zero : (regionSpace base).resolve 0 = none := by
  have hmiss : ∀ i : RingIdx, Mapping.resolve ⟨base i, vhostClientPageSize, i⟩ 0 = none := by
    intro i
    refine if_neg ?_
    rintro ⟨hle : base i ≤ 0, -⟩
    exact h.pos i (UInt64.le_zero_iff.mp hle)
  rw [regionSpace, AddrSpace.resolve, List.findSome?_cons, hmiss txIdx]
  simp only [List.findSome?_cons, hmiss rxIdx, List.findSome?_nil]

/-- Only the region itself covers an address of it. -/
theorem covers_iff (i j : RingIdx) {off : Nat} (hoff : off < vhostClientPageSize.toNat) :
    (base j ≤ base i + .ofNat off ∧
      base i + .ofNat off < base j + vhostClientPageSize) ↔ j = i := by
  have hend : (base j + vhostClientPageSize).toNat =
      (base j).toNat + vhostClientPageSize.toNat := by
    have := h.toNat_add j (Nat.le_refl _)
    rwa [UInt64.ofNat_toNat] at this
  rw [UInt64.le_iff_toNat_le, UInt64.lt_iff_toNat_lt, hend, h.toNat_add i (by omega)]
  constructor
  · rintro ⟨hle, hlt⟩
    have hapart := h.apart
    rcases ringIdx_cases i with rfl | rfl <;> rcases ringIdx_cases j with rfl | rfl
    · rfl
    · omega
    · omega
    · rfl
  · rintro rfl
    omega

end Placed

/-- A client and a server that are to set up two rings. -/
structure Session where
  clientBase : RingIdx → UInt64
  serverBase : RingIdx → UInt64
  kickfd : RingIdx → Int
  callfd : RingIdx → Int
  shmFd : RingIdx → Int
  client : Placed clientBase
  server : Placed serverBase
  kickfd_pos : ∀ i, 0 < kickfd i
  callfd_pos : ∀ i, 0 < callfd i
  shmFd_pos : ∀ i, 0 < shmFd i

namespace Session
variable (S : Session)

/-- The mapping the server gets for the region with the given index. -/
def maps (idx : Nat) : Option MapResult :=
  if h : idx < vhostClientVringNum then
    some ⟨S.serverBase ⟨idx, h⟩, idx, S.server.pos _⟩
  else
    none

/-- The memory table of the client. -/
def memTable : ServerMsg :=
  memTableMsg [clientRegion (S.clientBase rxIdx), clientRegion (S.clientBase txIdx)]
    [S.shmFd rxIdx, S.shmFd txIdx]

/-- The messages of `init_vhost_client`, in order. -/
def setupMsgs : List ServerMsg :=
  [vhostIoctl .setOwner 0 zeroPayload [],
    vhostIoctl .getFeatures 0 zeroPayload [],
    S.memTable] ++
  setHostVring 0 (S.clientBase rxIdx) (S.kickfd rxIdx) (S.callfd rxIdx) ++
  setHostVring 1 (S.clientBase txIdx) (S.kickfd txIdx) (S.callfd txIdx)

/-- The memory after `new_vring` for both rings; before, the objects held `m`. -/
def layout (m : Mem) : Mem :=
  newVring (S.clientBase txIdx) txIdx (newVring (S.clientBase rxIdx) rxIdx m)

/-- The `VringTable` of the client. -/
def clientTable : VringTable Unit := initClientTable S.clientBase S.kickfd S.callfd

/-- The table of regions that the server installs. -/
def memory : VhostServerMemory where
  nregions := 2
  regions := fun k =>
    if h : k < vhostClientVringNum then
      ⟨S.clientBase ⟨k, h⟩, vhostClientPageSize, S.clientBase ⟨k, h⟩, S.serverBase ⟨k, h⟩⟩
    else
      ⟨0, 0, 0, 0⟩

/-- A ring of the server after the set-up. -/
def serverVring (i : RingIdx) (usedIdx : UInt16) : Vring where
  kickfd := S.kickfd i
  callfd := S.callfd i
  desc := S.serverBase i + .ofNat offsetofDesc
  avail := S.serverBase i + .ofNat offsetofAvail
  used := S.serverBase i + .ofNat offsetofUsed
  num := .ofNat vhostVringSize
  lastAvailIdx := 0
  lastUsedIdx := usedIdx

/-- The `VringTable` of the server after the set-up, where the objects hold `m`. -/
def serverTable (m : Mem) : VringTable ServerContext where
  context := ⟨S.memory, fun _ => 0, 0⟩
  handlers := serverHandlers
  vring i := S.serverVring i (m.used ⟨i, offsetofUsed⟩).idx

end Session

/-- A session at addresses that `mmap` may return. -/
def Session.demo : Session where
  clientBase i := if i = rxIdx then 0x7f2000000000 else 0x7f2010000000
  serverBase i := if i = rxIdx then 0x7f4010000000 else 0x7f4000000000
  kickfd i := 5 + 2 * i
  callfd i := 6 + 2 * i
  shmFd i := 3 + i
  client := ⟨by decide, by decide, by decide, by decide⟩
  server := ⟨by decide, by decide, by decide, by decide⟩
  kickfd_pos := by decide
  callfd_pos := by decide
  shmFd_pos := by decide

/-- The server handles a list of messages, one after the other. -/
def serveMsgs (maps : Nat → Option MapResult) (w : World) : List ServerMsg → Call World
  | [] => pure w
  | msg :: msgs => do
      let (_, _, w) ← inMsgServer maps w msg
      serveMsgs maps w msgs

theorem serveMsgs_append (maps : Nat → Option MapResult) {w w' : World} {as : List ServerMsg}
    (bs : List ServerMsg) (h : (serveMsgs maps w as).out = .ret w') :
    (serveMsgs maps w (as ++ bs)).out = (serveMsgs maps w' bs).out := by
  induction as generalizing w with
  | nil =>
      cases h
      rfl
  | cons a as ih =>
      obtain ⟨⟨r, msg, w1⟩, h1, h2⟩ := Traced.bind_out_eq_ret.mp h
      rw [List.cons_append, serveMsgs, Traced.bind_of_ret h1]
      exact ih h2

/-- A message whose handler returned. -/
theorem serveMsgs_cons (maps : Nat → Option MapResult) {w w' : World} {msg msg' : ServerMsg}
    {r : Int} (msgs : List ServerMsg) (h : (inMsgServer maps w msg).out = .ret (r, msg', w')) :
    (serveMsgs maps w (msg :: msgs)).out = (serveMsgs maps w' msgs).out := by
  rw [serveMsgs, Traced.bind_of_ret h]

/-! ### The translation of addresses -/

section Translation
variable (S : Session)

theorem Session.memory_regions (j : RingIdx) : S.memory.regions j =
    ⟨S.clientBase j, vhostClientPageSize, S.clientBase j, S.serverBase j⟩ := dif_pos j.isLt

/-- Both translations take an address of the client to the server's address of the same
byte. -/
theorem Session.mapAddr_eq {base : VhostServerMemoryRegion → UInt64}
    (hbase : ∀ j : RingIdx, base (S.memory.regions j) = S.clientBase j) (i : RingIdx) {off : Nat}
    (hoff : off < vhostClientPageSize.toNat) :
    S.memory.mapAddr base (S.clientBase i + .ofNat off) = S.serverBase i + .ofNat off := by
  have hcovers : ∀ j : RingIdx,
      decide (base (S.memory.regions j) ≤ S.clientBase i + .ofNat off ∧
        S.clientBase i + .ofNat off <
          base (S.memory.regions j) + (S.memory.regions j).memorySize) = decide (j = i) := by
    intro j
    rw [hbase, S.memory_regions]
    exact decide_eq_decide.mpr (S.client.covers_iff i j hoff)
  have hfind : (List.range S.memory.nregions.toNat).find? (fun k =>
      decide (base (S.memory.regions k) ≤ S.clientBase i + .ofNat off ∧
        S.clientBase i + .ofNat off <
          base (S.memory.regions k) + (S.memory.regions k).memorySize)) = some i.val := by
    have h0 := hcovers rxIdx
    have h1 := hcovers txIdx
    rw [show List.range S.memory.nregions.toNat = [rxIdx.val, txIdx.val] from rfl]
    rcases ringIdx_cases i with rfl | rfl
    · rw [List.find?_cons, h0, decide_eq_true rfl]
    · rw [List.find?_cons, h0, decide_eq_false (by decide), List.find?_cons, h1,
        decide_eq_true rfl]
  rw [VhostServerMemory.mapAddr, hfind]
  show (S.memory.regions i).mmapAddr + (S.clientBase i + .ofNat off) -
    base (S.memory.regions i) = _
  rw [hbase, S.memory_regions, UInt64.add_comm (S.clientBase i), ← UInt64.add_assoc,
    UInt64.add_sub_cancel]

theorem Session.mapUserAddr_eq (i : RingIdx) {off : Nat}
    (hoff : off < vhostClientPageSize.toNat) :
    mapUserAddr S.memory (S.clientBase i + .ofNat off) = S.serverBase i + .ofNat off :=
  S.mapAddr_eq (fun j => by rw [S.memory_regions]) i hoff

theorem Session.mapGuestAddr_eq (i : RingIdx) {off : Nat}
    (hoff : off < vhostClientPageSize.toNat) :
    mapGuestAddr S.memory (S.clientBase i + .ofNat off) = S.serverBase i + .ofNat off :=
  S.mapAddr_eq (fun j => by rw [S.memory_regions]) i hoff

end Translation

/-! ### The set-up -/

section Messages
variable (maps : Nat → Option MapResult) (w : World) (i : RingIdx)

theorem ringIndex_ofNat : ringIndex (.ofNat i) = .ret i := by
  revert i
  decide

theorem kickIndex_ofNat : kickIndex (UInt32.ofNat i).toUInt64 = .ret (i, true) := by
  revert i
  decide

/-- The message `msg` applied `f` to ring `i` and changed no other ring. -/
structure SetsRing (maps : Nat → Option MapResult) (w : World) (msg : ServerMsg) (i : RingIdx)
    (f : Vring → Vring) (w' : World) : Prop where
  out : ∃ msg', (inMsgServer maps w msg).out = .ret (0, msg', w')
  space : w'.space = w.space
  mem : w'.mem = w.mem
  table : w'.server.table = w.server.table.setVring i (f (w.server.table.vring i))

theorem setsRing_num (num : UInt32) :
    ∃ w', SetsRing maps w (stateMsg .setVringNum ⟨.ofNat i, num⟩) i
      (fun v => { v with num := num }) w' := by
  refine ⟨w.setVring i { w.vring i with num := num },
    ⟨stateMsg .setVringNum ⟨.ofNat i, num⟩, ?_⟩, rfl, rfl, rfl⟩
  show (setVringNum w _).out = _
  simp only [setVringNum, stateMsg, vhostIoctl, Payload.state_setState, ringIndex_ofNat,
    Traced.lift_ret_bind, Traced.act_bind]
  rfl

theorem setsRing_base (num : UInt32) :
    ∃ w', SetsRing maps w (stateMsg .setVringBase ⟨.ofNat i, num⟩) i
      (fun v => { v with lastAvailIdx := num.toUInt16 }) w' := by
  refine ⟨w.setVring i { w.vring i with lastAvailIdx := num.toUInt16 },
    ⟨stateMsg .setVringBase ⟨.ofNat i, num⟩, ?_⟩, rfl, rfl, rfl⟩
  show (setVringBase w _).out = _
  simp only [setVringBase, stateMsg, vhostIoctl, Payload.state_setState, ringIndex_ofNat,
    Traced.lift_ret_bind]
  rfl

theorem u64_fileMsg (request : VhostUserRequest) (index : UInt32) (fd : Int) :
    (fileMsg request index fd).msg.payload.u64 = index.toUInt64 :=
  Payload.u64At_setU64 0 _

theorem fds_fileMsg (request : VhostUserRequest) (index : UInt32) {fd : Int} (hfd : 0 < fd) :
    (fileMsg request index fd).fdNum = 1 ∧ (fileMsg request index fd).fds 0 = fd := by
  rw [fileMsg, if_pos hfd]
  exact ⟨rfl, rfl⟩

theorem setsRing_kick {fd : Int} (hfd : 0 < fd) :
    ∃ w', SetsRing maps w (fileMsg .setVringKick (.ofNat i) fd) i
      (fun v => { v with kickfd := fd }) w' := by
  obtain ⟨hnum, hfd0⟩ := fds_fileMsg .setVringKick (.ofNat i) hfd
  have hcall : inMsgServer maps w (fileMsg .setVringKick (.ofNat i) fd) =
      setVringKick w (fileMsg .setVringKick (.ofNat i) fd) := rfl
  rw [setVringKick, u64_fileMsg, kickIndex_ofNat] at hcall
  simp only [Traced.lift_ret_bind, if_true, Outcome.require_pos hnum, hfd0] at hcall
  split at hcall
  · exact ⟨_, ⟨_, congrArg Traced.out hcall⟩, rfl, rfl, rfl⟩
  · exact ⟨_, ⟨_, congrArg Traced.out hcall⟩, rfl, rfl, rfl⟩

theorem setsRing_call {fd : Int} (hfd : 0 < fd) :
    ∃ w', SetsRing maps w (fileMsg .setVringCall (.ofNat i) fd) i
      (fun v => { v with callfd := fd }) w' := by
  obtain ⟨hnum, hfd0⟩ := fds_fileMsg .setVringCall (.ofNat i) hfd
  have hcall : inMsgServer maps w (fileMsg .setVringCall (.ofNat i) fd) =
      setVringCall w (fileMsg .setVringCall (.ofNat i) fd) := rfl
  rw [setVringCall, u64_fileMsg, kickIndex_ofNat] at hcall
  simp only [Traced.lift_ret_bind, if_true, Outcome.require_pos hnum, hfd0] at hcall
  exact ⟨_, ⟨_, congrArg Traced.out hcall⟩, rfl, rfl, rfl⟩

theorem setsRing_addr {a : VhostVringAddr} (hindex : a.index = .ofNat i) {U : Loc}
    (hU : w.space.resolve (mapUserAddr w.context.memory a.usedUserAddr) = some U) :
    ∃ w', SetsRing maps w (addrMsg a) i
      (fun v => { v with
        desc := mapUserAddr w.context.memory a.descUserAddr
        avail := mapUserAddr w.context.memory a.availUserAddr
        used := mapUserAddr w.context.memory a.usedUserAddr
        lastUsedIdx := (w.mem.used U).idx }) w' := by
  refine ⟨w.setVring i { w.vring i with
      desc := mapUserAddr w.context.memory a.descUserAddr
      avail := mapUserAddr w.context.memory a.availUserAddr
      used := mapUserAddr w.context.memory a.usedUserAddr
      lastUsedIdx := (w.mem.used U).idx }, ⟨addrMsg a, ?_⟩, rfl, rfl, rfl⟩
  show (setVringAddr w _).out = _
  simp only [setVringAddr, addrMsg, vhostIoctl, Payload.addr_setAddr, hindex, ringIndex_ofNat,
    Traced.lift_ret_bind, Traced.act_bind, loadUsedIdx_of_resolve hU]
  rfl

end Messages

/-- **The messages of `set_host_vring`** set up one ring of the server and leave the
other, the memory and the region table alone. -/
theorem serveMsgs_setHostVring (maps : Nat → Option MapResult) (w : World) (i : RingIdx)
    {base : UInt64} {kickfd callfd : Int} {U : Loc} (hk : 0 < kickfd) (hc : 0 < callfd)
    (hU : w.space.resolve (mapUserAddr w.context.memory (base + .ofNat offsetofUsed)) = some U) :
    ∃ w', (serveMsgs maps w (setHostVring (.ofNat i) base kickfd callfd)).out = .ret w' ∧
      w'.space = w.space ∧ w'.mem = w.mem ∧
      w'.server.table = w.server.table.setVring i
        { kickfd := kickfd
          callfd := callfd
          desc := mapUserAddr w.context.memory (base + .ofNat offsetofDesc)
          avail := mapUserAddr w.context.memory (base + .ofNat offsetofAvail)
          used := mapUserAddr w.context.memory (base + .ofNat offsetofUsed)
          num := .ofNat vhostVringSize
          lastAvailIdx := 0
          lastUsedIdx := (w.mem.used U).idx } := by
  obtain ⟨w1, ⟨_, h1⟩, hs1, hm1, ht1⟩ := setsRing_num maps w i (.ofNat vhostVringSize)
  obtain ⟨w2, ⟨_, h2⟩, hs2, hm2, ht2⟩ := setsRing_base maps w1 i 0
  obtain ⟨w3, ⟨_, h3⟩, hs3, hm3, ht3⟩ := setsRing_kick maps w2 i hk
  obtain ⟨w4, ⟨_, h4⟩, hs4, hm4, ht4⟩ := setsRing_call maps w3 i hc
  have hctx : w4.context = w.context := by
    simp only [World.context, ht4, ht3, ht2, ht1, VringTable.setVring_context]
  have hspace : w4.space = w.space := hs4.trans (hs3.trans (hs2.trans hs1))
  have hmem : w4.mem = w.mem := hm4.trans (hm3.trans (hm2.trans hm1))
  obtain ⟨w5, ⟨_, h5⟩, hs5, hm5, ht5⟩ := setsRing_addr maps w4 i
    (a := vringAddr (.ofNat i) base) (U := U) rfl (by rw [hspace, hctx]; exact hU)
  rw [setHostVring, serveMsgs_cons maps _ h1, serveMsgs_cons maps _ h2, serveMsgs_cons maps _ h3,
    serveMsgs_cons maps _ h4, serveMsgs_cons maps _ h5]
  refine ⟨w5, rfl, hs5.trans hspace, hm5.trans hmem, ?_⟩
  rw [ht5, hctx, hmem]
  simp only [ht4, ht3, ht2, ht1, VringTable.setVring_self, VringTable.setVring_setVring]
  rfl

/-- A turn of `_set_mem_table` for a region that comes with a descriptor. -/
theorem setMemTableTurn_of_fd {msg : ServerMsg} {mapped : MapResult} {idx : Nat} {w : World}
    (hidx : idx < vhostMemoryMaxNregions) (hfd : 0 < msg.fds idx) (hnum : idx < msg.fdNum) :
    setMemTableTurn msg (some mapped) idx w =
      .ret { w.setContext { w.context with memory :=
          { nregions := w.context.memory.nregions + 1
            regions := Function.update w.context.memory.regions idx
              ⟨(msg.msg.payload.region idx).guestPhysAddr,
                (msg.msg.payload.region idx).memorySize,
                (msg.msg.payload.region idx).userspaceAddr,
                mapped.addr + (msg.msg.payload.region idx).mmapOffset⟩ } } with
        space :=
          ⟨mapped.addr, (msg.msg.payload.region idx).memorySize, mapped.shm⟩ :: w.space } := by
  simp only [setMemTableTurn, Outcome.require_pos hidx, Outcome.ret_bind, if_pos hfd,
    Outcome.require_pos hnum]
  rfl

section Handshake
variable (S : Session)

/-- The server before the first message: a fresh process that shares no memory yet. -/
def Session.serverWorld (sock : Int) (m : Mem) : World where
  server := newVhostServer sock true
  space := []
  mem := m

theorem Session.region_memTable (i : RingIdx) :
    S.memTable.msg.payload.region i = clientRegion (S.clientBase i) := by
  refine (region_foldl _ _ _ (Nat.lt_of_lt_of_le i.isLt (by decide))).trans ?_
  rcases ringIdx_cases i with rfl | rfl <;> rfl

theorem Session.fds_memTable (i : RingIdx) :
    0 < S.memTable.fds i ∧ i.val < S.memTable.fdNum := by
  rcases ringIdx_cases i with rfl | rfl
  · exact ⟨S.shmFd_pos rxIdx, Nat.succ_pos 1⟩
  · exact ⟨S.shmFd_pos txIdx, Nat.lt_succ_self 1⟩

theorem Session.maps_eq (i : RingIdx) :
    S.maps i = some ⟨S.serverBase i, i, S.server.pos i⟩ := dif_pos i.isLt

/-- The turn of `_set_mem_table` for one of the regions. -/
theorem Session.setMemTableTurn_eq (i : RingIdx) (w : World) :
    setMemTableTurn S.memTable (S.maps i) i w =
      .ret { w.setContext { w.context with memory :=
          { nregions := w.context.memory.nregions + 1
            regions := Function.update w.context.memory.regions i
              ⟨S.clientBase i, vhostClientPageSize, S.clientBase i, S.serverBase i⟩ } } with
        space := ⟨S.serverBase i, vhostClientPageSize, i⟩ :: w.space } := by
  rw [S.maps_eq, setMemTableTurn_of_fd (Nat.lt_of_lt_of_le i.isLt (by decide))
    (S.fds_memTable i).1 (S.fds_memTable i).2, S.region_memTable]
  simp only [clientRegion, UInt64.add_zero]

/-- The region table of a server that has not got one yet. -/
def noRegions : VhostServerMemory := ⟨0, fun _ => ⟨0, 0, 0, 0⟩⟩

/-- **`VHOST_USER_SET_MEM_TABLE`** installs both regions and their mappings in a server that
has none. -/
theorem Session.inMsgServer_memTable_of_fresh {w : World} (hspace : w.space = [])
    (hfresh : w.context.memory = noRegions) :
    ∃ w' msg, (inMsgServer S.maps w S.memTable).out = .ret (0, msg, w') ∧
      w'.space = regionSpace S.serverBase ∧ w'.mem = w.mem ∧
      w'.server.table =
        { w.server.table with context := { w.server.table.context with memory := S.memory } } := by
  have hcall : inMsgServer S.maps w S.memTable = setMemTable S.maps w S.memTable := rfl
  have hn : S.memTable.msg.payload.nregions.toNat = 2 := by
    rw [show S.memTable.msg.payload.nregions = _ from nregions_foldl _ _ _,
      Payload.nregions, Payload.u32At_setU32]
    rfl
  have hloop : ∀ w, setMemTableLoop S.memTable S.maps 2 0 w = _ := fun w => by
    show (setMemTableTurn S.memTable (S.maps rxIdx) rxIdx w >>= fun w =>
      setMemTableTurn S.memTable (S.maps txIdx) txIdx w >>= fun w => .ret w) = _
    rw [S.setMemTableTurn_eq, Outcome.ret_bind, S.setMemTableTurn_eq, Outcome.ret_bind]
  rw [hcall, setMemTable, hn, hloop]
  refine ⟨_, _, rfl, ?_, rfl, ?_⟩
  · show [_, _] ++ w.space = _
    rw [hspace]
    rfl
  have hmemory : S.memory =
      { nregions := 0 + 1 + 1
        regions := Function.update (Function.update w.context.memory.regions rxIdx.val
          ⟨S.clientBase rxIdx, vhostClientPageSize, S.clientBase rxIdx, S.serverBase rxIdx⟩)
          txIdx.val
          ⟨S.clientBase txIdx, vhostClientPageSize, S.clientBase txIdx, S.serverBase txIdx⟩ } := by
    rw [hfresh]
    refine congrArg (VhostServerMemory.mk 2) (funext fun k => ?_)
    rcases Nat.lt_or_ge k vhostClientVringNum with hk | hk
    · have := S.memory_regions ⟨k, hk⟩
      rcases ringIdx_cases ⟨k, hk⟩ with heq | heq
      · rw [heq] at this
        obtain rfl : k = 0 := congrArg Fin.val heq
        exact this
      · rw [heq] at this
        obtain rfl : k = 1 := congrArg Fin.val heq
        exact this
    · have h0 : k ≠ rxIdx.val := fun h => absurd (h ▸ hk) (by decide)
      have h1 : k ≠ txIdx.val := fun h => absurd (h ▸ hk) (by decide)
      rw [Function.update_of_ne h1, Function.update_of_ne h0]
      exact dif_neg (Nat.not_lt.mpr hk)
  rw [hmemory]
  rfl

/-- In a process that has just been started. -/
theorem Session.inMsgServer_memTable (sock : Int) (m : Mem) :
    ∃ w msg, (inMsgServer S.maps (serverWorld sock m) S.memTable).out = .ret (0, msg, w) ∧
      w.space = regionSpace S.serverBase ∧ w.mem = m ∧
      w.server.table =
        { (newVhostServer sock true).table with
          context := { (newVhostServer sock true).table.context with memory := S.memory } } :=
  S.inMsgServer_memTable_of_fresh (w := serverWorld sock m) rfl rfl

/-- The messages for one ring, once the memory table is installed. -/
theorem Session.serveMsgs_ring {w : World} {m : Mem} (i : RingIdx)
    (hspace : w.space = regionSpace S.serverBase) (hmem : w.mem = m)
    (hmemory : w.context.memory = S.memory) :
    ∃ w', (serveMsgs S.maps w
        (setHostVring (.ofNat i) (S.clientBase i) (S.kickfd i) (S.callfd i))).out = .ret w' ∧
      w'.space = w.space ∧ w'.mem = w.mem ∧
      w'.server.table =
        w.server.table.setVring i (S.serverVring i (m.used ⟨i, offsetofUsed⟩).idx) := by
  have hmap : ∀ off, off < vhostClientPageSize.toNat →
      mapUserAddr w.context.memory (S.clientBase i + .ofNat off) = S.serverBase i + .ofNat off :=
    fun off hoff => by rw [hmemory, S.mapUserAddr_eq i hoff]
  have hU : w.space.resolve (mapUserAddr w.context.memory
      (S.clientBase i + .ofNat offsetofUsed)) = some ⟨i, offsetofUsed⟩ := by
    rw [hmap _ (by decide), hspace]
    exact S.server.resolve i (by decide)
  obtain ⟨w', hout, hs, hm, ht⟩ :=
    serveMsgs_setHostVring S.maps w i (S.kickfd_pos i) (S.callfd_pos i) hU
  rw [hmap _ (by decide), hmap _ (by decide), hmap _ (by decide), hmem] at ht
  exact ⟨w', hout, hs, hm, ht⟩

/-- **What the set-up messages leave behind** at the server. -/
theorem Session.handshake (sock : Int) (m : Mem) :
    ∃ w, (serveMsgs S.maps (serverWorld sock m) S.setupMsgs).out = .ret w ∧
      w.space = regionSpace S.serverBase ∧ w.mem = m ∧ w.server.table = S.serverTable m := by
  obtain ⟨w0, _, h0, hs0, hm0, ht0⟩ := S.inMsgServer_memTable sock m
  obtain ⟨w1, h1, hs1, hm1, ht1⟩ := S.serveMsgs_ring (w := w0) (m := m) rxIdx hs0 hm0
    (by rw [World.context, ht0])
  obtain ⟨w2, h2, hs2, hm2, ht2⟩ := S.serveMsgs_ring (w := w1) (m := m) txIdx (hs1.trans hs0)
    (hm1.trans hm0) (by rw [World.context, ht1, VringTable.setVring_context, ht0])
  have hfirst : (serveMsgs S.maps (serverWorld sock m)
      [vhostIoctl .setOwner 0 zeroPayload [], vhostIoctl .getFeatures 0 zeroPayload [],
        S.memTable]).out = .ret w0 := by
    have howner : (inMsgServer S.maps (serverWorld sock m)
        (vhostIoctl .setOwner 0 zeroPayload [])).out = .ret (0, _, serverWorld sock m) := rfl
    have hfeatures : (inMsgServer S.maps (serverWorld sock m)
        (vhostIoctl .getFeatures 0 zeroPayload [])).out = .ret (1, _, serverWorld sock m) := rfl
    rw [serveMsgs_cons S.maps _ howner, serveMsgs_cons S.maps _ hfeatures,
      serveMsgs_cons S.maps _ h0]
    rfl
  refine ⟨w2, ?_, (hs2.trans hs1).trans hs0, (hm2.trans hm1).trans hm0, ?_⟩
  · rw [setupMsgs, List.append_assoc, serveMsgs_append S.maps _ hfirst]
    exact (serveMsgs_append S.maps _ h1).trans h2
  · rw [ht2, ht1, ht0]
    simp only [VringTable.setVring, serverTable, newVhostServer]
    refine congrArg (VringTable.mk _ _) (funext fun i => ?_)
    rcases ringIdx_cases i with rfl | rfl
    · rw [Function.update_of_ne (by decide), Function.update_self]
    · rw [Function.update_self]

/-- The server has handled all messages of the set-up, over rings that the client laid
out where the shared objects held `m`. -/
def Session.Opened (sock : Int) (m : Mem) (w : World) : Prop :=
  (serveMsgs S.maps (serverWorld sock (S.layout m)) S.setupMsgs).out = .ret w

theorem Session.opened_exists (sock : Int) (m : Mem) : ∃ w, S.Opened sock m w := by
  obtain ⟨w, hw, -⟩ := S.handshake sock (S.layout m)
  exact ⟨w, hw⟩

theorem Session.Opened.eqs {S : Session} {sock : Int} {m : Mem} {w : World}
    (h : S.Opened sock m w) : w.space = regionSpace S.serverBase ∧ w.mem = S.layout m ∧
      w.server.table = S.serverTable (S.layout m) := by
  obtain ⟨w', hw', hs, hm, ht⟩ := S.handshake sock (S.layout m)
  rw [Opened, hw'] at h
  cases h
  exact ⟨hs, hm, ht⟩

end Handshake

end Vapp
