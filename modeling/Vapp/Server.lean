import Vapp.ProcessAvail
import Vapp.Messages
import Vapp.FdList
import Vapp.Library.TraceRun

/-! # The vhost server

`vhost_server.c`: the handlers of the messages, the kick handler and `poll_server`, over
the state of the server process and the memory it sees.  The calls leave a trace of what
matters for its rings: when a memory table or the addresses of a ring are installed, and
when a ring is used.
-/
namespace Vapp

/-! ### The state of the server -/

/-- `VhostServerMemoryRegion`. -/
structure VhostServerMemoryRegion where
  guestPhysAddr : UInt64
  memorySize : UInt64
  userspaceAddr : UInt64
  mmapAddr : UInt64
  deriving DecidableEq, Repr

/-- `VhostServerMemory`. -/
structure VhostServerMemory where
  nregions : UInt32
  regions : Nat → VhostServerMemoryRegion

/-- The loop of `_map_guest_addr` and `_map_user_addr`: the first region that covers the
address, by the base address `base` selects; `0` if there is none. -/
def VhostServerMemory.mapAddr (base : VhostServerMemoryRegion → UInt64)
    (memory : VhostServerMemory) (addr : UInt64) : UInt64 :=
  let covers (i : Nat) : Bool :=
    let r := memory.regions i
    base r ≤ addr ∧ addr < base r + r.memorySize
  match (List.range memory.nregions.toNat).find? covers with
  | some i => (memory.regions i).mmapAddr + addr - base (memory.regions i)
  | none => 0

/-- `_map_guest_addr`. -/
def mapGuestAddr (memory : VhostServerMemory) (addr : UInt64) : UInt64 :=
  memory.mapAddr (·.guestPhysAddr) addr

/-- `_map_user_addr`. -/
def mapUserAddr (memory : VhostServerMemory) (addr : UInt64) : UInt64 :=
  memory.mapAddr (·.userspaceAddr) addr

/-- The part of `VhostServer` that its callbacks work on. -/
structure ServerContext where
  memory : VhostServerMemory
  buffer : Nat → UInt8
  bufferSize : UInt32

/-- The packet in the private buffer. -/
def ServerContext.packet (c : ServerContext) : List UInt8 :=
  (List.range c.bufferSize.toNat).map c.buffer

/-- `avail_handler_server`: copy the packet to the private buffer. -/
def availHandlerServer : AvailHandler ServerContext where
  accepts call := call.size.toNat ≤ bufferSize
  consume c call :=
    { c with
      buffer := fun i => if i < call.size.toNat then (call.buf[i]?).getD 0 else c.buffer i
      bufferSize := call.size.toUInt32 }

/-- The callbacks of the server. -/
def serverHandlers : ProcessHandler ServerContext where
  availHandler := some availHandlerServer
  mapHandler := some fun c addr => mapGuestAddr c.memory addr
  map_consume := by
    rintro h hh f hf ctx call a
    cases hh
    cases hf
    rfl

/-- `VhostServer`, with the parts of its `UnSock` that are used. -/
structure VhostServer where
  sock : Int
  fdList : FdList
  table : VringTable ServerContext
  isPolling : Bool

/-- The server process and the memory it shares. -/
structure World where
  server : VhostServer
  space : AddrSpace
  mem : Mem

namespace World
variable (w : World)

def vring (i : RingIdx) : Vring := w.server.table.vring i
def context : ServerContext := w.server.table.context

def setTable (t : VringTable ServerContext) : World :=
  { w with server := { w.server with table := t } }

def setVring (i : RingIdx) (v : Vring) : World := w.setTable (w.server.table.setVring i v)

def setContext (c : ServerContext) : World := w.setTable { w.server.table with context := c }

def setFdList (l : FdList) : World := { w with server := { w.server with fdList := l } }

@[simp] theorem setVring_vring_self (i : RingIdx) (v : Vring) : (w.setVring i v).vring i = v := by
  simp [setVring, setTable, vring]

theorem setVring_vring_of_ne {i j : RingIdx} (v : Vring) (h : j ≠ i) :
    (w.setVring i v).vring j = w.vring j :=
  VringTable.setVring_of_ne _ v h

@[simp] theorem setContext_vring (c : ServerContext) (i : RingIdx) :
    (w.setContext c).vring i = w.vring i := rfl

@[simp] theorem setFdList_vring (l : FdList) (i : RingIdx) :
    (w.setFdList l).vring i = w.vring i := rfl

end World

/-- What the server does to its rings. -/
inductive Act where
  /-- a memory table was installed -/
  | tableSet
  /-- `_set_vring_num` stored a size -/
  | numSet (i : RingIdx) (num : UInt32)
  /-- `_set_vring_addr` stored the translated addresses -/
  | addrSet (i : RingIdx) (desc avail used : UInt64)
  /-- `_set_vring_addr` reads `used->idx` -/
  | usedRead (i : RingIdx) (used : UInt64)
  /-- `process_avail_vring` or `put_vring` is entered -/
  | ringRun (i : RingIdx) (v : Vring)
  deriving DecidableEq, Repr

/-- A call of the server. -/
abbrev Call (α : Type) := Traced Act Fault α

/-! ### The message handlers -/

/-- A mapping that `map_shm` returned, of the shared object behind the descriptor. -/
structure MapResult where
  addr : UInt64
  shm : Nat
  ne_zero : addr ≠ 0

/-- `int idx = index; assert(idx < VHOST_CLIENT_VRING_NUM)` and the subscript of `vring`:
an index from `2 ^ 31` on is a negative `int` and passes the assertion. -/
def ringIndex (index : UInt32) : Run RingIdx :=
  if h : index.toNat < vhostClientVringNum then
    .ret ⟨index.toNat, h⟩
  else if index.toNat < 2 ^ 31 then
    .fault .assertion
  else
    .fault (.subscript index.toInt32.toInt)

/-- `_get_features`. -/
def getFeatures (w : World) (msg : ServerMsg) : Call (Int × ServerMsg × World) :=
  let payload := msg.msg.payload.setU64 0 0
  pure (1, { msg with msg := { msg.msg with payload := payload, size := 8 } }, w)

/-- A handler that does nothing. -/
def ignoreMsg (w : World) (msg : ServerMsg) : Call (Int × ServerMsg × World) :=
  pure (0, msg, w)

/-- `_set_features`. -/
def setFeatures : World → ServerMsg → Call (Int × ServerMsg × World) := ignoreMsg

/-- `_set_owner`. -/
def setOwner : World → ServerMsg → Call (Int × ServerMsg × World) := ignoreMsg

/-- `_reset_owner`. -/
def resetOwner : World → ServerMsg → Call (Int × ServerMsg × World) := ignoreMsg

/-- One turn of the loop of `_set_mem_table`; `mapped` is what `map_shm` returns in it. -/
def setMemTableTurn (msg : ServerMsg) (mapped : Option MapResult) (idx : Nat) (w : World) :
    Run World := do
  Outcome.require (idx < vhostMemoryMaxNregions) (.subscript idx)
  if 0 < msg.fds idx then
    Outcome.require (idx < msg.fdNum) .assertion
    let r := msg.msg.payload.region idx
    let start := (mapped.map (·.addr)).getD 0
    let region : VhostServerMemoryRegion :=
      { guestPhysAddr := r.guestPhysAddr
        memorySize := r.memorySize
        userspaceAddr := r.userspaceAddr
        mmapAddr := start + r.mmapOffset }
    let memory := w.context.memory
    let w := w.setContext { w.context with memory :=
      { nregions := memory.nregions + 1, regions := Function.update memory.regions idx region } }
    return { w with space :=
      (mapped.map fun m => ⟨m.addr, r.memorySize, m.shm⟩).toList ++ w.space }
  else
    return w

/-- The loop of `_set_mem_table` from index `idx` on. -/
def setMemTableLoop (msg : ServerMsg) (maps : Nat → Option MapResult) :
    (todo idx : Nat) → World → Run World
  | 0, _, w => .ret w
  | todo + 1, idx, w => do
      let w ← setMemTableTurn msg (maps idx) idx w
      setMemTableLoop msg maps todo (idx + 1) w

/-- `_set_mem_table`.  The mappings of an earlier table stay. -/
def setMemTable (maps : Nat → Option MapResult) (w : World) (msg : ServerMsg) :
    Call (Int × ServerMsg × World) := do
  let memory := w.context.memory
  let w := w.setContext { w.context with memory := { memory with nregions := 0 } }
  let w ← Traced.lift (setMemTableLoop msg maps msg.msg.payload.nregions.toNat 0 w)
  Traced.act .tableSet
  return (0, msg, w)

/-- `_set_vring_num`. -/
def setVringNum (w : World) (msg : ServerMsg) : Call (Int × ServerMsg × World) := do
  let state := msg.msg.payload.state
  let i ← Traced.lift (ringIndex state.index)
  Traced.act (.numSet i state.num)
  return (0, msg, w.setVring i { w.vring i with num := state.num })

/-- `_set_vring_addr`. -/
def setVringAddr (w : World) (msg : ServerMsg) : Call (Int × ServerMsg × World) := do
  let addr := msg.msg.payload.addr
  let i ← Traced.lift (ringIndex addr.index)
  let memory := w.context.memory
  let desc := mapUserAddr memory addr.descUserAddr
  let avail := mapUserAddr memory addr.availUserAddr
  let used := mapUserAddr memory addr.usedUserAddr
  Traced.act (.addrSet i desc avail used)
  Traced.act (.usedRead i used)
  let idx ← Traced.lift (loadUsedIdx w.space w.mem used)
  return (0, msg, w.setVring i
    { w.vring i with desc := desc, avail := avail, used := used, lastUsedIdx := idx })

/-- `_set_vring_base`. -/
def setVringBase (w : World) (msg : ServerMsg) : Call (Int × ServerMsg × World) := do
  let state := msg.msg.payload.state
  let i ← Traced.lift (ringIndex state.index)
  return (0, msg, w.setVring i { w.vring i with lastAvailIdx := state.num.toUInt16 })

/-- `_get_vring_base`. -/
def getVringBase (w : World) (msg : ServerMsg) : Call (Int × ServerMsg × World) := do
  let state := msg.msg.payload.state
  let i ← Traced.lift (ringIndex state.index)
  let payload := msg.msg.payload.setU32 4 (w.vring i).lastAvailIdx.toUInt32
  return (1, { msg with msg := { msg.msg with payload := payload, size := 8 } }, w)

/-- The index and the validity of the descriptor in a `u64` payload. -/
def kickIndex (u : UInt64) : Run (RingIdx × Bool) := do
  let idx := (u &&& vhostUserVringIdxMask).toNat
  let validfd := u &&& vhostUserVringNofdMask == 0
  if h : idx < vhostClientVringNum then
    return (⟨idx, h⟩, validfd)
  else
    .fault .assertion

/-- `_set_vring_kick`. -/
def setVringKick (w : World) (msg : ServerMsg) : Call (Int × ServerMsg × World) := do
  let (i, validfd) ← Traced.lift (kickIndex msg.msg.payload.u64)
  if validfd then
    let _ ← Traced.lift (Outcome.require (msg.fdNum = 1) .assertion)
    let w := w.setVring i { w.vring i with kickfd := msg.fds 0 }
    let w := if i = txIdx then
      w.setFdList (w.server.fdList.addFdList (msg.fds 0) .kickServer).2
    else
      w
    return (0, msg, { w with server := { w.server with isPolling := false } })
  else
    return (0, msg, { w with server := { w.server with isPolling := true } })

/-- `_set_log_base`. -/
def setLogBase : World → ServerMsg → Call (Int × ServerMsg × World) := ignoreMsg

/-- `_set_log_fd`. -/
def setLogFd : World → ServerMsg → Call (Int × ServerMsg × World) := ignoreMsg

/-- `_set_vring_err`. -/
def setVringErr : World → ServerMsg → Call (Int × ServerMsg × World) := ignoreMsg

/-- `_set_vring_call`. -/
def setVringCall (w : World) (msg : ServerMsg) : Call (Int × ServerMsg × World) := do
  let (i, validfd) ← Traced.lift (kickIndex msg.msg.payload.u64)
  if validfd then
    let _ ← Traced.lift (Outcome.require (msg.fdNum = 1) .assertion)
    return (0, msg, w.setVring i { w.vring i with callfd := msg.fds 0 })
  else
    return (0, msg, w)

/-- The table `msg_handlers`; it has no handler for `VHOST_USER_NONE`, which `in_msg_server`
rules out. -/
def msgHandler (maps : Nat → Option MapResult) :
    VhostUserRequest → World → ServerMsg → Call (Int × ServerMsg × World)
  | .none => ignoreMsg
  | .getFeatures => getFeatures
  | .setFeatures => setFeatures
  | .setOwner => setOwner
  | .resetOwner => resetOwner
  | .setMemTable => setMemTable maps
  | .setLogBase => setLogBase
  | .setLogFd => setLogFd
  | .setVringNum => setVringNum
  | .setVringAddr => setVringAddr
  | .setVringBase => setVringBase
  | .getVringBase => getVringBase
  | .setVringKick => setVringKick
  | .setVringCall => setVringCall
  | .setVringErr => setVringErr

/-- `in_msg_server`: the result, the message as the handler left it and the new state. -/
def inMsgServer (maps : Nat → Option MapResult) (w : World) (msg : ServerMsg) :
    Call (Int × ServerMsg × World) :=
  match VhostUserRequest.ofWord msg.msg.request with
  | none | some .none => Traced.lift (.fault .assertion)
  | some r => msgHandler maps r w msg

/-! ### Kicks and polls -/

/-- `_poll_avail_vring`; the statistics are left out. -/
def pollAvailVring (fuel : Nat) (w : World) (i : RingIdx) : Call World := do
  -- if vring is already set, process the vring
  if (w.vring i).desc ≠ 0 then
    Traced.act (.ringRun i (w.vring i))
    let s ← Traced.lift (processAvailVring w.space fuel w.server.table i w.mem)
    return { w.setTable s.table with mem := s.mem }
  else
    return w

/-- `_kick_server` on a registered descriptor, where `read` returned `r`. -/
def kickServer (fuel : Nat) (w : World) (kickfd r : Int) : Call World :=
  if r < 0 then
    pure w
  else if r = 0 then
    pure (w.setFdList (w.server.fdList.delFdList kickfd).2)
  else
    pollAvailVring fuel w txIdx

/-- The part of `poll_server` that processes the TX ring. -/
def pollTx (fuel : Nat) (w : World) : Call World :=
  if w.server.isPolling then pollAvailVring fuel w txIdx else pure w

/-- The part of `poll_server` that forwards the packet in the private buffer.  The result
of `put_vring` is not looked at. -/
def pollRx (w : World) : Call World := do
  if w.context.bufferSize ≠ 0 then
    Traced.act (.ringRun rxIdx (w.vring rxIdx))
    let (_, t, m) ← Traced.lift (putVring w.space w.server.table rxIdx w.context.packet w.mem)
    let w := { w.setTable t with mem := m }
    return w.setContext { w.context with bufferSize := 0 }
  else
    return w

/-- `poll_server`. -/
def pollServer (fuel : Nat) (w : World) : Call World := do
  if (w.vring rxIdx).desc ≠ 0 then
    let w ← pollTx fuel w
    pollRx w
  else
    return w

/-! ### The events of the process -/

/-- `new_vhost_server`, as `main` starts it; `sock` is the socket it opened. -/
def newVhostServer (sock : Int) (isListen : Bool) : VhostServer where
  sock := sock
  fdList :=
    if isListen then
      (initFdList.addFdList sock .acceptSockServer).2
    else
      -- both branches of `init_unsock` add the socket
      ((initFdList.addFdList sock .receiveSockServer).2.addFdList sock .receiveSockServer).2
  table :=
    { context := ⟨⟨0, fun _ => ⟨0, 0, 0, 0⟩⟩, fun _ => 0, 0⟩
      handlers := serverHandlers
      vring := fun _ => initVring }
  isPolling := false

/-- What the process is woken up for, with the answers of the kernel; `peer` is a write of
the other process to the shared memory. -/
inductive Event where
  | accept (sock : Int)
  | message (sock : Int) (msg : ServerMsg) (maps : Nat → Option MapResult)
  | hangup (sock : Int)
  | kick (fd r : Int)
  | poll
  | peer (mem : Mem)

/-- One event.  The functions that are registered for a descriptor run only while it is
in the list. -/
def exec (fuel : Nat) (w : World) : Event → Call World
  | .accept sock =>
      if w.server.fdList.Registered w.server.sock .acceptSockServer then
        pure (w.setFdList (w.server.fdList.addFdList sock .receiveSockServer).2)
      else
        pure w
  | .message sock msg maps =>
      if w.server.fdList.Registered sock .receiveSockServer then do
        let (_, _, w) ← inMsgServer maps w msg
        return w
      else
        pure w
  | .hangup sock =>
      if w.server.fdList.Registered sock .receiveSockServer then
        pure (w.setFdList (w.server.fdList.delFdList sock).2)
      else
        pure w
  | .kick fd r =>
      if w.server.fdList.Registered fd .kickServer then kickServer fuel w fd r else pure w
  | .poll => pollServer fuel w
  | .peer mem => pure { w with mem := mem }

/-- A sequence of events. -/
def execAll (fuel : Nat) : World → List Event → Call World := Traced.runAll (exec fuel)

end Vapp
