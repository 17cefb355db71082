import Vapp.Client
import Vapp.Wire

/-! # `vhost_ioctl`

A request with its argument, the message and the descriptors it becomes, and the way of a
request from the client to the handler of the server and back.
-/
namespace Vapp

open LittleEndian

/-- `VhostUserMemory`. -/
structure VhostUserMemory where
  nregions : UInt32
  padding : UInt32
  regions : Nat → VhostUserMemoryRegion

/-- The bytes of a `VhostUserMemory`. -/
def VhostUserMemory.payload (memory : VhostUserMemory) : Payload :=
  (memoryPayload memory.nregions memory.regions).setU32 4 memory.padding

/-- `struct vhost_vring_file`. -/
structure VhostVringFile where
  index : UInt32
  fd : Int
  deriving DecidableEq, Repr

/-- A call of `vhost_ioctl`: the request with what its argument points to. -/
inductive Ioctl where
  | none
  | getFeatures
  | setFeatures (features : UInt64)
  | setOwner
  | resetOwner
  | setMemTable (memory : VhostUserMemory)
  | setLogBase (base : UInt64)
  | setLogFd (fd : Int)
  | setVringNum (state : VhostVringState)
  | setVringAddr (addr : VhostVringAddr)
  | setVringBase (state : VhostVringState)
  | getVringBase (state : VhostVringState)
  | setVringKick (file : VhostVringFile)
  | setVringCall (file : VhostVringFile)
  | setVringErr (file : VhostVringFile)

/-- What `vhost_ioctl` stores through its argument. -/
inductive Reply where
  | features (features : UInt64)
  | base (state : VhostVringState)
  deriving DecidableEq, Repr

namespace Ioctl

def request : Ioctl → VhostUserRequest
  | none => .none
  | getFeatures => .getFeatures
  | setFeatures _ => .setFeatures
  | setOwner => .setOwner
  | resetOwner => .resetOwner
  | setMemTable _ => .setMemTable
  | setLogBase _ => .setLogBase
  | setLogFd _ => .setLogFd
  | setVringNum _ => .setVringNum
  | setVringAddr _ => .setVringAddr
  | setVringBase _ => .setVringBase
  | getVringBase _ => .getVringBase
  | setVringKick _ => .setVringKick
  | setVringCall _ => .setVringCall
  | setVringErr _ => .setVringErr

/-- `msg.size`, the union and the descriptors after the `switch` of `vhost_ioctl`. -/
def body (shmFds : Nat → Int) : Ioctl → UInt32 × Payload × List Int
  | none | getFeatures | getVringBase _ | setOwner | resetOwner => (0, zeroPayload, [])
  | setFeatures u | setLogBase u => (8, zeroPayload.setU64 0 u, [])
  | setMemTable memory =>
      (8 + 32 * memory.nregions, memory.payload,
        (List.range memory.nregions.toNat).map shmFds)
  | setLogFd fd => (0, zeroPayload, [fd])
  | setVringNum state | setVringBase state => (8, zeroPayload.setState state, [])
  | setVringAddr addr => (40, zeroPayload.setAddr addr, [])
  | setVringKick file | setVringCall file | setVringErr file =>
      (8, zeroPayload.setU64 0 file.index.toUInt64, if 0 < file.fd then [file.fd] else [])

/-- The regions of a memory table are as many as the array holds. -/
def TableFits : Ioctl → Prop
  | setMemTable memory => memory.nregions.toNat ≤ vhostMemoryMaxNregions
  | _ => True

instance (c : Ioctl) : Decidable c.TableFits := by
  cases c <;> unfold TableFits <;> infer_instance

/-- The first half of `vhost_ioctl`: the message and the descriptors it sends.  The loop
over the regions runs past `fds` if there are more than the array holds. -/
def send (shmFds : Nat → Int) (c : Ioctl) : Run (VhostUserMsg × List Int) := do
  Outcome.require c.TableFits (.subscript vhostMemoryMaxNregions)
  let (size, payload, fds) := c.body shmFds
  return (⟨c.request.word, vhostUserVersion, size, payload⟩, fds)

/-- `vhost_ioctl` up to the reply: what it appends to the stream, or nothing where it
returns -1 because the message could not be sent. -/
def emit (answer : SendAnswer) (shmFds : Nat → Int) (c : Ioctl) :
    Run (Option (List WireByte)) := do
  let (msg, fds) ← c.send shmFds
  let (r, stream) := vhostUserSendFds answer msg fds
  if r < 0 then
    return Option.none
  else
    return some stream

/-- `need_reply`. -/
def needReply : Ioctl → Bool
  | getFeatures | getVringBase _ => true
  | _ => false

/-- `VHOST_USER_VERSION_MASK`. -/
def versionMask : UInt32 := 0x3

/-- `VHOST_USER_REPLY_MASK`. -/
def replyMask : UInt32 := 0x4

/-- The member of the union that is stored through the argument. -/
def replyOf (payload : Payload) : Ioctl → Option Reply
  | getFeatures => some (.features payload.u64)
  | getVringBase _ => some (.base payload.state)
  | _ => Option.none

/-- The end of `vhost_ioctl`, for the message that came back. -/
def store (c : Ioctl) (msg : VhostUserMsg) : Run (Option Reply) := do
  Outcome.require (msg.request = c.request.word) .assertion
  Outcome.require (msg.flags &&& versionMask = vhostUserVersion) .assertion
  return c.replyOf msg.payload

end Ioctl

/-- The message with the version and the reply bit in its flags. -/
def VhostUserMsg.asReply (msg : VhostUserMsg) : VhostUserMsg :=
  { msg with
    flags := (msg.flags &&& ~~~Ioctl.versionMask ||| vhostUserVersion) ||| Ioctl.replyMask }

/-- The end of `receive_sock_server`: the reply that is sent back where `in_handler`
returned `r`. -/
def replyMsg (r : Int) (msg : ServerMsg) : List WireByte :=
  if 0 < r then onWire msg.msg.asReply [] else []

/-- A call of `vhost_ioctl` and the call of `receive_sock_server` that handles it, where
the message is sent and every read is whole: what is stored through the argument, and the new
state of the server.  `old` is what the stack of the server holds where the message is received. -/
def exchange (shmFds : Nat → Int) (maps : Nat → Option MapResult) (w : World) (c : Ioctl)
    (old : ServerMsg) : Run (Option Reply × World) := do
  let (m, fds) ← c.send shmFds
  let (r, _) ← receiveSockServer .whole old (onWire m fds)
  match r with
  | .message msg => do
      let (r, msg, w) ← (inMsgServer maps w msg).out
      if c.needReply then
        let got ← vhostUserRecvFds .whole 0 { m with request := 0, flags := 0 } (fun _ => 0)
          (replyMsg r msg)
        let reply ← c.store got.msg
        return (reply, w)
      else
        return (none, w)
  | _ => return (none, w)

/-! ### What is sent -/

namespace Ioctl
variable (shmFds : Nat → Int) (c : Ioctl)

/-- The message of a call. -/
def msg : VhostUserMsg :=
  ⟨c.request.word, vhostUserVersion, (c.body shmFds).1, (c.body shmFds).2.1⟩

/-- The descriptors of a call. -/
def fds : List Int := (c.body shmFds).2.2

variable {shmFds c}

theorem send_eq (h : c.TableFits) : c.send shmFds = .ret (c.msg shmFds, c.fds shmFds) := by
  rw [send, Outcome.require_pos h, Outcome.ret_bind]
  rfl

/-- A message that is refused is not on the stream. -/
theorem emit_error (h : c.TableFits) : c.emit .error shmFds = .ret Option.none := by
  rw [emit, send_eq h, Outcome.ret_bind]
  rfl

theorem emit_sent (h : c.TableFits) :
    c.emit .sent shmFds = .ret (some (onWire (c.msg shmFds) (c.fds shmFds))) := by
  rw [emit, send_eq h, Outcome.ret_bind]
  exact if_neg (Int.not_lt.mpr (Int.natCast_nonneg _))

/-- What is on the stream when the call goes on. -/
theorem emit_ret {answer : SendAnswer} {stream : List WireByte}
    (h : c.emit answer shmFds = .ret (some stream)) :
    c.TableFits ∧ stream = onWire (c.msg shmFds) (c.fds shmFds) := by
  obtain ⟨_, hsend, -⟩ := Outcome.bind_eq_ret.mp h
  obtain ⟨_, hreq, -⟩ := Outcome.bind_eq_ret.mp hsend
  have hfits : c.TableFits := Outcome.require_eq_ret.mp hreq
  cases answer with
  | error => cases (emit_error hfits).symm.trans h
  | sent =>
      cases (emit_sent hfits).symm.trans h
      exact ⟨hfits, rfl⟩

/-- The number of bytes of a memory table. -/
theorem tableSize_toNat {n : UInt32} (h : n.toNat ≤ vhostMemoryMaxNregions) :
    (8 + 32 * n).toNat = 8 + 32 * n.toNat := by
  have h8 : vhostMemoryMaxNregions = 8 := rfl
  rw [UInt32.toNat_add, UInt32.toNat_mul]
  have h1 : (8 : UInt32).toNat = 8 := rfl
  have h2 : (32 : UInt32).toNat = 32 := rfl
  rw [h1, h2]
  omega

/-- **A message that is sent fits the buffers of the receiver.** -/
theorem msg_size_le (h : c.TableFits) : (c.msg shmFds).size.toNat ≤ payloadSize := by
  cases c with
  | setMemTable memory =>
      have hn : memory.nregions.toNat ≤ vhostMemoryMaxNregions := h
      refine (Nat.le_of_eq (tableSize_toNat hn)).trans ?_
      unfold payloadSize
      omega
  | setVringAddr _ => exact (by decide : 40 ≤ payloadSize)
  | setFeatures _ | setLogBase _ | setVringNum _ | setVringBase _ | setVringKick _
  | setVringCall _ | setVringErr _ => exact (by decide : 8 ≤ payloadSize)
  | none | getFeatures | getVringBase _ | setOwner | resetOwner | setLogFd _ =>
      exact Nat.zero_le _

theorem fds_length_le (h : c.TableFits) : (c.fds shmFds).length ≤ vhostMemoryMaxNregions := by
  have hfile : ∀ fd : Int, (if 0 < fd then [fd] else []).length ≤ vhostMemoryMaxNregions := by
    intro fd
    split
    · exact (by decide : 1 ≤ vhostMemoryMaxNregions)
    · exact Nat.zero_le _
  cases c with
  | setMemTable memory =>
      have hlen : ((List.range memory.nregions.toNat).map shmFds).length =
          memory.nregions.toNat := by rw [List.length_map, List.length_range]
      exact Nat.le_trans (Nat.le_of_eq hlen) h
  | setLogFd fd => exact (by decide : 1 ≤ vhostMemoryMaxNregions)
  | setVringKick file => exact hfile file.fd
  | setVringCall file => exact hfile file.fd
  | setVringErr file => exact hfile file.fd
  | _ => exact Nat.zero_le _

/-- **The server receives the message of a call with its descriptors**; the bytes behind
the payload are what the stack held. -/
theorem receive_send (shmFds : Nat → Int) (h : c.TableFits) (old : ServerMsg)
    (rest : List WireByte) :
    receiveSockServer .whole old (onWire (c.msg shmFds) (c.fds shmFds) ++ rest) =
      .ret (.message (arrived (c.msg shmFds) (c.fds shmFds) old), rest) :=
  receiveSockServer_whole (msg_size_le h) (fds_length_le h) (by decide) (msg_size_le h) old

/-- The message of a call, with nothing left over. -/
def serverMsg (shmFds : Nat → Int) (c : Ioctl) : ServerMsg :=
  vhostIoctl c.request (c.body shmFds).1 (c.body shmFds).2.1 (c.body shmFds).2.2

end Ioctl

/-! ### The calls of `init_vhost_client` -/

/-- The first eight bytes of a memory table. -/
theorem memoryPayload_apply {nregions : UInt32} {regions : Nat → VhostUserMemoryRegion} {k : Nat}
    (hk : k < 8) : memoryPayload nregions regions k = zeroPayload.setU32 0 nregions k := by
  have hfold : ∀ n, ((List.range n).foldl (fun p i => p.setRegion i (regions i))
      (zeroPayload.setU32 0 nregions)) k = zeroPayload.setU32 0 nregions k := by
    intro n
    induction n with
    | zero => rfl
    | succ n ih =>
        rw [List.range_succ, List.foldl_append, List.foldl_cons, List.foldl_nil, ← ih]
        simp (disch := omega) only [Payload.setRegion, Payload.setU64, write_apply]
  exact hfold _

/-- A table whose padding is zero, as the client allocates it. -/
theorem VhostUserMemory.payload_of_padding {memory : VhostUserMemory} (h : memory.padding = 0) :
    memory.payload = memoryPayload memory.nregions memory.regions := by
  funext k
  rw [payload, h, Payload.setU32]
  by_cases hk : 4 ≤ k ∧ k < 8
  · have hzero : memoryPayload memory.nregions memory.regions k = 0 := by
      rw [memoryPayload_apply hk.2, Payload.setU32, write_apply _ 4 (by omega)]
      rfl
    have hread : ∀ f : Payload, write f 4 4 0 k = 0 := by
      intro f
      obtain rfl | rfl | rfl | rfl : k = 4 ∨ k = 5 ∨ k = 6 ∨ k = 7 := by omega
      all_goals simp [write, Function.update]
    rw [hzero]
    exact hread _
  · exact write_apply _ 4 (by omega)

/-- The calls that `set_host_vring` makes for the ring at `base`. -/
def setHostVringCalls (index : UInt32) (base : UInt64) (kickfd callfd : Int) : List Ioctl :=
  [.setVringNum ⟨index, .ofNat vhostVringSize⟩, .setVringBase ⟨index, 0⟩,
    .setVringKick ⟨index, kickfd⟩, .setVringCall ⟨index, callfd⟩,
    .setVringAddr (vringAddr index base)]

theorem setHostVring_eq (shmFds : Nat → Int) (index : UInt32) (base : UInt64)
    (kickfd callfd : Int) :
    (setHostVringCalls index base kickfd callfd).map (Ioctl.serverMsg shmFds) =
      setHostVring index base kickfd callfd := rfl

/-- **`VHOST_USER_SET_MEM_TABLE`** sends the message of the client's memory table. -/
theorem memTableMsg_eq (regions : List VhostUserMemoryRegion) (shmFds : Nat → Int)
    (h : regions.length < 2 ^ 32) :
    (Ioctl.setMemTable ⟨.ofNat regions.length, 0,
        fun i => (regions[i]?).getD ⟨0, 0, 0, 0⟩⟩).serverMsg shmFds =
      memTableMsg regions ((List.range regions.length).map shmFds) := by
  have hn : (UInt32.ofNat regions.length).toNat = regions.length := UInt32.toNat_ofNat_of_lt' h
  have hpayload : VhostUserMemory.payload
      ⟨.ofNat regions.length, 0, fun i => (regions[i]?).getD ⟨0, 0, 0, 0⟩⟩ =
      memoryPayload (.ofNat regions.length) fun i => (regions[i]?).getD ⟨0, 0, 0, 0⟩ :=
    VhostUserMemory.payload_of_padding rfl
  rw [Ioctl.serverMsg, Ioctl.body, hpayload, hn]
  rfl

end Vapp
