import Vapp.Server

/-! # The vhost client

The parts of `vhost_client.c` and of the functions it calls that set up the rings: the
messages of `set_host_vring`, as `vhost_ioctl` builds them, and the `VringTable` of the
client.
-/
namespace Vapp

/-- `VHOST_USER_VERSION`. -/
def vhostUserVersion : UInt32 := 1

/-- The message that `vhost_ioctl` sends, as the server receives it. -/
def vhostIoctl (request : VhostUserRequest) (size : UInt32) (payload : Payload)
    (fds : List Int) : ServerMsg where
  msg := ⟨request.word, vhostUserVersion, size, payload⟩
  fdNum := fds.length
  fds i := (fds[i]?).getD 0

/-- The union after `memset`. -/
def zeroPayload : Payload := fun _ => 0

/-- The bytes of a `VhostUserMemory`. -/
def memoryPayload (nregions : UInt32) (regions : Nat → VhostUserMemoryRegion) : Payload :=
  (List.range vhostMemoryMaxNregions).foldl (fun p i => p.setRegion i (regions i))
    (zeroPayload.setU32 0 nregions)

theorem region_foldl (regions : Nat → VhostUserMemoryRegion) (p : Payload) (n : Nat) {i : Nat}
    (hi : i < n) :
    ((List.range n).foldl (fun p i => p.setRegion i (regions i)) p).region i = regions i := by
  induction n with
  | zero => exact absurd hi (Nat.not_lt_zero i)
  | succ n ih =>
      rw [List.range_succ, List.foldl_append, List.foldl_cons, List.foldl_nil]
      rcases Nat.lt_succ_iff_lt_or_eq.mp hi with hlt | heq
      · rw [Payload.region_setRegion_of_ne _ (by omega), ih hlt]
      · rw [heq, Payload.region_setRegion]

theorem nregions_foldl (regions : Nat → VhostUserMemoryRegion) (p : Payload) (n : Nat) :
    ((List.range n).foldl (fun p i => p.setRegion i (regions i)) p).nregions = p.nregions := by
  induction n with
  | zero => rfl
  | succ n ih =>
      rw [List.range_succ, List.foldl_append, List.foldl_cons, List.foldl_nil,
        Payload.nregions_setRegion, ih]

/-- `VHOST_USER_SET_MEM_TABLE`; `msg.size` counts the regions that are sent. -/
def memTableMsg (regions : List VhostUserMemoryRegion) (shmFds : List Int) : ServerMsg :=
  vhostIoctl .setMemTable (8 + 32 * .ofNat regions.length)
    (memoryPayload (.ofNat regions.length) fun i => (regions[i]?).getD ⟨0, 0, 0, 0⟩) shmFds

/-- `VHOST_USER_SET_VRING_NUM` and `VHOST_USER_SET_VRING_BASE`. -/
def stateMsg (request : VhostUserRequest) (state : VhostVringState) : ServerMsg :=
  vhostIoctl request 8 (zeroPayload.setState state) []

/-- `VHOST_USER_SET_VRING_ADDR`. -/
def addrMsg (addr : VhostVringAddr) : ServerMsg :=
  vhostIoctl .setVringAddr 40 (zeroPayload.setAddr addr) []

/-- `VHOST_USER_SET_VRING_KICK` and `VHOST_USER_SET_VRING_CALL`: a descriptor goes along
if it is positive. -/
def fileMsg (request : VhostUserRequest) (index : UInt32) (fd : Int) : ServerMsg :=
  vhostIoctl request 8 (zeroPayload.setU64 0 index.toUInt64) (if 0 < fd then [fd] else [])

/-- The pointers into the `struct vhost_vring` at `base`. -/
def vringAddr (index : UInt32) (base : UInt64) : VhostVringAddr where
  index := index
  flags := 0
  descUserAddr := base + .ofNat offsetofDesc
  usedUserAddr := base + .ofNat offsetofUsed
  availUserAddr := base + .ofNat offsetofAvail
  logGuestAddr := 0

/-- The messages of `set_host_vring` for the ring at `base`. -/
def setHostVring (index : UInt32) (base : UInt64) (kickfd callfd : Int) : List ServerMsg :=
  [stateMsg .setVringNum ⟨index, .ofNat vhostVringSize⟩,
    stateMsg .setVringBase ⟨index, 0⟩,
    fileMsg .setVringKick index kickfd,
    fileMsg .setVringCall index callfd,
    addrMsg (vringAddr index base)]

/-! ### The tables of the client -/

/-- `avail_handler_client` does nothing, and the client has no `map_handler`. -/
def clientHandlers : ProcessHandler Unit where
  availHandler := some ⟨fun _ => true, fun c _ => c⟩
  mapHandler := none
  map_consume := by
    rintro h - f hf
    cases hf

/-- A ring as `init_vhost_client` initialises it. -/
def initClientVring (base : UInt64) (kickfd callfd : Int) : Vring where
  kickfd := kickfd
  callfd := callfd
  desc := base + .ofNat offsetofDesc
  avail := base + .ofNat offsetofAvail
  used := base + .ofNat offsetofUsed
  num := .ofNat vhostVringSize
  lastAvailIdx := 0
  lastUsedIdx := 0

/-- The `VringTable` of the client. -/
def initClientTable (base : RingIdx → UInt64) (kickfd callfd : RingIdx → Int) :
    VringTable Unit where
  context := ()
  handlers := clientHandlers
  vring i := initClientVring (base i) (kickfd i) (callfd i)

/-- The regions of the client's memory table, one for each ring. -/
def clientRegion (base : UInt64) : VhostUserMemoryRegion :=
  ⟨base, vhostClientPageSize, base, 0⟩

end Vapp
