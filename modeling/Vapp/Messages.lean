import Vapp.Layout
import Vapp.Library.LittleEndian

/-! # vhost-user messages

`VhostUserMsg` and `ServerMsg`.  The members of the union of a message are views of the
same bytes, so a handler that reads another member than the one that was sent reads
those bytes under another name.
-/
namespace Vapp

open LittleEndian

/-- `VhostUserRequest`, without `VHOST_USER_MAX`. -/
inductive VhostUserRequest where
  | none
  | getFeatures
  | setFeatures
  | setOwner
  | resetOwner
  | setMemTable
  | setLogBase
  | setLogFd
  | setVringNum
  | setVringAddr
  | setVringBase
  | getVringBase
  | setVringKick
  | setVringCall
  | setVringErr
  deriving DecidableEq, Repr

/-- The request a 32-bit word stands for, if it is below `VHOST_USER_MAX`. -/
def VhostUserRequest.ofWord (w : UInt32) : Option VhostUserRequest :=
  [none, getFeatures, setFeatures, setOwner, resetOwner, setMemTable, setLogBase, setLogFd,
    setVringNum, setVringAddr, setVringBase, getVringBase, setVringKick, setVringCall,
    setVringErr][w.toNat]?

/-- The number of a request in the enumeration. -/
def VhostUserRequest.word (r : VhostUserRequest) : UInt32 := .ofNat r.ctorIdx

theorem VhostUserRequest.ofWord_word (r : VhostUserRequest) : ofWord r.word = some r := by
  cases r <;> rfl

/-- `VHOST_USER_VRING_IDX_MASK`. -/
def vhostUserVringIdxMask : UInt64 := 0xff

/-- `VHOST_USER_VRING_NOFD_MASK`. -/
def vhostUserVringNofdMask : UInt64 := 0x100

/-- `struct vhost_vring_state`. -/
structure VhostVringState where
  index : UInt32
  num : UInt32
  deriving DecidableEq, Repr

/-- `struct vhost_vring_addr`. -/
structure VhostVringAddr where
  index : UInt32
  flags : UInt32
  descUserAddr : UInt64
  usedUserAddr : UInt64
  availUserAddr : UInt64
  logGuestAddr : UInt64
  deriving DecidableEq, Repr

/-- `VhostUserMemoryRegion`. -/
structure VhostUserMemoryRegion where
  guestPhysAddr : UInt64
  memorySize : UInt64
  userspaceAddr : UInt64
  mmapOffset : UInt64
  deriving DecidableEq, Repr

/-- The bytes of the union of a message. -/
abbrev Payload := Nat → UInt8

namespace Payload
variable (p : Payload)

def u32At (off : Nat) : UInt32 := .ofNat (read p off 4)
def u64At (off : Nat) : UInt64 := .ofNat (read p off 8)
def setU32 (off : Nat) (v : UInt32) : Payload := write p off 4 v.toNat
def setU64 (off : Nat) (v : UInt64) : Payload := write p off 8 v.toNat

/-- The member `u64`. -/
def u64 : UInt64 := p.u64At 0

/-- The member `state`. -/
def state : VhostVringState := ⟨p.u32At 0, p.u32At 4⟩

/-- The member `addr`. -/
def addr : VhostVringAddr :=
  ⟨p.u32At 0, p.u32At 4, p.u64At 8, p.u64At 16, p.u64At 24, p.u64At 32⟩

/-- `memory.nregions`; `memory.padding` follows it. -/
def nregions : UInt32 := p.u32At 0

/-- `memory.regions[i]`. -/
def region (i : Nat) : VhostUserMemoryRegion :=
  ⟨p.u64At (8 + 32 * i), p.u64At (16 + 32 * i), p.u64At (24 + 32 * i), p.u64At (32 + 32 * i)⟩

/-- The bytes with `state` stored. -/
def setState (s : VhostVringState) : Payload := (p.setU32 0 s.index).setU32 4 s.num

/-- The bytes with `addr` stored. -/
def setAddr (a : VhostVringAddr) : Payload :=
  (((((p.setU32 0 a.index).setU32 4 a.flags).setU64 8 a.descUserAddr).setU64 16
    a.usedUserAddr).setU64 24 a.availUserAddr).setU64 32 a.logGuestAddr

/-- The bytes with `memory.regions[i]` stored. -/
def setRegion (i : Nat) (r : VhostUserMemoryRegion) : Payload :=
  (((p.setU64 (8 + 32 * i) r.guestPhysAddr).setU64 (16 + 32 * i) r.memorySize).setU64
    (24 + 32 * i) r.userspaceAddr).setU64 (32 + 32 * i) r.mmapOffset

section Views
variable {p}

theorem u32At_setU32 (off : Nat) (v : UInt32) : (p.setU32 off v).u32At off = v := by
  rw [u32At, setU32, read_write p 4 (Nat.lt_of_lt_of_le v.toNat_lt (by decide)),
    UInt32.ofNat_toNat]

theorem u64At_setU64 (off : Nat) (v : UInt64) : (p.setU64 off v).u64At off = v := by
  rw [u64At, setU64, read_write p 8 (Nat.lt_of_lt_of_le v.toNat_lt (by decide)),
    UInt64.ofNat_toNat]

theorem u32At_setU32_of_ne {off off' : Nat} (v : UInt32) (h : off' + 4 ≤ off ∨ off + 4 ≤ off') :
    (p.setU32 off v).u32At off' = p.u32At off' := by
  rw [u32At, setU32, read_write_of_disjoint p h, u32At]

theorem u32At_setU64_of_ne {off off' : Nat} (v : UInt64) (h : off' + 4 ≤ off ∨ off + 8 ≤ off') :
    (p.setU64 off v).u32At off' = p.u32At off' := by
  rw [u32At, setU64, read_write_of_disjoint p h, u32At]

theorem u64At_setU32_of_ne {off off' : Nat} (v : UInt32) (h : off' + 8 ≤ off ∨ off + 4 ≤ off') :
    (p.setU32 off v).u64At off' = p.u64At off' := by
  rw [u64At, setU32, read_write_of_disjoint p h, u64At]

theorem u64At_setU64_of_ne {off off' : Nat} (v : UInt64) (h : off' + 8 ≤ off ∨ off + 8 ≤ off') :
    (p.setU64 off v).u64At off' = p.u64At off' := by
  rw [u64At, setU64, read_write_of_disjoint p h, u64At]

theorem state_setState (s : VhostVringState) : (p.setState s).state = s := by
  rw [state, setState, u32At_setU32, u32At_setU32_of_ne _ (by decide), u32At_setU32]

theorem addr_setAddr (a : VhostVringAddr) : (p.setAddr a).addr = a := by
  simp (disch := decide) only [addr, setAddr, u64At_setU64, u64At_setU64_of_ne,
    u32At_setU64_of_ne, u32At_setU32, u32At_setU32_of_ne]

theorem region_setRegion (i : Nat) (r : VhostUserMemoryRegion) :
    (p.setRegion i r).region i = r := by
  simp (disch := omega) only [region, setRegion, u64At_setU64, u64At_setU64_of_ne]

theorem region_setRegion_of_ne {i j : Nat} (r : VhostUserMemoryRegion) (h : i ≠ j) :
    (p.setRegion i r).region j = p.region j := by
  simp (disch := omega) only [region, setRegion, u64At_setU64_of_ne]

theorem nregions_setRegion (i : Nat) (r : VhostUserMemoryRegion) :
    (p.setRegion i r).nregions = p.nregions := by
  simp (disch := omega) only [nregions, setRegion, u32At_setU64_of_ne]

end Views

end Payload

/-- `VhostUserMsg`. -/
structure VhostUserMsg where
  request : UInt32
  flags : UInt32
  size : UInt32
  payload : Payload

/-- `ServerMsg`: a message with the descriptors that came with it.  The entries of `fds`
from `fd_num` on are whatever the stack held. -/
structure ServerMsg where
  msg : VhostUserMsg
  fdNum : Nat
  fds : Nat → Int

end Vapp
