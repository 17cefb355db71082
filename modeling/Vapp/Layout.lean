import Mathlib.Algebra.Ring.Nat
import Mathlib.Logic.Function.Basic

/-! # Constants and sizes

The numbers of `vring.h`, `common.h` and `vhost.h`, and the offsets the compiler gives
the members of `struct vhost_vring` (natural alignment, and the alignment the
attributes of the declaration ask for).
-/
namespace Vapp

/-- `VHOST_VRING_SIZE`. -/
def vhostVringSize : Nat := 32 * 1024

/-- `VHOST_CLIENT_VRING_NUM`. -/
def vhostClientVringNum : Nat := 2

/-- A ring of one of the two tables: `VHOST_CLIENT_VRING_IDX_RX` or `.._TX`. -/
abbrev RingIdx := Fin vhostClientVringNum

/-- `VHOST_CLIENT_VRING_IDX_RX`. -/
def rxIdx : RingIdx := (0 : Fin 2)

/-- `VHOST_CLIENT_VRING_IDX_TX`. -/
def txIdx : RingIdx := (1 : Fin 2)

/-- `VRING_IDX_NONE`, `(uint16_t)-1`. -/
def vringIdxNone : UInt16 := 0xffff

/-- `VIRTIO_DESC_F_NEXT`. -/
def virtioDescFNext : UInt16 := 1

/-- `VIRTIO_DESC_F_WRITE`. -/
def virtioDescFWrite : UInt16 := 2

/-- `sizeof(struct virtio_net_hdr)`: `flags` and `gso_type` of one byte, then
`hdr_len`, `gso_size`, `csum_start` and `csum_offset` of two. -/
def virtioNetHdrSize : Nat := 1 + 1 + 2 + 2 + 2 + 2

/-- `ETH_PACKET_SIZE`. -/
def ethPacketSize : Nat := 1518

/-- `BUFFER_SIZE`. -/
def bufferSize : Nat := virtioNetHdrSize + ethPacketSize

/-- `BUFFER_ALIGNMENT`. -/
def bufferAlignment : UInt64 := 8

/-- `ONEMEG`. -/
def oneMeg : UInt64 := 1024 * 1024

/-- `ALIGN(v,b)`.  The macro computes on `long int`; the bits are those of the same
operations on 64-bit words. -/
def align (v b : UInt64) : UInt64 := (v + b - 1) &&& (0 - b)

/-- `VHOST_MEMORY_MAX_NREGIONS`. -/
def vhostMemoryMaxNregions : Nat := 8

/-! ### `struct vhost_vring` -/

/-- `n` rounded up to a multiple of `a`, as the compiler places a member. -/
def roundUp (a n : Nat) : Nat := (n + a - 1) / a * a

/-- `sizeof(struct vring_desc)`: 8 + 4 + 2 + 2 bytes. -/
def sizeofVringDesc : Nat := 16

/-- `sizeof(struct vring_avail)`. -/
def sizeofVringAvail : Nat := 2 + 2 + 2 * vhostVringSize

/-- `sizeof(struct vring_used)`. -/
def sizeofVringUsed : Nat := 2 + 2 + 8 * vhostVringSize

/-- `desc` follows the two file descriptors. -/
def offsetofDesc : Nat := 4 + 4

def offsetofAvail : Nat := offsetofDesc + sizeofVringDesc * vhostVringSize

/-- `used` is aligned to 4096. -/
def offsetofUsed : Nat := roundUp 4096 (offsetofAvail + sizeofVringAvail)

/-- `sizeof(struct vhost_vring)`, a multiple of the largest alignment of a member. -/
def sizeofVhostVring : Nat := roundUp 4096 (offsetofUsed + sizeofVringUsed)

/-- `VHOST_CLIENT_PAGE_SIZE`, the size of the shared region of one ring. -/
def vhostClientPageSize : UInt64 :=
  align (.ofNat (sizeofVhostVring + bufferSize * vhostVringSize)) oneMeg

theorem vhostVringSize_eq : vhostVringSize = 32768 := rfl
theorem virtioNetHdrSize_eq : virtioNetHdrSize = 10 := rfl
theorem bufferSize_eq : bufferSize = 1528 := rfl
theorem sizeofVhostVring_eq : sizeofVhostVring = 860160 := by decide
theorem vhostClientPageSize_toNat : vhostClientPageSize.toNat = 51380224 := by decide

/-- The ring size divides the range of the 16-bit counters. -/
theorem vhostVringSize_dvd : vhostVringSize ∣ 65536 := ⟨2, rfl⟩

/-- `ALIGN` with the alignment of the buffers is rounding up to a multiple of eight, as
long as the addition does not wrap. -/
theorem align_bufferAlignment {v : UInt64} (h : v.toNat + 7 < 2 ^ 64) :
    (align v bufferAlignment).toNat = roundUp 8 v.toNat := by
  have hmask : (0 - bufferAlignment : UInt64).toNat = 2 ^ 64 - 2 ^ 3 := by decide
  have hsum : (v + bufferAlignment - 1).toNat = v.toNat + 7 := by
    have h8 : bufferAlignment.toNat = 8 := rfl
    rw [UInt64.toNat_sub, UInt64.toNat_add, h8, UInt64.toNat_one]
    omega
  rw [align, UInt64.toNat_and, hmask, hsum]
  -- masking with `2 ^ 64 - 2 ^ 3` keeps the bits from the third one on
  have hand : (v.toNat + 7) &&& (2 ^ 64 - 2 ^ 3) = (v.toNat + 7) / 2 ^ 3 * 2 ^ 3 := by
    apply Nat.eq_of_testBit_eq
    intro i
    rw [Nat.testBit_and, Nat.mul_comm, Nat.testBit_two_pow_mul, Nat.testBit_div_two_pow,
      show 2 ^ 64 - 2 ^ 3 = 2 ^ 3 * (2 ^ 61 - 1) from rfl, Nat.testBit_two_pow_mul,
      Nat.testBit_two_pow_sub_one]
    by_cases hi : 3 ≤ i
    · rw [Nat.sub_add_cancel hi]
      by_cases hlt : i < 64
      · have : i - 3 < 61 := by omega
        simp [hi, this]
      · have hbig : (v.toNat + 7).testBit i = false :=
          Nat.testBit_lt_two_pow (Nat.lt_of_lt_of_le h (Nat.pow_le_pow_right (by omega)
            (by omega)))
        simp [hbig]
    · simp [hi]
  rw [hand, roundUp]
  rfl

end Vapp
