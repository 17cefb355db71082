import Vapp.RingLedger

/-! # The ring that `new_vring` lays out

The cursor of the layout loop is rounded up once, in front of the first buffer; the size of
a buffer is a multiple of the alignment.  What the loop stores besides the addresses does
not depend on where the region lies.
-/
namespace Vapp

open Counter16 ArrayChain

/-! ### What does not depend on the base -/

/-- A descriptor as `new_vring` leaves it, its address and its link apart. -/
structure VringDesc.Fresh (d : VringDesc) : Prop where
  len : d.len = .ofNat bufferSize
  flags : d.flags = virtioDescFWrite

theorem VringDesc.Fresh.relink {d : VringDesc} (h : d.Fresh) (next : UInt16) :
    ({ d with next := next } : VringDesc).Fresh := ⟨h.len, h.flags⟩

/-- The loop does not come back to a descriptor. -/
theorem layoutDesc_of_lt (todo : Nat) : ∀ (k : Nat) (ptr : UInt64) (table : Nat → VringDesc)
    {d : Nat}, d < k → layoutDesc todo k ptr table d = table d := by
  induction todo with
  | zero => exact fun _ _ _ _ _ => rfl
  | succ todo ih =>
      intro k ptr table d hd
      rw [layoutDesc, ih _ _ _ (Nat.lt_succ_of_lt hd), Function.update_of_ne (Nat.ne_of_lt hd)]

theorem layoutDesc_fresh (todo : Nat) : ∀ (k : Nat) (ptr : UInt64) (table : Nat → VringDesc)
    {d : Nat}, k ≤ d → d < k + todo →
    (layoutDesc todo k ptr table d).Fresh ∧
      (layoutDesc todo k ptr table d).next = .ofNat (d + 1) := by
  induction todo with
  | zero => exact fun _ _ _ _ hk hd => absurd hd (Nat.not_lt.mpr hk)
  | succ todo ih =>
      intro k ptr table d hk hd
      rcases Nat.eq_or_lt_of_le hk with rfl | hlt
      · rw [layoutDesc, layoutDesc_of_lt _ _ _ _ (Nat.lt_succ_self k), Function.update_self]
        exact ⟨⟨rfl, rfl⟩, rfl⟩
      · exact ih (k + 1) _ _ hlt (by omega)

/-- Every descriptor of a new ring is fresh and linked to the following one. -/
theorem newVringTable_fresh (base : UInt64) (table : Nat → VringDesc) {d : Nat}
    (hd : d < vhostVringSize) :
    (newVringTable base table d).Fresh ∧ (newVringTable base table d).next =
      if d + 1 = vhostVringSize then vringIdxNone else of (d + 1) := by
  obtain ⟨hfresh, hnext⟩ := layoutDesc_fresh vhostVringSize 0 (base + .ofNat sizeofVhostVring)
    table (Nat.zero_le d) (by omega)
  have hN := vhostVringSize_eq
  unfold newVringTable
  by_cases hlast : d + 1 = vhostVringSize
  · obtain rfl : d = vhostVringSize - 1 := by omega
    rw [Function.update_self, if_pos hlast]
    exact ⟨hfresh.relink _, rfl⟩
  · rw [Function.update_of_ne (by omega), if_neg hlast]
    exact ⟨hfresh, hnext⟩

section NewVring
variable (base : UInt64) (shm : Nat) (m : Mem)

/-- The descriptor table of a new ring. -/
theorem newVring_desc :
    (newVring base shm m).desc ⟨shm, offsetofDesc⟩ =
      newVringTable base (m.desc ⟨shm, offsetofDesc⟩) := by
  simp [newVring]

/-- The free list of a new ring is the whole table in order. -/
theorem newVring_chain :
    Chain ((newVring base shm m).next ⟨shm, offsetofDesc⟩) vringIdxNone 0 allDescs := by
  refine chain_allDescs fun d hd => ?_
  rw [Mem.next, newVring_desc, toNat_of_lt (Nat.lt_trans hd (by decide))]
  exact (newVringTable_fresh _ _ hd).2

end NewVring

/-! ### Where the buffers lie -/

/-- The ring at `base`, in a region of `VHOST_CLIENT_PAGE_SIZE` bytes, is well formed. -/
structure WellLaid (base : UInt64) (desc : Nat → VringDesc) : Prop where
  aligned : ∀ d, d < vhostVringSize → bufferAlignment.toNat ∣ (desc d).addr.toNat
  behind : ∀ d, d < vhostVringSize → base.toNat + sizeofVhostVring ≤ (desc d).addr.toNat
  inside : ∀ d, d < vhostVringSize →
    (desc d).addr.toNat + bufferSize ≤ base.toNat + vhostClientPageSize.toNat
  disjoint : ∀ d e, d < vhostVringSize → e < vhostVringSize → d ≠ e →
    (desc d).addr.toNat + bufferSize ≤ (desc e).addr.toNat ∨
      (desc e).addr.toNat + bufferSize ≤ (desc d).addr.toNat
  chain : ∃ l, Chain (fun a : UInt16 => (desc a.toNat).next) vringIdxNone 0 l ∧ l.Nodup ∧
    ∀ a, a ∈ l ↔ a.toNat < vhostVringSize

/-- The first buffer begins at the first multiple of the alignment behind the ring. -/
def firstBuffer (base : UInt64) : Nat := roundUp 8 (base.toNat + sizeofVhostVring)

theorem le_firstBuffer (base : UInt64) : base.toNat + sizeofVhostVring ≤ firstBuffer base := by
  unfold firstBuffer roundUp
  omega

section Place
variable {base : UInt64} {d : Nat} (hd : d < vhostVringSize)
include hd

/-- The region has room for all buffers, wherever the first one begins. -/
theorem firstBuffer_add_le :
    firstBuffer base + bufferSize * (d + 1) ≤ base.toNat + vhostClientPageSize.toNat := by
  rw [firstBuffer, roundUp, bufferSize_eq, sizeofVhostVring_eq, vhostClientPageSize_toNat]
  rw [vhostVringSize_eq] at hd
  omega

/-- The buffers follow one another without a gap. -/
theorem newVringTable_addr (hb : base.toNat + vhostClientPageSize.toNat ≤ 2 ^ 64)
    (table : Nat → VringDesc) :
    (newVringTable base table d).addr.toNat = firstBuffer base + bufferSize * d := by
  have hroom : firstBuffer base + bufferSize * (d + 1) ≤ base.toNat + vhostClientPageSize.toNat :=
    firstBuffer_add_le hd
  have hsucc : bufferSize * (d + 1) = bufferSize * d + 1528 := Nat.mul_succ ..
  rw [newVringTable_apply hb table hd]
  refine UInt64.toNat_ofNat_of_lt' (show firstBuffer base + bufferSize * d < 2 ^ 64 from ?_)
  omega

end Place

/-- **`new_vring` lays out a well-formed ring.** -/
theorem new_vring_well_laid (base : UInt64) (shm : Nat) (m : Mem)
    (hb : base.toNat + vhostClientPageSize.toNat ≤ 2 ^ 64) :
    WellLaid base ((newVring base shm m).desc ⟨shm, offsetofDesc⟩) := by
  have haddr : ∀ {d}, d < vhostVringSize →
      ((newVring base shm m).desc ⟨shm, offsetofDesc⟩ d).addr.toNat =
        firstBuffer base + bufferSize * d := fun hd => by
    rw [newVring_desc]
    exact newVringTable_addr hd hb _
  refine
    { aligned := fun d hd => ?_
      behind := fun d hd => ?_
      inside := fun d hd => ?_
      disjoint := fun d e hd he hne => ?_
      chain := ⟨allDescs, newVring_chain base shm m, nodup_allDescs, fun _ => mem_allDescs⟩ }
  · rw [haddr hd]
    exact Nat.dvd_add (Nat.dvd_mul_left _ _) (Nat.dvd_mul_right_of_dvd ⟨191, rfl⟩ d)
  · have hround := le_firstBuffer base
    rw [haddr hd]
    omega
  · rw [haddr hd, Nat.add_assoc, ← Nat.mul_succ]
    exact firstBuffer_add_le hd
  · -- of two buffers the one with the smaller index ends first
    rw [haddr hd, haddr he]
    rcases Nat.lt_or_gt_of_ne hne with hlt | hgt
    · have := Nat.mul_le_mul_left bufferSize (Nat.succ_le_of_lt hlt)
      rw [Nat.mul_succ] at this
      exact .inl (by omega)
    · have := Nat.mul_le_mul_left bufferSize (Nat.succ_le_of_lt hgt)
      rw [Nat.mul_succ] at this
      exact .inr (by omega)

/-- A base that is no multiple of the alignment. -/
theorem new_vring_well_laid_odd :
    WellLaid 0x7f0000000001 ((newVring 0x7f0000000001 1 Mem.zero).desc ⟨1, offsetofDesc⟩) :=
  new_vring_well_laid 0x7f0000000001 1 Mem.zero (by decide)

/-! ### How a party sees the buffers -/

/-- The address that `new_vring` gives buffer `d`. -/
def layoutAddr (base : UInt64) (d : Nat) : UInt64 := .ofNat (firstBuffer base + bufferSize * d)

/-- The first byte of buffer `d` in the shared object. -/
def bufferLoc (base : UInt64) (shm d : Nat) : Loc :=
  ⟨shm, firstBuffer base - base.toNat + bufferSize * d⟩

/-- A party sees the object `shm` from some pointer on, and that is where it translates the
addresses of the region at `base` to. -/
structure Sees {κ : Type} (sp : AddrSpace) (t : VringTable κ) (base : UInt64) (shm : Nat) :
    Prop where
  fits : base.toNat + vhostClientPageSize.toNat ≤ 2 ^ 64
  shows : ∃ p, Shows sp p vhostClientPageSize.toNat ⟨shm, 0⟩ ∧
    ∀ off, off < vhostClientPageSize.toNat → t.translate (base + .ofNat off) = p + .ofNat off

/-- The region goes on behind the last buffer, by more than a header. -/
theorem buffer_room (base : UInt64) {d n : Nat} (hd : d < vhostVringSize)
    (hn : n ≤ virtioNetHdrSize + bufferSize) :
    firstBuffer base - base.toNat + bufferSize * d + n ≤ vhostClientPageSize.toNat := by
  have hle := le_firstBuffer base
  rw [firstBuffer, roundUp] at *
  rw [sizeofVhostVring_eq] at *
  rw [vhostClientPageSize_toNat, bufferSize_eq] at *
  rw [virtioNetHdrSize_eq] at hn
  rw [vhostVringSize_eq] at hd
  omega

/-- Each buffer is seen at its address, with room for a header behind it. -/
theorem Sees.buffer {κ : Type} {sp : AddrSpace} {t : VringTable κ} {base : UInt64} {shm : Nat}
    (h : Sees sp t base shm) {d n : Nat} (hd : d < vhostVringSize)
    (hn : n ≤ virtioNetHdrSize + bufferSize) :
    Shows sp (t.translate (layoutAddr base d)) n (bufferLoc base shm d) := by
  obtain ⟨p, hp, htr⟩ := h.shows
  have hle := le_firstBuffer base
  have hroom := buffer_room base hd hn
  have hslack := buffer_room base (n := 1) hd (by decide)
  have haddr : layoutAddr base d =
      base + .ofNat (firstBuffer base - base.toNat + bufferSize * d) := by
    have hfits := h.fits
    rw [← UInt64.toNat_inj, toNat_add_ofNat (by omega), layoutAddr,
      UInt64.toNat_ofNat_of_lt' (show firstBuffer base + bufferSize * d < 2 ^ 64 by omega)]
    omega
  rw [haddr, htr _ (by omega)]
  have hloc : bufferLoc base shm d =
      Loc.add ⟨shm, 0⟩ (firstBuffer base - base.toNat + bufferSize * d) := by
    rw [Loc.add, Nat.zero_add]
    rfl
  rw [hloc]
  exact (hp.mono hroom).drop _

end Vapp
