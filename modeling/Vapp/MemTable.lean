import Vapp.ServerSteps
import Vapp.Library.Simulation

/-! # What a memory table lets a server reach

`VHOST_USER_SET_MEM_TABLE` names shared objects; where the server maps them is up to the
kernel.  An address inside a region stands for the same byte of the same object wherever
that is.
-/
namespace Vapp

/-- The `k`th region comes with a descriptor. -/
def ServerMsg.HasRegion (msg : ServerMsg) (k : Nat) : Prop :=
  k < msg.msg.payload.nregions.toNat ∧ 0 < msg.fds k

instance (msg : ServerMsg) (k : Nat) : Decidable (msg.HasRegion k) :=
  inferInstanceAs (Decidable (_ ∧ _))

/-- The answers of `map_shm` for a memory table: every region is a mapping of its object,
and the mappings neither wrap around nor overlap. -/
structure Mapped (msg : ServerMsg) (maps : Nat → Option MapResult) (shm : Nat → Nat) : Prop where
  object : ∀ k, msg.HasRegion k → ∃ r, maps k = some r ∧ r.shm = shm k
  fits : ∀ k r, msg.HasRegion k → maps k = some r →
    r.addr.toNat + (msg.msg.payload.region k).memorySize.toNat ≤ 2 ^ 64
  apart : ∀ k l r s, msg.HasRegion k → msg.HasRegion l → k ≠ l → maps k = some r →
    maps l = some s →
    r.addr.toNat + (msg.msg.payload.region k).memorySize.toNat ≤ s.addr.toNat ∨
      s.addr.toNat + (msg.msg.payload.region l).memorySize.toNat ≤ r.addr.toNat

namespace VhostServerMemory

/-- The region that a translation uses for an address. -/
def regionOf (base : VhostServerMemoryRegion → UInt64) (memory : VhostServerMemory)
    (addr : UInt64) : Option Nat :=
  (List.range memory.nregions.toNat).find? fun i =>
    decide (base (memory.regions i) ≤ addr ∧
      addr < base (memory.regions i) + (memory.regions i).memorySize)

theorem mapAddr_of_regionOf {base : VhostServerMemoryRegion → UInt64} {memory : VhostServerMemory}
    {addr : UInt64} {k : Nat} (h : memory.regionOf base addr = some k) :
    memory.mapAddr base addr =
      (memory.regions k).mmapAddr + addr - base (memory.regions k) := by
  have hfind : (List.range memory.nregions.toNat).find? (fun i =>
      decide (base (memory.regions i) ≤ addr ∧
        addr < base (memory.regions i) + (memory.regions i).memorySize)) = some k := h
  rw [mapAddr, hfind]

theorem covers_of_regionOf {base : VhostServerMemoryRegion → UInt64} {memory : VhostServerMemory}
    {addr : UInt64} {k : Nat} (h : memory.regionOf base addr = some k) :
    base (memory.regions k) ≤ addr ∧
      addr < base (memory.regions k) + (memory.regions k).memorySize := by
  have hcovers := List.find?_some h
  exact of_decide_eq_true hcovers

end VhostServerMemory

/-! ### The installed table -/

/-- The number of regions that come with a descriptor, among the first `n`. -/
def ServerMsg.regionCount (msg : ServerMsg) : Nat → UInt32
  | 0 => 0
  | n + 1 => if 0 < msg.fds n then msg.regionCount n + 1 else msg.regionCount n

/-- The entry for region `k` of a message, mapped at `start k`. -/
def ServerMsg.entry (msg : ServerMsg) (start : Nat → UInt64) (k : Nat) :
    VhostServerMemoryRegion where
  guestPhysAddr := (msg.msg.payload.region k).guestPhysAddr
  memorySize := (msg.msg.payload.region k).memorySize
  userspaceAddr := (msg.msg.payload.region k).userspaceAddr
  mmapAddr := start k + (msg.msg.payload.region k).mmapOffset

/-- The table `old` after the first `n` turns of the loop. -/
def ServerMsg.tableOver (msg : ServerMsg) (old : Nat → VhostServerMemoryRegion)
    (start : Nat → UInt64) (n : Nat) : VhostServerMemory where
  nregions := msg.regionCount n
  regions k := if k < n ∧ 0 < msg.fds k then msg.entry start k else old k

/-- The first `n` regions of the table, where region `k` is mapped at `start k`, over an empty
one. -/
def ServerMsg.installed (msg : ServerMsg) (start : Nat → UInt64) (n : Nat) : VhostServerMemory :=
  msg.tableOver (fun _ => ⟨0, 0, 0, 0⟩) start n

/-- The addresses that `map_shm` returned. -/
def startOf (maps : Nat → Option MapResult) (k : Nat) : UInt64 := ((maps k).map (·.addr)).getD 0

/-- The table is installed as far as its first `n` regions, and each of these is seen where
it was mapped. -/
structure Installed (msg : ServerMsg) (maps : Nat → Option MapResult) (n : Nat) (w : World) :
    Prop where
  memory : w.context.memory = msg.installed (startOf maps) n
  shows : ∀ k r, k < n → 0 < msg.fds k → maps k = some r → ∀ off,
    off < (msg.msg.payload.region k).memorySize.toNat →
      w.space.resolve (r.addr + .ofNat off) = some ⟨r.shm, off⟩

section Loop
variable {msg : ServerMsg} {maps : Nat → Option MapResult} {shm : Nat → Nat} {n : Nat}
  {w w' : World}

theorem tableOver_succ_of_pos (old : Nat → VhostServerMemoryRegion) (start : Nat → UInt64)
    (h : 0 < msg.fds n) : msg.tableOver old start (n + 1) =
      { nregions := (msg.tableOver old start n).nregions + 1
        regions := Function.update (msg.tableOver old start n).regions n (msg.entry start n) } := by
  have hcount : msg.regionCount (n + 1) = msg.regionCount n + 1 := if_pos h
  rw [ServerMsg.tableOver, ServerMsg.tableOver, hcount]
  refine congrArg (VhostServerMemory.mk _) (funext fun k => ?_)
  by_cases hk : k = n
  · subst hk
    rw [Function.update_self, if_pos ⟨Nat.lt_succ_self k, h⟩]
  · rw [Function.update_of_ne hk]
    exact if_congr (and_congr_left fun _ => by omega) rfl rfl

theorem tableOver_succ_of_neg (old : Nat → VhostServerMemoryRegion) (start : Nat → UInt64)
    (h : ¬ 0 < msg.fds n) : msg.tableOver old start (n + 1) = msg.tableOver old start n := by
  have hcount : msg.regionCount (n + 1) = msg.regionCount n := if_neg h
  rw [ServerMsg.tableOver, ServerMsg.tableOver, hcount]
  refine congrArg (VhostServerMemory.mk _) (funext fun k => ?_)
  by_cases hk : k = n
  · subst hk
    rw [if_neg fun hk => h hk.2, if_neg fun hk => h hk.2]
  · exact if_congr (and_congr_left fun _ => by omega) rfl rfl

theorem installed_of_pos (start : Nat → UInt64) {k : Nat} (hk : k < n ∧ 0 < msg.fds k) :
    (msg.installed start n).regions k = msg.entry start k := if_pos hk

theorem installed_of_neg (start : Nat → UInt64) {k : Nat} (hk : ¬ (k < n ∧ 0 < msg.fds k)) :
    (msg.installed start n).regions k = ⟨0, 0, 0, 0⟩ := if_neg hk

/-- An address of the mapping at the front. -/
theorem resolve_front {r : MapResult} {size : UInt64} {rest : AddrSpace} {off : Nat}
    (hfits : r.addr.toNat + size.toNat ≤ 2 ^ 64) (hoff : off < size.toNat) :
    AddrSpace.resolve (⟨r.addr, size, r.shm⟩ :: rest) (r.addr + .ofNat off) =
      some ⟨r.shm, off⟩ := by
  have haddr : (r.addr + UInt64.ofNat off).toNat = r.addr.toNat + off :=
    toNat_add_ofNat (by omega)
  exact (shows_of_mapping (n := 1) haddr hoff hfits).head

/-- An address of another mapping. -/
theorem resolve_behind {mp : Mapping} {rest : AddrSpace} {a : UInt64}
    (h : a.toNat < mp.start.toNat ∨ mp.start.toNat + mp.length.toNat ≤ a.toNat) :
    AddrSpace.resolve (mp :: rest) a = rest.resolve a := by
  have hmiss : mp.resolve a = none := by
    rw [Mapping.resolve, if_neg]
    rintro ⟨hle, hlt⟩
    rw [UInt64.le_iff_toNat_le] at hle
    omega
  rw [AddrSpace.resolve, List.findSome?_cons, hmiss]
  rfl

/-- One turn of `_set_mem_table`. -/
theorem Installed.turn (hm : Mapped msg maps shm) (hn : n < msg.msg.payload.nregions.toNat)
    (h : Installed msg maps n w) (hturn : setMemTableTurn msg (maps n) n w = .ret w') :
    Installed msg maps (n + 1) w' := by
  obtain ⟨_, _, hturn⟩ := Outcome.bind_eq_ret.mp hturn
  split at hturn
  · rename_i hfd
    obtain ⟨_, _, hturn⟩ := Outcome.bind_eq_ret.mp hturn
    obtain ⟨r, hr, -⟩ := hm.object n ⟨hn, hfd⟩
    cases hturn
    have hstart : startOf maps n = r.addr := by
      rw [startOf, hr]
      rfl
    refine ⟨?_, fun k rk hk hfdk hrk off hoff => ?_⟩
    · rw [ServerMsg.installed, tableOver_succ_of_pos _ _ hfd, ServerMsg.entry, hstart,
        ← ServerMsg.installed, ← h.memory, hr]
      rfl
    · rw [hr]
      by_cases hkn : k = n
      · subst hkn
        cases hr.symm.trans hrk
        exact resolve_front (hm.fits k r ⟨hn, hfd⟩ hr) hoff
      · have hlt : k < n := by omega
        have hk' : msg.HasRegion k := ⟨by omega, hfdk⟩
        have haddr : (rk.addr + UInt64.ofNat off).toNat = rk.addr.toNat + off := by
          have := hm.fits k rk hk' hrk
          exact toNat_add_ofNat (by omega)
        have hbehind : AddrSpace.resolve
            (⟨r.addr, (msg.msg.payload.region n).memorySize, r.shm⟩ :: w.space)
            (rk.addr + .ofNat off) = w.space.resolve (rk.addr + .ofNat off) := by
          refine resolve_behind ?_
          rw [haddr]
          rcases hm.apart k n rk r hk' ⟨hn, hfd⟩ hkn hrk hr with hapart | hapart
          · refine .inl ?_
            show rk.addr.toNat + off < r.addr.toNat
            omega
          · refine .inr ?_
            show r.addr.toNat + (msg.msg.payload.region n).memorySize.toNat ≤ _
            omega
        exact hbehind.trans (h.shows k rk hlt hfdk hrk off hoff)
  · rename_i hfd
    cases hturn
    refine ⟨?_, fun k rk hk hfdk => ?_⟩
    · rw [ServerMsg.installed, tableOver_succ_of_neg _ _ hfd]
      exact h.memory
    have hkn : k ≠ n := by
      rintro rfl
      exact hfd hfdk
    exact h.shows k rk (by omega) hfdk

theorem Installed.loop (hm : Mapped msg maps shm) (todo : Nat) : ∀ {n : Nat} {w w' : World},
    n + todo = msg.msg.payload.nregions.toNat → Installed msg maps n w →
    setMemTableLoop msg maps todo n w = .ret w' →
    Installed msg maps msg.msg.payload.nregions.toNat w' := by
  induction todo with
  | zero =>
      intro n w w' hn h hloop
      cases hloop
      rwa [← hn]
  | succ todo ih =>
      intro n w w' hn h hloop
      obtain ⟨w1, hturn, hrest⟩ := Outcome.bind_eq_ret.mp hloop
      exact ih (by omega) (h.turn hm (by omega) hturn) hrest

end Loop

/-- **`VHOST_USER_SET_MEM_TABLE`** installs the whole table in a fresh server. -/
theorem installed_of_setMemTable {msg msg' : ServerMsg} {maps : Nat → Option MapResult}
    {shm : Nat → Nat} {w w' : World} {r : Int} (hm : Mapped msg maps shm)
    (hfresh : w.context.memory.regions = fun _ => ⟨0, 0, 0, 0⟩)
    (h : (setMemTable maps w msg).out = .ret (r, msg', w')) :
    Installed msg maps msg.msg.payload.nregions.toNat w' ∧
      ∃ memory space,
        w' = { w.setContext { w.context with memory := memory } with space := space } := by
  obtain ⟨w1, hloop, h⟩ := Traced.bind_out_eq_ret.mp h
  rw [Traced.lift_out] at hloop
  cases h
  obtain ⟨memory, space, hframe⟩ := setMemTableLoop_frame _ hloop
  refine ⟨Installed.loop hm _ (Nat.zero_add _) ⟨?_, fun _ _ hk => absurd hk (Nat.not_lt_zero _)⟩
    hloop, memory, space, hframe⟩
  show VhostServerMemory.mk 0 w.context.memory.regions = msg.installed (startOf maps) 0
  rw [hfresh]
  exact congrArg (VhostServerMemory.mk 0) (funext fun k =>
    (if_neg fun hk => absurd hk.1 (Nat.not_lt_zero k)).symm)

/-! ### Addresses inside the table -/

namespace ServerMsg
variable (msg : ServerMsg) (base : VhostServerMemoryRegion → UInt64)

/-- The region that translates an address, which does not depend on the mappings. -/
def regionOf (a : UInt64) : Option Nat :=
  (msg.installed (fun _ => 0) msg.msg.payload.nregions.toNat).regionOf base a

/-- How far into the object of region `k` an address lies. -/
def offsetOf (a : UInt64) (k : Nat) : Nat :=
  (msg.msg.payload.region k).mmapOffset.toNat + (a.toNat - (base
    ((msg.installed (fun _ => 0) msg.msg.payload.nregions.toNat).regions k)).toNat)

/-- The byte that an address stands for; `shm` are the objects of the regions. -/
def locOf (shm : Nat → Nat) (a : UInt64) : Option Loc :=
  (msg.regionOf base a).map fun k => ⟨shm k, msg.offsetOf base a k⟩

/-- The `n` bytes from an address on lie in the object of the region that translates it. -/
def Holds (a : UInt64) (n : Nat) : Prop :=
  ∃ k, msg.regionOf base a = some k ∧
    msg.offsetOf base a k + n ≤ (msg.msg.payload.region k).memorySize.toNat

end ServerMsg

section Translation
variable {msg : ServerMsg} {base : VhostServerMemoryRegion → UInt64}

/-- The base address of a region does not depend on where it is mapped. -/
theorem base_installed (hbase : ∀ r addr, base { r with mmapAddr := addr } = base r)
    (start start' : Nat → UInt64) (n k : Nat) :
    base ((msg.installed start n).regions k) = base ((msg.installed start' n).regions k) := by
  by_cases hk : k < n ∧ 0 < msg.fds k
  · rw [installed_of_pos start hk, installed_of_pos start' hk]
    exact (hbase ⟨_, _, _, 0⟩ _).trans (hbase ⟨_, _, _, 0⟩ _).symm
  · rw [installed_of_neg start hk, installed_of_neg start' hk]

theorem size_installed (start start' : Nat → UInt64) (n k : Nat) :
    ((msg.installed start n).regions k).memorySize =
      ((msg.installed start' n).regions k).memorySize := by
  by_cases hk : k < n ∧ 0 < msg.fds k
  · rw [installed_of_pos start hk, installed_of_pos start' hk]
    rfl
  · rw [installed_of_neg start hk, installed_of_neg start' hk]

theorem regionOf_installed (hbase : ∀ r addr, base { r with mmapAddr := addr } = base r)
    (start : Nat → UInt64) (a : UInt64) :
    (msg.installed start msg.msg.payload.nregions.toNat).regionOf base a = msg.regionOf base a := by
  rw [ServerMsg.regionOf, VhostServerMemory.regionOf, VhostServerMemory.regionOf]
  refine congrArg (fun p => (List.range _).find? p) (funext fun k => ?_)
  rw [base_installed hbase start fun _ => 0, size_installed start fun _ => 0]

/-- **Where an address of the table leads**: to the byte it stands for, wherever the objects
are mapped. -/
theorem Installed.shows_mapAddr {maps : Nat → Option MapResult} {shm : Nat → Nat} {w : World}
    {a : UInt64} {n : Nat} (hm : Mapped msg maps shm)
    (hbase : ∀ r addr, base { r with mmapAddr := addr } = base r)
    (h : Installed msg maps msg.msg.payload.nregions.toNat w) (hin : msg.Holds base a n) :
    ∃ l, msg.locOf base shm a = some l ∧
      Shows w.space (w.context.memory.mapAddr base a) n l := by
  obtain ⟨k, hk, hend⟩ := hin
  refine ⟨⟨shm k, msg.offsetOf base a k⟩, by rw [ServerMsg.locOf, hk]; rfl, ?_⟩
  obtain ⟨hle, hlt⟩ := VhostServerMemory.covers_of_regionOf hk
  have hregion : msg.HasRegion k := by
    by_contra hnone
    have hzero := installed_of_neg (fun _ => 0) hnone
    rw [hzero, UInt64.add_zero] at hlt
    rw [hzero] at hle
    exact absurd hlt (UInt64.not_lt.mpr hle)
  obtain ⟨r, hr, hshm⟩ := hm.object k hregion
  have hstart : startOf maps k = r.addr := by
    rw [startOf, hr]
    rfl
  have hmmap : ((msg.installed (startOf maps) msg.msg.payload.nregions.toNat).regions k).mmapAddr =
      r.addr + (msg.msg.payload.region k).mmapOffset := by
    rw [← hstart, installed_of_pos _ hregion]
    rfl
  rw [h.memory, VhostServerMemory.mapAddr_of_regionOf
    ((regionOf_installed hbase (startOf maps) a).trans hk), hmmap,
    base_installed hbase (startOf maps) fun _ => 0]
  intro j hj
  have hsub := UInt64.toNat_sub_of_le _ _ hle
  rw [ServerMsg.offsetOf] at hend
  have hoff : (msg.msg.payload.region k).mmapOffset + (a -
      base ((msg.installed (fun _ => 0) msg.msg.payload.nregions.toNat).regions k)) + .ofNat j =
      .ofNat (msg.offsetOf base a k + j) := by
    rw [ServerMsg.offsetOf, ← hsub, UInt64.ofNat_add, UInt64.ofNat_add, UInt64.ofNat_toNat,
      UInt64.ofNat_toNat]
  have haddr : r.addr + (msg.msg.payload.region k).mmapOffset + a -
      base ((msg.installed (fun _ => 0) msg.msg.payload.nregions.toNat).regions k) + .ofNat j =
      r.addr + .ofNat (msg.offsetOf base a k + j) := by
    rw [← hoff, UInt64.sub_eq_add_neg, UInt64.sub_eq_add_neg]
    simp only [UInt64.add_assoc]
  rw [haddr, h.shows k r hregion.1 hregion.2 hr _ (by rw [ServerMsg.offsetOf]; omega), hshm]
  rfl

end Translation

/-! ### The same table in another process -/

/-- The same memory table for another process, where its descriptors have other numbers. -/
structure SameTable (msg msg' : ServerMsg) : Prop where
  body : msg'.msg = msg.msg
  fdNum : msg'.fdNum = msg.fdNum
  fds : ∀ k, 0 < msg'.fds k ↔ 0 < msg.fds k

namespace SameTable
variable {msg msg' : ServerMsg} (h : SameTable msg msg')
include h

theorem regionCount (n : Nat) : msg'.regionCount n = msg.regionCount n := by
  induction n with
  | zero => rfl
  | succ n ih => exact if_congr (h.fds n) (by rw [ih]) ih

theorem installed (start : Nat → UInt64) (n : Nat) :
    msg'.installed start n = msg.installed start n := by
  rw [ServerMsg.installed, ServerMsg.installed, ServerMsg.tableOver, ServerMsg.tableOver,
    h.regionCount]
  refine congrArg (VhostServerMemory.mk _) (funext fun k => ?_)
  refine if_congr (and_congr_right fun _ => h.fds k) ?_ rfl
  rw [ServerMsg.entry, ServerMsg.entry, h.body]

theorem locOf (base : VhostServerMemoryRegion → UInt64) (shm : Nat → Nat) (a : UInt64) :
    msg'.locOf base shm a = msg.locOf base shm a := by
  simp only [ServerMsg.locOf, ServerMsg.regionOf, ServerMsg.offsetOf, h.installed, h.body]

theorem holds (base : VhostServerMemoryRegion → UInt64) (a : UInt64) (n : Nat) :
    msg'.Holds base a n ↔ msg.Holds base a n := by
  simp only [ServerMsg.Holds, ServerMsg.regionOf, ServerMsg.offsetOf, h.installed, h.body]

/-- `_set_mem_table` passes the same checks. -/
theorem setMemTableLoop_simulates {maps : Nat → Option MapResult}
    (maps' : Nat → Option MapResult) (todo : Nat) :
    ∀ (n : Nat) (w w' : World), Outcome.Simulates (fun _ _ => True)
      (setMemTableLoop msg maps todo n w) (setMemTableLoop msg' maps' todo n w') := by
  induction todo with
  | zero => exact fun _ _ _ => .ret trivial
  | succ todo ih =>
      intro n w w'
      refine Outcome.Simulates.bind (R := fun _ _ => True) ?_ fun w1 w1' _ _ _ => ih (n + 1) w1 w1'
      refine (Outcome.Simulates.refl (fun _ => rfl) _).bind fun _ _ _ _ _ => ?_
      by_cases hfd : 0 < msg.fds n
      · rw [if_pos hfd, if_pos ((h.fds n).mpr hfd), h.fdNum]
        exact (Outcome.Simulates.refl (fun _ => rfl) _).bind fun _ _ _ _ _ => .ret trivial
      · rw [if_neg hfd, if_neg fun hfd' => hfd ((h.fds n).mp hfd')]
        exact .ret trivial

end SameTable

end Vapp
