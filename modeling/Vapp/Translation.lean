import Vapp.TableInstall

/-! # Where a translated address leads

`_map_guest_addr` and `_map_user_addr` search the installed table for the region that holds
an address.  With disjoint regions the search finds the only one; what it returns is an
address of the mapping of that region only if the offset of the region in its object is `0`
and the mapping succeeded, since `map_shm` always maps from the beginning of the object.
-/
namespace Vapp

/-- The two addresses that a region of guest memory is known by. -/
inductive AddrKind where
  | guest
  | user
  deriving DecidableEq, Repr

namespace AddrKind

/-- The first address of a region of a message. -/
def base : AddrKind → VhostUserMemoryRegion → UInt64
  | guest => (·.guestPhysAddr)
  | user => (·.userspaceAddr)

/-- The first address of an entry of the table. -/
def entryBase : AddrKind → VhostServerMemoryRegion → UInt64
  | guest => (·.guestPhysAddr)
  | user => (·.userspaceAddr)

/-- `_map_guest_addr` or `_map_user_addr`. -/
def translate : AddrKind → VhostServerMemory → UInt64 → UInt64
  | guest => mapGuestAddr
  | user => mapUserAddr

theorem translate_eq (kind : AddrKind) (memory : VhostServerMemory) (a : UInt64) :
    kind.translate memory a = memory.mapAddr kind.entryBase a := by
  cases kind <;> rfl

theorem entryBase_entry (kind : AddrKind) (msg : ServerMsg) (start : Nat → UInt64) (k : Nat) :
    kind.entryBase (msg.entry start k) = kind.base (msg.msg.payload.region k) := by
  cases kind <;> rfl

end AddrKind

namespace ServerMsg
variable (msg : ServerMsg)

/-- The number of bytes of a region. -/
def sizeOf (k : Nat) : Nat := (msg.msg.payload.region k).memorySize.toNat

/-- The first address of a region. -/
def baseOf (kind : AddrKind) (k : Nat) : Nat := (kind.base (msg.msg.payload.region k)).toNat

/-- The address lies in region `k`. -/
def Contains (kind : AddrKind) (k : Nat) (a : UInt64) : Prop :=
  k < msg.msg.payload.nregions.toNat ∧ msg.baseOf kind k ≤ a.toNat ∧
    a.toNat < msg.baseOf kind k + msg.sizeOf k

/-- A memory table whose regions all come with a descriptor, do not wrap around and are
disjoint, in both address spaces. -/
structure WellFormed : Prop where
  few : msg.msg.payload.nregions.toNat ≤ vhostMemoryMaxNregions
  sent : ∀ k, k < msg.msg.payload.nregions.toNat → 0 < msg.fds k ∧ k < msg.fdNum
  fits : ∀ kind k, k < msg.msg.payload.nregions.toNat →
    msg.baseOf kind k + msg.sizeOf k < 2 ^ 64
  disjoint : ∀ kind k l a, msg.Contains kind k a → msg.Contains kind l a → k = l

end ServerMsg

/-- What `mmap` promises: a new mapping does not wrap around, and overlaps no other one. -/
structure FreshMaps (msg : ServerMsg) (maps : Nat → Option MapResult) : Prop where
  fits : ∀ k r, k < msg.msg.payload.nregions.toNat → maps k = some r →
    r.addr.toNat + msg.sizeOf k ≤ 2 ^ 64
  apart : ∀ k l r s, k < l → l < msg.msg.payload.nregions.toNat → maps k = some r →
    maps l = some s → r.addr.toNat + msg.sizeOf k ≤ s.addr.toNat ∨
      s.addr.toNat + msg.sizeOf l ≤ r.addr.toNat

/-- The translations of an installed table are sound, and agree. -/
structure SoundTranslation (msg : ServerMsg) (maps : Nat → Option MapResult) (w : World) :
    Prop where
  sound : ∀ kind a, AddrKind.translate kind w.context.memory a ≠ 0 →
    ∃ k r, msg.Contains kind k a ∧ maps k = some r ∧
      r.addr ≤ kind.translate w.context.memory a ∧
      (kind.translate w.context.memory a).toNat < r.addr.toNat + msg.sizeOf k ∧
      w.space.resolve (kind.translate w.context.memory a) =
        some ⟨r.shm, (msg.msg.payload.region k).mmapOffset.toNat + (a.toNat - msg.baseOf kind k)⟩
  agree : ∀ k o, k < msg.msg.payload.nregions.toNat → o < msg.sizeOf k →
    mapGuestAddr w.context.memory ((msg.msg.payload.region k).guestPhysAddr + .ofNat o) =
      mapUserAddr w.context.memory ((msg.msg.payload.region k).userspaceAddr + .ofNat o)

/-! ### The search -/

section Search
variable {w : World} {msg : ServerMsg} {maps : Nat → Option MapResult}

/-- With a descriptor for each region, each region is stored. -/
theorem tableOver_of_sent (old : Nat → VhostServerMemoryRegion) (start : Nat → UInt64) {n : Nat}
    (hn : n < 2 ^ 32) (hsent : ∀ k, k < n → 0 < msg.fds k) :
    (msg.tableOver old start n).nregions.toNat = n ∧
      ∀ k, k < n → (msg.tableOver old start n).regions k = msg.entry start k := by
  refine ⟨?_, fun k hk => if_pos ⟨hk, hsent k hk⟩⟩
  rw [ServerMsg.tableOver, regionCount_toNat msg hn, List.filter_eq_self.mpr, List.length_range]
  exact fun k hk => decide_eq_true (hsent k (List.mem_range.mp hk))

/-- The table that a well-formed message leaves. -/
def Installs (msg : ServerMsg) (start : Nat → UInt64) (memory : VhostServerMemory) : Prop :=
  memory.nregions.toNat = msg.msg.payload.nregions.toNat ∧
    ∀ k, k < msg.msg.payload.nregions.toNat → memory.regions k = msg.entry start k

/-- A well-formed message is always installed. -/
theorem ServerMsg.WellFormed.out (h : msg.WellFormed) (maps : Nat → Option MapResult) (w : World) :
    (setMemTable maps w msg).out =
        .ret (0, msg, w.tabled msg maps msg.msg.payload.nregions.toNat) ∧
      Installs msg (startOf maps)
        (w.tabled msg maps msg.msg.payload.nregions.toNat).context.memory := by
  have hfew : msg.msg.payload.nregions.toNat ≤ 8 := h.few
  refine ⟨?_, tableOver_of_sent _ _ (by omega) fun k hk => (h.sent k hk).1⟩
  rcases setMemTable_cases w msg maps with ⟨⟨k, hk, -, hu⟩, -⟩ | ⟨-, ⟨-, hout⟩ | ⟨hlt, -⟩⟩
  · exact absurd hu.2 (Nat.not_le.mpr (h.sent k hk).2)
  · exact hout
  · exact absurd hlt (Nat.not_lt.mpr h.few)

variable {start : Nat → UInt64} {memory : VhostServerMemory} {kind : AddrKind} {a : UInt64}
  {k : Nat}

/-- The test of the search. -/
theorem covers_iff (hwf : msg.WellFormed) (hk : k < msg.msg.payload.nregions.toNat) :
    (kind.entryBase (msg.entry start k) ≤ a ∧
      a < kind.entryBase (msg.entry start k) + (msg.entry start k).memorySize) ↔
      msg.Contains kind k a := by
  have hfits := hwf.fits kind k hk
  have hsum : (kind.base (msg.msg.payload.region k) +
      (msg.msg.payload.region k).memorySize).toNat = msg.baseOf kind k + msg.sizeOf k := by
    rw [UInt64.toNat_add]
    exact Nat.mod_eq_of_lt hfits
  rw [AddrKind.entryBase_entry, UInt64.le_iff_toNat_le, UInt64.lt_iff_toNat_lt]
  have hsize : (msg.entry start k).memorySize = (msg.msg.payload.region k).memorySize := rfl
  rw [hsize, hsum]
  exact ⟨fun h => ⟨hk, h⟩, fun h => h.2⟩

/-- **The search finds the region that holds the address.** -/
theorem regionOf_eq_some (hwf : msg.WellFormed) (hin : Installs msg start memory) :
    memory.regionOf kind.entryBase a = some k ↔ msg.Contains kind k a := by
  have hcovers {i : Nat} (hi : i < msg.msg.payload.nregions.toNat) :
      (kind.entryBase (memory.regions i) ≤ a ∧
        a < kind.entryBase (memory.regions i) + (memory.regions i).memorySize) ↔
        msg.Contains kind i a := by
    rw [hin.2 i hi]
    exact covers_iff hwf hi
  have hfound {i : Nat} (h : memory.regionOf kind.entryBase a = some i) :
      msg.Contains kind i a := by
    have hi := List.mem_range.mp (List.mem_of_find?_eq_some h)
    rw [hin.1] at hi
    exact (hcovers hi).mp (VhostServerMemory.covers_of_regionOf h)
  refine ⟨hfound, fun hk => ?_⟩
  cases hfind : memory.regionOf kind.entryBase a with
  | some i => rw [hwf.disjoint kind i k a (hfound hfind) hk]
  | none =>
      have hmem : k ∈ List.range memory.nregions.toNat := List.mem_range.mpr (hin.1 ▸ hk.1)
      exact absurd (decide_eq_true ((hcovers hk.1).mpr hk))
        (List.find?_eq_none.mp hfind k hmem)

/-- What an address in a region translates to. -/
theorem translate_of_contains (hwf : msg.WellFormed) (hin : Installs msg start memory)
    (h : msg.Contains kind k a) : kind.translate memory a =
      start k + (msg.msg.payload.region k).mmapOffset + .ofNat (a.toNat - msg.baseOf kind k) := by
  have hsub : a - kind.base (msg.msg.payload.region k) = .ofNat (a.toNat - msg.baseOf kind k) := by
    rw [← UInt64.toNat_inj, UInt64.toNat_sub_of_le _ _ (UInt64.le_iff_toNat_le.mpr h.2.1),
      UInt64.toNat_ofNat_of_lt' (Nat.lt_of_le_of_lt (Nat.sub_le _ _) a.toNat_lt)]
    rfl
  rw [kind.translate_eq, VhostServerMemory.mapAddr_of_regionOf ((regionOf_eq_some hwf hin).mpr h),
    hin.2 k h.1, AddrKind.entryBase_entry, ← hsub, UInt64.sub_eq_add_neg, UInt64.sub_eq_add_neg,
    ← UInt64.add_assoc]
  rfl

/-- An address in no region translates to `0`. -/
theorem translate_of_not_contains (hwf : msg.WellFormed) (hin : Installs msg start memory)
    (h : ∀ k, ¬ msg.Contains kind k a) : kind.translate memory a = 0 := by
  have hnone : memory.regionOf kind.entryBase a = none := by
    cases hfind : memory.regionOf kind.entryBase a with
    | none => rfl
    | some k => exact absurd ((regionOf_eq_some hwf hin).mp hfind) (h k)
  have hnone : (List.range memory.nregions.toNat).find? (fun i =>
      decide (kind.entryBase (memory.regions i) ≤ a ∧
        a < kind.entryBase (memory.regions i) + (memory.regions i).memorySize)) = none := hnone
  rw [kind.translate_eq, VhostServerMemory.mapAddr, hnone]

/-- An address `o` bytes into a region. -/
theorem contains_add (hwf : msg.WellFormed) (kind : AddrKind) {o : Nat}
    (hk : k < msg.msg.payload.nregions.toNat) (ho : o < msg.sizeOf k) :
    msg.Contains kind k (kind.base (msg.msg.payload.region k) + .ofNat o) ∧
      (kind.base (msg.msg.payload.region k) + .ofNat o).toNat - msg.baseOf kind k = o := by
  have hfits := hwf.fits kind k hk
  have haddr : (kind.base (msg.msg.payload.region k) + UInt64.ofNat o).toNat =
      msg.baseOf kind k + o := by
    rw [UInt64.toNat_add, UInt64.toNat_ofNat_of_lt' (by
      show o < 2 ^ 64
      omega)]
    exact Nat.mod_eq_of_lt (Nat.lt_trans (Nat.add_lt_add_left ho _) hfits)
  rw [ServerMsg.Contains, haddr]
  exact ⟨⟨hk, by omega, by omega⟩, by omega⟩

/-- **The two translations agree.** -/
theorem translations_agree (hwf : msg.WellFormed) (hin : Installs msg start memory) {o : Nat}
    (hk : k < msg.msg.payload.nregions.toNat) (ho : o < msg.sizeOf k) :
    mapGuestAddr memory ((msg.msg.payload.region k).guestPhysAddr + .ofNat o) =
      mapUserAddr memory ((msg.msg.payload.region k).userspaceAddr + .ofNat o) := by
  obtain ⟨hguest, hg⟩ := contains_add hwf .guest hk ho
  obtain ⟨huser, hu⟩ := contains_add hwf .user hk ho
  have hg' := translate_of_contains hwf hin hguest
  have hu' := translate_of_contains hwf hin huser
  rw [hg] at hg'
  rw [hu] at hu'
  exact hg'.trans hu'.symm

/-! ### The mappings -/

/-- The mappings of a message show their objects from the beginning. -/
theorem resolve_mappings (hm : FreshMaps msg maps) {rest : AddrSpace} {r : MapResult} {off n : Nat}
    (hsent : ∀ k, k < n → 0 < msg.fds k) (hn : n ≤ msg.msg.payload.nregions.toNat) (hk : k < n)
    (hr : maps k = some r) (hoff : off < msg.sizeOf k) :
    AddrSpace.resolve (msg.mappings maps n ++ rest) (r.addr + .ofNat off) =
      some ⟨r.shm, off⟩ := by
  induction n with
  | zero => omega
  | succ n ih =>
      have hfits := hm.fits k r (by omega) hr
      have haddr : (r.addr + UInt64.ofNat off).toNat = r.addr.toNat + off :=
        toNat_add_ofNat (by omega)
      rw [ServerMsg.mappings, ServerMsg.mapping, if_pos (hsent n (by omega)), List.append_assoc]
      by_cases hkn : k = n
      · subst hkn
        rw [hr]
        exact resolve_front hfits hoff
      · have hbehind := ih (fun k hk => hsent k (by omega)) (by omega) (by omega)
        cases hs : maps n with
        | none => exact hbehind
        | some s =>
            refine (resolve_behind ?_).trans hbehind
            rw [haddr]
            rcases hm.apart k n r s (by omega) (by omega) hr hs with hle | hle
            · exact .inl (show r.addr.toNat + off < s.addr.toNat by omega)
            · exact .inr (Nat.le_trans hle (Nat.le_add_right _ _))

end Search

/-! ### Soundness -/

/-- Where a region can be reached: its mapping starts with its first byte.  A failed mapping
leaves the offset in the place of an address, which is `0` for at most one byte; and so does a
range behind the mapping that starts right at the top of the address space. -/
def ServerMsg.Reached (msg : ServerMsg) (maps : Nat → Option MapResult) (k : Nat) : Prop :=
  let r := msg.msg.payload.region k
  match maps k with
  | some m => r.memorySize = 0 ∨ r.mmapOffset = 0 ∨
      (m.addr + r.mmapOffset + (r.memorySize - 1) = 0 ∧ (r.memorySize = 1 ∨ r.mmapOffset = 1))
  | none => r.memorySize = 0 ∨ (r.memorySize = 1 ∧ r.mmapOffset = 0)

section Sound
variable {w : World} {msg : ServerMsg} {maps : Nat → Option MapResult} {k : Nat}

/-- The byte `o` of a region is translated to an address of its mapping, or not at all. -/
def ServerMsg.ByteSound (msg : ServerMsg) (maps : Nat → Option MapResult) (k o : Nat) : Prop :=
  startOf maps k + (msg.msg.payload.region k).mmapOffset + .ofNat o ≠ 0 →
    (maps k).isSome = true ∧ (msg.msg.payload.region k).mmapOffset.toNat + o < msg.sizeOf k

/-- Addresses behind the mapping, as numbers. -/
theorem offset_bound_iff {p f s : Nat} (hf : f < 2 ^ 64) (hfits : p + s ≤ 2 ^ 64) :
    (∀ o, o < s → (p + f + o) % 2 ^ 64 ≠ 0 → f + o < s) ↔
      s = 0 ∨ f = 0 ∨ ((p + f + (s - 1)) % 2 ^ 64 = 0 ∧ (s = 1 ∨ f = 1)) := by
  constructor
  · intro h
    by_cases hs : s = 0
    · exact .inl hs
    · by_cases hzero : f = 0
      · exact .inr (.inl hzero)
      · refine .inr (.inr ?_)
        have hlast : (p + f + (s - 1)) % 2 ^ 64 = 0 := by
          by_contra hne
          have := h (s - 1) (by omega) hne
          omega
        refine ⟨hlast, ?_⟩
        by_contra hne
        have := h (s - 2) (by omega) (by omega)
        omega
  · rintro (rfl | rfl | ⟨hlast, hone⟩) o ho hne
    · omega
    · omega
    · rcases hone with rfl | rfl
      · obtain rfl : o = 0 := by omega
        exact absurd hlast hne
      · by_contra hge
        obtain rfl : o = s - 1 := by omega
        exact hne hlast

theorem offset_zero_iff {f s : Nat} (hf : f < 2 ^ 64) (hs : s < 2 ^ 64) :
    (∀ o, o < s → (f + o) % 2 ^ 64 = 0) ↔ s = 0 ∨ (s = 1 ∧ f = 0) := by
  constructor
  · intro h
    by_cases hzero : s = 0
    · exact .inl hzero
    · have h0 := h 0 (by omega)
      refine .inr ⟨?_, by omega⟩
      by_contra hne
      have h1 := h 1 (by omega)
      omega
  · rintro (rfl | ⟨rfl, rfl⟩) o ho
    · omega
    · obtain rfl : o = 0 := by omega
      rfl

/-- A byte of a region that is translated to an address of its mapping stands for itself. -/
theorem byteSound_of_sound (hwf : msg.WellFormed) (hfresh : FreshMaps msg maps)
    (h : SoundTranslation msg maps (w.tabled msg maps msg.msg.payload.nregions.toNat)) {o : Nat}
    (hk : k < msg.msg.payload.nregions.toNat) (ho : o < msg.sizeOf k) :
    msg.ByteSound maps k o := by
  intro hne
  obtain ⟨hcontains, hsub⟩ := contains_add hwf .guest hk ho
  have htr := translate_of_contains hwf (hwf.out maps w).2 hcontains
  rw [hsub] at htr
  rw [← htr] at hne
  obtain ⟨l, r, hl, hr, hlo, hhi, hres⟩ := h.sound .guest _ hne
  obtain rfl := hwf.disjoint _ _ _ _ hcontains hl
  -- the address is that of some byte of the mapping, so it stands for that byte
  have hlo := UInt64.le_iff_toNat_le.mp hlo
  generalize AddrKind.translate .guest _ _ = res at hlo hhi hres
  have haddr : res = r.addr + .ofNat (res.toNat - r.addr.toNat) := by
    have hfits := hfresh.fits k r hk hr
    rw [← UInt64.toNat_inj, toNat_add_ofNat (by omega)]
    omega
  have hbyte : AddrSpace.resolve (msg.mappings maps _ ++ w.space)
      (r.addr + .ofNat (res.toNat - r.addr.toNat)) = _ :=
    resolve_mappings hfresh (fun k hk => (hwf.sent k hk).1) (Nat.le_refl _) hk hr (by omega)
  rw [← haddr, ← tabled_space, hres, hsub] at hbyte
  have hoff := congrArg Loc.off (Option.some.inj hbyte)
  have hoff : (msg.msg.payload.region k).mmapOffset.toNat + o = res.toNat - r.addr.toNat := hoff
  exact ⟨by rw [hr]; rfl, by omega⟩

theorem sound_of_byteSound (hwf : msg.WellFormed) (hfresh : FreshMaps msg maps)
    (h : ∀ k o, k < msg.msg.payload.nregions.toNat → o < msg.sizeOf k → msg.ByteSound maps k o) :
    SoundTranslation msg maps (w.tabled msg maps msg.msg.payload.nregions.toNat) := by
  have hin := (hwf.out maps w).2
  refine ⟨fun kind a hne => ?_, fun k o hk ho => translations_agree hwf hin hk ho⟩
  by_cases hex : ∃ k, msg.Contains kind k a
  · obtain ⟨k, hk⟩ := hex
    have htr := translate_of_contains hwf hin hk
    have ho : a.toNat - msg.baseOf kind k < msg.sizeOf k := by
      have := hk.2
      omega
    rw [htr] at hne ⊢
    obtain ⟨hsome, hoff⟩ := h k _ hk.1 ho hne
    obtain ⟨r, hr⟩ := Option.isSome_iff_exists.mp hsome
    have hstart : startOf maps k = r.addr := by
      rw [startOf, hr]
      rfl
    have hfits := hfresh.fits k r hk.1 hr
    have hres : startOf maps k + (msg.msg.payload.region k).mmapOffset +
        .ofNat (a.toNat - msg.baseOf kind k) =
        r.addr + .ofNat ((msg.msg.payload.region k).mmapOffset.toNat +
          (a.toNat - msg.baseOf kind k)) := by
      rw [hstart, UInt64.ofNat_add, UInt64.ofNat_toNat, UInt64.add_assoc]
    have haddr : (r.addr + UInt64.ofNat ((msg.msg.payload.region k).mmapOffset.toNat +
        (a.toNat - msg.baseOf kind k))).toNat = r.addr.toNat +
          ((msg.msg.payload.region k).mmapOffset.toNat + (a.toNat - msg.baseOf kind k)) :=
      toNat_add_ofNat (by omega)
    rw [hres]
    refine ⟨k, r, hk, hr, ?_, ?_, ?_⟩
    · rw [UInt64.le_iff_toNat_le, haddr]
      omega
    · rw [haddr]
      omega
    · exact resolve_mappings hfresh (fun k hk => (hwf.sent k hk).1) (Nat.le_refl _) hk.1 hr hoff
  · rw [translate_of_not_contains hwf hin (not_exists.mp hex)] at hne
    exact absurd rfl hne

/-- Which regions are reached byte by byte. -/
theorem byteSound_iff_reached (hfresh : FreshMaps msg maps)
    (hk : k < msg.msg.payload.nregions.toNat) :
    (∀ o, o < msg.sizeOf k → msg.ByteSound maps k o) ↔ msg.Reached maps k := by
  have hmod (p : UInt64) (o : Nat) :
      p + (msg.msg.payload.region k).mmapOffset + .ofNat o = 0 ↔
        (p.toNat + (msg.msg.payload.region k).mmapOffset.toNat + o) % 2 ^ 64 = 0 := by
    rw [← UInt64.toNat_inj, UInt64.toNat_add, UInt64.toNat_add, UInt64.toNat_ofNat',
      UInt64.toNat_zero]
    omega
  have hword (u v : UInt64) : u = v ↔ u.toNat = v.toNat := UInt64.toNat_inj.symm
  have hoffset := (msg.msg.payload.region k).mmapOffset.toNat_lt
  have hsize := (msg.msg.payload.region k).memorySize.toNat_lt
  rw [ServerMsg.Reached]
  simp only [ServerMsg.ByteSound, ServerMsg.sizeOf, ne_eq, hmod]
  cases hr : maps k with
  | none =>
      have hstart : startOf maps k = 0 := by
        rw [startOf, hr]
        rfl
      have hiff := offset_zero_iff hoffset hsize
      simp only [hword, UInt64.toNat_zero, UInt64.toNat_one]
      simp only [hstart, UInt64.toNat_zero, Nat.zero_add, Option.isSome_none, Bool.false_eq_true,
        false_and, imp_false, not_not]
      exact hiff
  | some r =>
      have hstart : startOf maps k = r.addr := by
        rw [startOf, hr]
        rfl
      have hiff := offset_bound_iff hoffset (hfresh.fits k r hk hr)
      have hlast : 0 < (msg.msg.payload.region k).memorySize.toNat →
          (r.addr + (msg.msg.payload.region k).mmapOffset +
            ((msg.msg.payload.region k).memorySize - 1) = 0 ↔
            (r.addr.toNat + (msg.msg.payload.region k).mmapOffset.toNat +
              ((msg.msg.payload.region k).memorySize.toNat - 1)) % 2 ^ 64 = 0) := by
        intro hpos
        have hone : (msg.msg.payload.region k).memorySize - 1 =
            .ofNat ((msg.msg.payload.region k).memorySize.toNat - 1) := by
          rw [hword, UInt64.toNat_sub, UInt64.toNat_ofNat', UInt64.toNat_one]
          omega
        rw [hone]
        exact hmod _ _
      simp only [hstart, Option.isSome_some, true_and]
      refine hiff.trans ?_
      by_cases hzero : (msg.msg.payload.region k).memorySize = 0
      · exact ⟨fun _ => .inl hzero, fun _ => .inl ((hword _ _).mp hzero)⟩
      · have hpos : 0 < (msg.msg.payload.region k).memorySize.toNat :=
          Nat.pos_of_ne_zero fun h => hzero ((hword _ _).mpr h)
        rw [hlast hpos, hword _ 0, hword _ 0, hword _ 1, hword _ 1]
        rfl

/-- **Translation is sound** for a well-formed memory table if and only if each of its regions
is reached. -/
theorem translation_sound_iff (hwf : msg.WellFormed) (hfresh : FreshMaps msg maps) (w : World) :
    ∃ w', (setMemTable maps w msg).out = .ret (0, msg, w') ∧
      (SoundTranslation msg maps w' ↔
        ∀ k, k < msg.msg.payload.nregions.toNat → msg.Reached maps k) := by
  refine ⟨_, (hwf.out maps w).1, fun h k hk => ?_, fun h => ?_⟩
  · exact (byteSound_iff_reached hfresh hk).mp fun o => byteSound_of_sound hwf hfresh h hk
  · exact sound_of_byteSound hwf hfresh fun k o hk =>
      (byteSound_iff_reached hfresh hk).mpr (h k hk) o

end Sound

/-! ### One region -/

/-- A memory table with one region. -/
def oneRegionMsg (r : VhostUserMemoryRegion) : ServerMsg where
  msg :=
    { request := VhostUserRequest.setMemTable.word
      flags := 1
      size := 40
      payload := (Payload.setU32 (fun _ => 0) 0 1).setRegion 0 r }
  fdNum := 1
  fds _ := 5

section OneRegion
variable (r : VhostUserMemoryRegion)

@[simp] theorem nregions_oneRegionMsg : (oneRegionMsg r).msg.payload.nregions.toNat = 1 := by
  show (Payload.nregions (Payload.setRegion _ 0 r)).toNat = 1
  rw [Payload.nregions_setRegion, Payload.nregions, Payload.u32At_setU32]
  rfl

@[simp] theorem region_oneRegionMsg : (oneRegionMsg r).msg.payload.region 0 = r :=
  Payload.region_setRegion 0 r

variable {r}

/-- It is well-formed if the region does not wrap around. -/
theorem wellFormed_oneRegionMsg
    (hfits : ∀ kind : AddrKind, (kind.base r).toNat + r.memorySize.toNat < 2 ^ 64) :
    (oneRegionMsg r).WellFormed := by
  have hzero : ∀ {k}, k < (oneRegionMsg r).msg.payload.nregions.toNat → k = 0 := by
    intro k hk
    rw [nregions_oneRegionMsg] at hk
    omega
  refine ⟨?_, fun k hk => ?_, fun kind k hk => ?_, fun kind k l a hk hl => ?_⟩
  · rw [nregions_oneRegionMsg]
    decide
  · rw [hzero hk]
    exact ⟨show (0 : Int) < 5 by decide, Nat.zero_lt_one⟩
  · rw [hzero hk, ServerMsg.baseOf, ServerMsg.sizeOf, region_oneRegionMsg]
    exact hfits kind
  · rw [hzero hk.1, hzero hl.1]

theorem freshMaps_oneRegionMsg {m : MapResult}
    (hfits : m.addr.toNat + r.memorySize.toNat ≤ 2 ^ 64) :
    FreshMaps (oneRegionMsg r) fun _ => some m := by
  refine ⟨fun k s hk hs => ?_, fun k l s s' hkl hl => ?_⟩
  · rw [nregions_oneRegionMsg] at hk
    obtain rfl : k = 0 := by omega
    cases hs
    rw [ServerMsg.sizeOf, region_oneRegionMsg]
    exact hfits
  · rw [nregions_oneRegionMsg] at hl
    omega

end OneRegion

/-- A page that starts its object. -/
def pageRegion : VhostUserMemoryRegion := ⟨0, 0x1000, 0x10000, 0⟩

/-- The second page of an object. -/
def secondPage : VhostUserMemoryRegion := { pageRegion with mmapOffset := 0x1000 }

theorem pageRegion_fits (kind : AddrKind) :
    (kind.base pageRegion).toNat + pageRegion.memorySize.toNat < 2 ^ 64 := by
  cases kind <;> decide

/-- A region at the beginning of its object is translated soundly. -/
theorem translation_sound_iff_page :
    ∃ w', (setMemTable (fun _ => some someMap) ⟨newVhostServer 3 true, [], Mem.zero⟩
        (oneRegionMsg pageRegion)).out = .ret (0, oneRegionMsg pageRegion, w') ∧
      SoundTranslation (oneRegionMsg pageRegion) (fun _ => some someMap) w' := by
  obtain ⟨w', hout, hiff⟩ := translation_sound_iff (wellFormed_oneRegionMsg pageRegion_fits)
    (freshMaps_oneRegionMsg (m := someMap) (by decide)) ⟨newVhostServer 3 true, [], Mem.zero⟩
  refine ⟨w', hout, hiff.mpr fun k hk => ?_⟩
  rw [nregions_oneRegionMsg] at hk
  obtain rfl : k = 0 := by omega
  rw [ServerMsg.Reached, region_oneRegionMsg]
  exact .inr (.inl rfl)

/-- The second page of an object is translated to addresses behind the mapping, which covers as
many bytes but starts with the first page. -/
theorem second_page_translated_outside :
    (oneRegionMsg secondPage).WellFormed ∧
      FreshMaps (oneRegionMsg secondPage) (fun _ => some someMap) ∧
      ∃ w', (setMemTable (fun _ => some someMap) ⟨newVhostServer 3 true, [], Mem.zero⟩
          (oneRegionMsg secondPage)).out = .ret (0, oneRegionMsg secondPage, w') ∧
        ¬ SoundTranslation (oneRegionMsg secondPage) (fun _ => some someMap) w' := by
  have hwf : (oneRegionMsg secondPage).WellFormed := wellFormed_oneRegionMsg fun kind => by
    cases kind <;> decide
  refine ⟨hwf, freshMaps_oneRegionMsg (by decide), _, (hwf.out _ _).1, fun h => ?_⟩
  obtain ⟨k, r, hk, hr, -, hhi, -⟩ := h.sound .guest 0 (by decide +kernel)
  cases hr
  have hk := hk.1
  rw [nregions_oneRegionMsg] at hk
  obtain rfl : k = 0 := by omega
  revert hhi
  decide +kernel

end Vapp
