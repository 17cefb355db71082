import Vapp.FreeList
import Vapp.GuestRanges

/-! # What `put_vring` writes

The packet is compared with the length of the descriptor; what is written is a header and
the packet.  The buffers lie back to back, so that a packet within a header of the end of its
buffer is continued in the next one.
-/
namespace Vapp

open Counter16

variable {κ : Type} {sp : AddrSpace} {i : RingIdx} {t : VringTable κ} {m n : Mem}
  {buf : List UInt8}

/-! ### The same call on other bytes -/

theorem Mem.setBytes_singleton (m : Mem) (l : Loc) (b : UInt8) : (m.setBytes l [b]).byte l = b := by
  simp [Mem.setBytes]

/-- A byte that differs after a store is one of those that were stored. -/
theorem Mem.exists_of_setBytes_ne {m : Mem} {l x : Loc} {bs : List UInt8}
    (h : (m.setBytes l bs).byte x ≠ m.byte x) : ∃ k, k < bs.length ∧ x = l.add k := by
  have hin : ¬ (x.shm ≠ l.shm ∨ x.off < l.off ∨ l.off + bs.length ≤ x.off) := fun hout =>
    h (Mem.setBytes_byte_of_outside m l bs x hout)
  have hshm : x.shm = l.shm := by omega
  refine ⟨x.off - l.off, by omega, ?_⟩
  rw [Loc.add, Nat.add_sub_cancel' (by omega), ← hshm]

theorem Loc.outside_of_ne {l l₀ : Loc} (h : l ≠ l₀) :
    l.shm ≠ l₀.shm ∨ l.off < l₀.off ∨ l₀.off + 1 ≤ l.off := by
  by_cases hshm : l.shm = l₀.shm
  · have hoff : l.off ≠ l₀.off := by
      intro hoff
      apply h
      cases l
      cases l₀
      exact congrArg₂ Loc.mk hshm hoff
    exact .inr (by omega)
  · exact .inl hshm

/-- Where the bytes come to lie does not depend on what was there before. -/
theorem writeBytes_again {bs : List UInt8} : ∀ {m n m' : Mem} {a : UInt64},
    writeBytes sp m a bs = .ret m' → ∃ n', writeBytes sp n a bs = .ret n' ∧
      ∀ l, (m.byte l = n.byte l ∨ ∃ k, k < bs.length ∧ sp.resolve (a + .ofNat k) = some l) →
        n'.byte l = m'.byte l := by
  induction bs with
  | nil =>
      intro m n m' a h
      cases h
      refine ⟨n, rfl, fun l hl => ?_⟩
      rcases hl with hl | ⟨k, hk, -⟩
      · exact hl.symm
      · exact absurd hk (Nat.not_lt_zero k)
  | cons b bs ih =>
      intro m n m' a h
      obtain ⟨l₀, hl₀, h⟩ := Outcome.bind_eq_ret.mp h
      obtain ⟨n', hn', hsame⟩ := @ih (m.setBytes l₀ [b]) (n.setBytes l₀ [b]) m' (a + 1) h
      refine ⟨n', Outcome.bind_eq_ret.mpr ⟨l₀, hl₀, hn'⟩, fun l hl => hsame l ?_⟩
      by_cases heq : l = l₀
      · subst heq
        exact .inl (by rw [Mem.setBytes_singleton, Mem.setBytes_singleton])
      · have hout := Loc.outside_of_ne heq
        rw [Mem.setBytes_byte_of_outside _ _ _ _ hout, Mem.setBytes_byte_of_outside _ _ _ _ hout]
        rcases hl with hl | ⟨k, hk, hres⟩
        · exact .inl hl
        · cases k with
          | zero =>
              rw [show a + .ofNat 0 = a by simp, deref_eq_ret.mp hl₀] at hres
              exact absurd (Option.some.inj hres).symm heq
          | succ k =>
              refine .inr ⟨k, Nat.lt_of_succ_lt_succ hk, ?_⟩
              rw [← hres, UInt64.ofNat_add, UInt64.add_assoc, UInt64.add_comm 1]
              rfl

theorem addAvail_again {p : UInt64} {num : UInt32} {a : UInt16} {m' : Mem}
    (h : addAvail sp p num a m = .ret m') (havail : n.avail = m.avail) :
    ∃ n', addAvail sp p num a n = .ret n' ∧ n'.byte = n.byte := by
  obtain ⟨l, hl, h⟩ := Outcome.bind_eq_ret.mp h
  obtain ⟨_, hnum, h⟩ := Outcome.bind_eq_ret.mp h
  obtain ⟨_, hslot, h⟩ := Outcome.bind_eq_ret.mp h
  refine ⟨_, addAvail_of_resolve (deref_eq_ret.mp hl) (Outcome.require_eq_ret.mp hnum) ?_, rfl⟩
  rw [havail]
  exact Outcome.require_eq_ret.mp hslot

/-- The stores of a call of `put_vring` that took the descriptor `d`. -/
structure PutStores (sp : AddrSpace) (t : VringTable κ) (i : RingIdx) (buf : List UInt8) (m : Mem)
    (d : VringDesc) (m₁ m₂ m₃ m' : Mem) : Prop where
  into : PutsInto sp t i buf m d
  header : writeBytes sp m (t.translate d.addr) (List.replicate virtioNetHdrSize 0) = .ret m₁
  packet : writeBytes sp m₁ (t.translate d.addr + .ofNat virtioNetHdrSize) buf = .ret m₂
  desc : storeDesc sp m₂ (t.vring i).desc (t.vring i).lastAvailIdx.toNat
    { d with len := .ofNat (virtioNetHdrSize + buf.length), flags := 0, next := vringIdxNone } =
      .ret m₃
  entry : addAvail sp (t.vring i).avail (t.vring i).num (t.vring i).lastAvailIdx m₃ = .ret m'

theorem PutStores.putVring_eq {d : VringDesc} {m₁ m₂ m₃ m' : Mem}
    (h : PutStores sp t i buf m d m₁ m₂ m₃ m') :
    putVring sp t i buf m =
      .ret (0, t.setVring i { t.vring i with lastAvailIdx := d.next }, m') := by
  simp only [h.into.eq, h.header, h.packet, h.desc, h.entry, Outcome.ret_bind, Outcome.pure_eq]

/-- The bytes are those that the two copies leave. -/
theorem PutStores.byte {d : VringDesc} {m₁ m₂ m₃ m' : Mem}
    (h : PutStores sp t i buf m d m₁ m₂ m₃ m') : m'.byte = m₂.byte := by
  obtain ⟨_, -, rfl⟩ := storeDesc_ret h.desc
  obtain ⟨_, -, rfl⟩ := addAvail_ret h.entry
  rfl

theorem putVring_stores {t' : VringTable κ} {m' : Mem}
    (h : putVring sp t i buf m = .ret (0, t', m')) :
    ∃ d m₁ m₂ m₃, PutStores sp t i buf m d m₁ m₂ m₃ m' ∧
      t' = t.setVring i { t.vring i with lastAvailIdx := d.next } := by
  obtain ⟨d, hd, hrest⟩ := Outcome.bind_eq_ret.mp h
  rcases Nat.lt_or_ge d.len.toNat buf.length with hlt | hge
  · rw [if_pos hlt] at hrest
    cases hrest
  · have hinto : PutsInto sp t i buf m d := ⟨hd, hge⟩
    rw [hinto.eq] at h
    obtain ⟨m₁, h₁, h⟩ := Outcome.bind_eq_ret.mp h
    obtain ⟨m₂, h₂, h⟩ := Outcome.bind_eq_ret.mp h
    obtain ⟨m₃, h₃, h⟩ := Outcome.bind_eq_ret.mp h
    obtain ⟨m₄, h₄, h⟩ := Outcome.bind_eq_ret.mp h
    cases h
    exact ⟨d, m₁, m₂, m₃, ⟨hinto, h₁, h₂, h₃, h₄⟩, rfl⟩

/-- A byte of the packet is stored whatever the buffers held. -/
theorem putVring_again {t' : VringTable κ} {m' : Mem} (h : putVring sp t i buf m = .ret (0, t', m'))
    (byte : Loc → UInt8) :
    ∃ n', putVring sp t i buf { m with byte := byte } = .ret (0, t', n') ∧
      ∀ d l k, loadDesc sp m (t.vring i).desc (t.vring i).lastAvailIdx.toNat = .ret d →
        k < buf.length →
        sp.resolve (t.translate d.addr + .ofNat virtioNetHdrSize + .ofNat k) = some l →
        n'.byte l = m'.byte l := by
  obtain ⟨d, m₁, m₂, m₃, hm, rfl⟩ := putVring_stores h
  obtain ⟨n₁, hn₁, -⟩ := writeBytes_again (n := { m with byte := byte }) hm.header
  obtain ⟨n₂, hn₂, hbyte⟩ := writeBytes_again (n := n₁) hm.packet
  obtain ⟨D, hD, ha, rfl⟩ := loadDesc_ret hm.into.load
  have hstore := storeDesc_of_resolve (m := n₂) (d := { m.desc D (t.vring i).lastAvailIdx.toNat with
    len := .ofNat (virtioNetHdrSize + buf.length), flags := 0, next := vringIdxNone }) hD ha
  obtain ⟨D', hD', hm₃⟩ := storeDesc_ret hm.desc
  -- neither the descriptors nor the avail ring depend on the bytes
  have havail : n₂.avail = m₂.avail := by
    rw [(writeBytes_frame hn₂).2.1, (writeBytes_frame hn₁).2.1, (writeBytes_frame hm.packet).2.1,
      (writeBytes_frame hm.header).2.1]
  obtain ⟨n', hn', hlast⟩ := addAvail_again hm.entry
    (n := n₂.setDesc D (t.vring i).lastAvailIdx.toNat _) (by
      rw [hm₃]
      exact havail)
  have hn : PutStores sp t i buf { m with byte := byte } (m.desc D (t.vring i).lastAvailIdx.toNat)
      n₁ n₂ _ n' := ⟨⟨hm.into.load, hm.into.room⟩, hn₁, hn₂, hstore, hn'⟩
  refine ⟨n', hn.putVring_eq, fun d l k hd hk hl => ?_⟩
  cases hm.into.load.symm.trans hd
  rw [hn.byte, hm.byte]
  exact hbyte l (.inr ⟨k, hk, hl⟩)

/-- Where the whole buffer is seen, header and packet lie at its beginning. -/
theorem putVring_bytes {t' : VringTable κ} {m' : Mem} {d : VringDesc} {B : Loc}
    (h : putVring sp t i buf m = .ret (0, t', m'))
    (hd : loadDesc sp m (t.vring i).desc (t.vring i).lastAvailIdx.toNat = .ret d)
    (hB : Shows sp (t.translate d.addr) (virtioNetHdrSize + buf.length) B) :
    m'.byte = (m.setBytes B (List.replicate virtioNetHdrSize 0 ++ buf)).byte := by
  obtain ⟨d', m₁, m₂, m₃, hm, -⟩ := putVring_stores h
  cases hm.into.load.symm.trans hd
  have hhdr : (List.replicate virtioNetHdrSize (0 : UInt8)).length = virtioNetHdrSize :=
    List.length_replicate
  have h₁ : writeBytes sp m (t.translate d.addr) (List.replicate virtioNetHdrSize 0) =
      .ret (m.setBytes B (List.replicate virtioNetHdrSize 0)) :=
    writeBytes_of_shows (hB.mono (by rw [hhdr]; omega))
  cases hm.header.symm.trans h₁
  cases hm.packet.symm.trans (writeBytes_of_shows (Shows.drop virtioNetHdrSize hB))
  have happ := Mem.setBytes_append m B (List.replicate virtioNetHdrSize 0) buf
  rw [hhdr] at happ
  rw [hm.byte, happ]

/-! ### Inside the buffer -/

/-- A call of `put_vring` that takes a descriptor stores something in the byte `l`: there are
bytes that it replaces there. -/
def PutWrites (sp : AddrSpace) (t : VringTable κ) (i : RingIdx) (buf : List UInt8) (m : Mem)
    (l : Loc) : Prop :=
  ∃ byte t' n', putVring sp t i buf { m with byte := byte } = .ret (0, t', n') ∧
    n'.byte l ≠ byte l

/-- One of the `BUFFER_SIZE` bytes that begin at the address of a descriptor. -/
def InBuffer (sp : AddrSpace) (t : VringTable κ) (d : VringDesc) (l : Loc) : Prop :=
  ∃ k, k < bufferSize ∧ sp.resolve (t.translate d.addr + .ofNat k) = some l

/-- A call of `put_vring` that has left `m'` behind wrote inside the buffer it took. -/
structure PutInside (sp : AddrSpace) (i : RingIdx) (D : Loc) (s : ProdState κ) (buf : List UInt8)
    (m' : Mem) : Prop where
  written : ∀ l, PutWrites sp s.table i buf s.mem l →
    InBuffer sp s.table (s.mem.desc D (s.head i).toNat) l
  buffers : ∀ d, d < vhostVringSize → d ≠ (s.head i).toNat → ∀ l,
    InBuffer sp s.table (s.mem.desc D d) l → m'.byte l = s.mem.byte l
  len : (m'.desc D (s.head i).toNat).len.toNat ≤ bufferSize
  descs : ∀ d, d ≠ (s.head i).toNat → m'.desc D d = s.mem.desc D d

section Inside
variable {base : UInt64} {shm : Nat} {s : ProdState κ} {t' : VringTable κ} {m' : Mem}

/-- Where the bytes of a buffer are. -/
theorem ProdWired.inBuffer_iff (h : ProdWired sp i base shm s) {d : Nat} (hd : d < vhostVringSize)
    {l : Loc} : InBuffer sp s.table (s.mem.desc ⟨shm, offsetofDesc⟩ d) l ↔
      ∃ k, k < bufferSize ∧ l = (bufferLoc base shm d).add k := by
  have hshow := h.sees.buffer hd (Nat.le_add_left bufferSize virtioNetHdrSize)
  rw [InBuffer, h.addr d hd]
  refine exists_congr fun k => and_congr_right fun hk => ?_
  rw [hshow k hk]
  exact ⟨fun heq => (Option.some.inj heq).symm, fun heq => congrArg some heq.symm⟩

/-- The descriptor that a packet is put in. -/
theorem ProdWired.put_load (h : ProdWired sp i base shm s)
    (hput : putVring sp s.table i buf s.mem = .ret (0, t', m')) :
    (s.head i).toNat < vhostVringSize ∧
      loadDesc sp s.mem (s.table.vring i).desc (s.table.vring i).lastAvailIdx.toNat =
        .ret (s.mem.desc ⟨shm, offsetofDesc⟩ (s.head i).toNat) := by
  obtain ⟨d, m₁, m₂, m₃, hm, -⟩ := putVring_stores hput
  obtain ⟨D, hD, ha, rfl⟩ := loadDesc_ret hm.into.load
  cases hD.symm.trans h.desc
  exact ⟨ha, hm.into.load⟩

/-- The descriptors behind the call. -/
theorem ProdWired.put_desc (h : ProdWired sp i base shm s)
    (hput : putVring sp s.table i buf s.mem = .ret (0, t', m')) :
    m'.desc = (s.mem.setDesc ⟨shm, offsetofDesc⟩ (s.head i).toNat
      { s.mem.desc ⟨shm, offsetofDesc⟩ (s.head i).toNat with
        len := .ofNat (virtioNetHdrSize + buf.length)
        flags := 0
        next := vringIdxNone }).desc := by
  rcases putVring_ret hput with ⟨hr, -⟩ | ⟨-, D, A, hD, -, -, -, -, hdesc, -, -⟩
  · exact absurd hr (by decide)
  · cases hD.symm.trans h.desc
    exact hdesc

/-- What lies in one buffer lies outside of another one. -/
theorem bufferLoc_apart {a d k n : Nat} (hne : d ≠ a) (hk : k < bufferSize) (hn : n ≤ bufferSize) :
    ((bufferLoc base shm d).add k).off < (bufferLoc base shm a).off ∨
      (bufferLoc base shm a).off + n ≤ ((bufferLoc base shm d).add k).off := by
  simp only [Loc.add, bufferLoc]
  rcases Nat.lt_or_gt_of_ne hne with hlt | hgt
  · have := Nat.mul_le_mul_left bufferSize (Nat.succ_le_of_lt hlt)
    rw [Nat.mul_succ] at this
    exact .inl (by omega)
  · have := Nat.mul_le_mul_left bufferSize (Nat.succ_le_of_lt hgt)
    rw [Nat.mul_succ] at this
    exact .inr (by omega)

/-- A packet of at most `ETH_PACKET_SIZE` bytes stays in its buffer. -/
theorem ProdWired.put_inside (h : ProdWired sp i base shm s)
    (hput : putVring sp s.table i buf s.mem = .ret (0, t', m'))
    (hlen : buf.length ≤ ethPacketSize) : PutInside sp i ⟨shm, offsetofDesc⟩ s buf m' := by
  obtain ⟨ha, hload⟩ := h.put_load hput
  have htotal : (List.replicate virtioNetHdrSize (0 : UInt8) ++ buf).length ≤ bufferSize := by
    rw [List.length_append, List.length_replicate, bufferSize]
    omega
  have hshow : Shows sp (s.table.translate (s.mem.desc ⟨shm, offsetofDesc⟩ (s.head i).toNat).addr)
      (virtioNetHdrSize + buf.length) (bufferLoc base shm (s.head i).toNat) := by
    rw [h.addr _ ha]
    refine h.sees.buffer ha ?_
    rw [bufferSize]
    omega
  have hdesc := h.put_desc hput
  refine ⟨fun l => ?_, fun d hd hne l hl => ?_, ?_, fun d hne => ?_⟩
  · rintro ⟨byte, u, n', hn, hdiff⟩
    rw [putVring_bytes hn hload hshow] at hdiff
    obtain ⟨k, hk, rfl⟩ := Mem.exists_of_setBytes_ne hdiff
    exact (h.inBuffer_iff ha).mpr ⟨k, Nat.lt_of_lt_of_le hk htotal, rfl⟩
  · obtain ⟨k, hk, rfl⟩ := (h.inBuffer_iff hd).mp hl
    rw [putVring_bytes hput hload hshow]
    exact Mem.setBytes_byte_of_outside _ _ _ _ (.inr (bufferLoc_apart hne hk htotal))
  · rw [hdesc, Mem.setDesc_desc_self, UInt32.toNat_ofNat_of_lt']
    · rwa [List.length_append, List.length_replicate] at htotal
    · have hsize : ethPacketSize = 1518 := rfl
      rw [virtioNetHdrSize_eq]
      exact show 10 + buf.length < 2 ^ 32 by omega
  · rw [hdesc, Mem.setDesc_desc_of_ne _ _ _ _ _ hne]

/-- **A packet stays in its buffer** exactly if it has at most `ETH_PACKET_SIZE` bytes. -/
theorem ProdWired.inside_iff (h : ProdWired sp i base shm s)
    (hput : putVring sp s.table i buf s.mem = .ret (0, t', m')) :
    PutInside sp i ⟨shm, offsetofDesc⟩ s buf m' ↔ buf.length ≤ ethPacketSize := by
  refine ⟨fun hin => ?_, h.put_inside hput⟩
  apply Nat.le_of_not_lt
  intro hlong
  obtain ⟨ha, hload⟩ := h.put_load hput
  -- the first byte behind the buffer is one of the packet
  have hseen : sp.resolve
      (s.table.translate (s.mem.desc ⟨shm, offsetofDesc⟩ (s.head i).toNat).addr +
        .ofNat virtioNetHdrSize + .ofNat ethPacketSize) =
      some ((bufferLoc base shm (s.head i).toNat).add bufferSize) := by
    rw [h.addr _ ha, UInt64.add_assoc, ← UInt64.ofNat_add]
    exact h.sees.buffer ha (Nat.le_refl _) bufferSize (by decide)
  generalize hl : (bufferLoc base shm (s.head i).toNat).add bufferSize = l at hseen
  have hwrites : PutWrites sp s.table i buf s.mem l := by
    obtain ⟨n', hn', hsame⟩ := putVring_again hput (Function.update s.mem.byte l (m'.byte l + 1))
    refine ⟨_, _, n', hn', ?_⟩
    rw [hsame _ l _ hload hlong hseen, Function.update_self]
    intro heq
    have hnat := congrArg UInt8.toNat heq
    rw [UInt8.toNat_add] at hnat
    have hone : (1 : UInt8).toNat = 1 := rfl
    omega
  obtain ⟨k, hk, heq⟩ := (h.inBuffer_iff ha).mp (hin.written l hwrites)
  rw [← hl] at heq
  have hoff := congrArg Loc.off heq
  simp only [Loc.add] at hoff
  omega

end Inside

/-! ### Over all runs -/

section Runs
variable {base : UInt64} {shm : Nat}

/-- **`put_vring` writes into the buffer it took** exactly when the packet has at most
`ETH_PACKET_SIZE` bytes, in every state that packets put and descriptors freed in any order lead
to from a new ring. -/
theorem put_inside_iff {t₀ : VringTable κ} {m₀ : Mem} (hsees : Sees sp t₀ base shm)
    (hdesc : sp.resolve (t₀.vring i).desc = some ⟨shm, offsetofDesc⟩) {ls : List ProdLabel}
    {s : ProdState κ}
    (hrun : Transition.Run (ProdStep sp i ⟨shm, offsetofDesc⟩) ⟨t₀, newVring base shm m₀, []⟩ ls s)
    {buf : List UInt8} {t' : VringTable κ} {m' : Mem}
    (hput : putVring sp s.table i buf s.mem = .ret (0, t', m')) :
    PutInside sp i ⟨shm, offsetofDesc⟩ s buf m' ↔ buf.length ≤ ethPacketSize :=
  (hrun.preserves (I := ProdWired sp i base shm) (fun _ _ _ h hs => h.step hs)
    (prodWired_newVring hsees hdesc m₀ [])).inside_iff hput

end Runs

/-- A packet of one byte. -/
theorem put_inside_iff_one : ∃ t' m',
    putVring bareSpace bareRing.table rxIdx [1] bareRing.mem = .ret (0, t', m') ∧
    (PutInside bareSpace rxIdx ⟨0, offsetofDesc⟩ bareRing [1] m' ↔
      [1].length ≤ ethPacketSize) := by
  obtain ⟨t', m', hput⟩ := @bareRing_put [1] (by decide)
  exact ⟨t', m', hput, put_inside_iff prodWired_bareRing.sees prodWired_bareRing.desc .nil hput⟩

/-- A packet of `BUFFER_SIZE` bytes is accepted, and its last ten bytes lie behind the buffer. -/
theorem full_buffer_overruns : ∃ t' m',
    putVring bareSpace bareRing.table rxIdx (List.replicate bufferSize 1) bareRing.mem =
      .ret (0, t', m') ∧
    ¬ PutInside bareSpace rxIdx ⟨0, offsetofDesc⟩ bareRing (List.replicate bufferSize 1) m' := by
  have hlen : (List.replicate bufferSize (1 : UInt8)).length = bufferSize := List.length_replicate
  obtain ⟨t', m', hput⟩ := bareRing_put (Nat.le_of_eq hlen)
  refine ⟨t', m', hput, fun hin => ?_⟩
  have := (prodWired_bareRing.inside_iff hput).mp hin
  rw [hlen] at this
  exact absurd this (by decide)

end Vapp
