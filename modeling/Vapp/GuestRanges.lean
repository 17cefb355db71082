import Vapp.ChainWalk
import Vapp.Translation

/-! # The guest ranges that are touched

`map_handler` translates the first address of a buffer and says nothing of its length, and
neither the copy loop nor `put_vring` looks at what it returns.  What they dereference lies
in a region of guest memory exactly if the peer's descriptors do.
-/
namespace Vapp

/-- `n` bytes of guest memory from `a` on lie in one region of the message. -/
def ServerMsg.Covers (msg : ServerMsg) (a : UInt64) (n : Nat) : Prop :=
  0 < n → ∃ k, msg.Contains .guest k a ∧ a.toNat + n ≤ msg.baseOf .guest k + msg.sizeOf k

/-- `n` bytes at the pointer `p` are those of guest memory from `a` on, all in one region. -/
def Touches (msg : ServerMsg) (maps : Nat → Option MapResult) (sp : AddrSpace) (p a : UInt64)
    (n : Nat) : Prop :=
  0 < n → ∃ k r, msg.Contains .guest k a ∧
    a.toNat + n ≤ msg.baseOf .guest k + msg.sizeOf k ∧ maps k = some r ∧
    ∀ j, j < n → sp.resolve (p + .ofNat j) = some ⟨r.shm, a.toNat - msg.baseOf .guest k + j⟩

/-- A memory table whose regions start with their objects and are all mapped. -/
structure MappedTable (msg : ServerMsg) (maps : Nat → Option MapResult) : Prop where
  wellFormed : msg.WellFormed
  fresh : FreshMaps msg maps
  offset : ∀ k, k < msg.msg.payload.nregions.toNat → (msg.msg.payload.region k).mmapOffset = 0
  mapped : ∀ k, k < msg.msg.payload.nregions.toNat → (maps k).isSome

/-- The callbacks of the server, on a table that the message has left. -/
structure Serves (t : VringTable ServerContext) (w : World) : Prop where
  handlers : t.handlers = serverHandlers
  memory : t.context.memory = w.context.memory

section Range
variable {msg : ServerMsg} {maps : Nat → Option MapResult} {w : World}
  {t : VringTable ServerContext} {a : UInt64} {n : Nat}

theorem Serves.translate (h : Serves t w) (a : UInt64) :
    t.translate a = AddrKind.translate .guest w.context.memory a := by
  rw [VringTable.translate, h.handlers, ← h.memory]
  rfl

/-- **A range that one region covers is touched as it should be**, and no other one is. -/
theorem touches_iff_covers (hm : MappedTable msg maps)
    (ht : Serves t (w.tabled msg maps msg.msg.payload.nregions.toNat)) :
    Touches msg maps (w.tabled msg maps msg.msg.payload.nregions.toNat).space (t.translate a) a n ↔
      msg.Covers a n := by
  constructor
  · intro h hn
    obtain ⟨k, _, hk, hle, -, -⟩ := h hn
    exact ⟨k, hk, hle⟩
  · intro h hn
    obtain ⟨k, hk, hle⟩ := h hn
    obtain ⟨r, hr⟩ := Option.isSome_iff_exists.mp (hm.mapped k hk.1)
    have hstart : startOf maps k = r.addr := by
      rw [startOf, hr]
      rfl
    have htr := translate_of_contains hm.wellFormed (hm.wellFormed.out maps w).2 hk
    rw [hstart, hm.offset k hk.1, UInt64.add_zero] at htr
    refine ⟨k, r, hk, hle, hr, fun j hj => ?_⟩
    have hlow := hk.2.1
    rw [ht.translate, htr, UInt64.add_assoc, ← UInt64.ofNat_add, tabled_space]
    exact resolve_mappings hm.fresh (fun k hk => (hm.wellFormed.sent k hk).1) (Nat.le_refl _) hk.1
      hr (by omega)

/-- What is touched as it should be can be read. -/
theorem Touches.readable {sp : AddrSpace} {d : VringDesc}
    (h : Touches msg maps sp (t.translate d.addr) d.addr d.len.toNat) : Readable sp t d := by
  intro j hj
  obtain ⟨k, r, -, -, -, hres⟩ := h (Nat.lt_of_le_of_lt (Nat.zero_le j) hj)
  rw [hres j hj]
  rfl

end Range

/-! ### The copy loop -/

/-- Every `memcpy` of the copy loop from `head` on reads guest memory within one region. -/
def CopiesCovered (msg : ServerMsg) (maps : Nat → Option MapResult) (sp : AddrSpace)
    (t : VringTable ServerContext) (desc : UInt64) (m : Mem) (head : Nat) : Prop :=
  ∀ l s d, CopyRun sp t desc m head l s → loadDesc sp m desc s.i = .ret d →
    s.len + d.len < .ofNat ethPacketSize →
    Touches msg maps sp (t.translate d.addr) d.addr d.len.toNat

/-- The chain goes on behind the descriptor `d`, as far as lengths and flags go. -/
structure ChainStep (sp : AddrSpace) (desc : UInt64) (m : Mem) (p : WalkPoint) (d : VringDesc)
    (q : WalkPoint) : Prop where
  load : loadDesc sp m desc p.i = .ret d
  fits : p.len + d.len.toNat < ethPacketSize
  flag : d.flags &&& virtioDescFNext ≠ 0
  eq : q = ⟨d.next.toNat, p.len + d.len.toNat⟩

/-- Each descriptor of the chain from `head`, as far as the size test lets the loop go, is a
range within one region. -/
def ChainCovered (msg : ServerMsg) (sp : AddrSpace) (desc : UInt64) (m : Mem) (head : Nat) : Prop :=
  ∀ l p d, Transition.Run (ChainStep sp desc m) ⟨head, 0⟩ l p → loadDesc sp m desc p.i = .ret d →
    (p.len + d.len.toNat < ethPacketSize ∨ 2 ^ 32 ≤ p.len + d.len.toNat) →
    msg.Covers d.addr d.len.toNat

section Copies
variable {msg : ServerMsg} {maps : Nat → Option MapResult} {w : World}
  {t : VringTable ServerContext} {desc : UInt64} {m : Mem} {head : Nat}

/-- As long as what is copied is covered, the walk is the chain. -/
theorem walk_of_chain {sp : AddrSpace} (h : CopiesCovered msg maps sp t desc m head)
    {l : List VringDesc} {p : WalkPoint}
    (hchain : Transition.Run (ChainStep sp desc m) ⟨head, 0⟩ l p) : Walk sp t desc m head l p := by
  induction hchain with
  | nil => exact .nil
  | @snoc l p q d _ hstep ih =>
      obtain ⟨s, hrun, rfl⟩ := walk_copyRun ih
      have htest := (test_iff (copyRun_walk hrun).1.len).mpr (.inl hstep.fits)
      exact .snoc ih ⟨hstep.load, hstep.fits, (h l s d hrun hstep.load htest).readable, hstep.flag,
        hstep.eq⟩

/-- **The copies are covered** exactly if the chain is. -/
theorem copies_covered_iff (hm : MappedTable msg maps)
    (ht : Serves t (w.tabled msg maps msg.msg.payload.nregions.toNat)) (desc : UInt64) (m : Mem)
    (head : Nat) :
    CopiesCovered msg maps (w.tabled msg maps msg.msg.payload.nregions.toNat).space t desc m head ↔
      ChainCovered msg (w.tabled msg maps msg.msg.payload.nregions.toNat).space desc m head := by
  constructor
  · intro h l p d hchain hd htest
    obtain ⟨s, hrun, rfl⟩ := walk_copyRun (walk_of_chain h hchain)
    exact (touches_iff_covers hm ht).mp
      (h l s d hrun hd ((test_iff (copyRun_walk hrun).1.len).mpr htest))
  · intro h l s d hrun hd htest
    obtain ⟨hstate, hwalk⟩ := copyRun_walk hrun
    have hchain : Transition.Run (ChainStep _ desc m) _ _ _ :=
      hwalk.mono fun p d q hs => ⟨hs.load, hs.fits, hs.flag, hs.eq⟩
    exact (touches_iff_covers hm ht).mpr (h l _ d hchain hd ((test_iff hstate.len).mp htest))

end Copies

/-! ### `put_vring` -/

section Put
variable {κ : Type}

/-- `put_vring` gets to the buffer of the descriptor `d`. -/
structure PutsInto (sp : AddrSpace) (t : VringTable κ) (i : RingIdx) (buf : List UInt8) (m : Mem)
    (d : VringDesc) : Prop where
  load : loadDesc sp m (t.vring i).desc (t.vring i).lastAvailIdx.toNat = .ret d
  room : buf.length ≤ d.len.toNat

/-- What it does there: header and packet are written to the translated address. -/
theorem PutsInto.eq {sp : AddrSpace} {t : VringTable κ} {i : RingIdx} {buf : List UInt8} {m : Mem}
    {d : VringDesc} (h : PutsInto sp t i buf m d) :
    putVring sp t i buf m = (do
      let m ← writeBytes sp m (t.translate d.addr) (List.replicate virtioNetHdrSize 0)
      let m ← writeBytes sp m (t.translate d.addr + .ofNat virtioNetHdrSize) buf
      let m ← storeDesc sp m (t.vring i).desc (t.vring i).lastAvailIdx.toNat
        { d with len := .ofNat (virtioNetHdrSize + buf.length), flags := 0, next := vringIdxNone }
      let m ← addAvail sp (t.vring i).avail (t.vring i).num (t.vring i).lastAvailIdx m
      return (0, t.setVring i { t.vring i with lastAvailIdx := d.next }, m)) := by
  simp only [putVring, h.load, Outcome.ret_bind, if_neg (Nat.not_lt.mpr h.room)]
  rfl

end Put

/-- A call of `put_vring` that writes writes guest memory within one region. -/
def PutCovered (msg : ServerMsg) (maps : Nat → Option MapResult) (sp : AddrSpace)
    (t : VringTable ServerContext) (i : RingIdx) (buf : List UInt8) (m : Mem) : Prop :=
  ∀ d, PutsInto sp t i buf m d →
    Touches msg maps sp (t.translate d.addr) d.addr (virtioNetHdrSize + buf.length)

/-- The descriptor at the head of the ring refuses the packet, or has room for header and
packet within one region. -/
def HeadCovered (msg : ServerMsg) (sp : AddrSpace) (v : Vring) (buf : List UInt8) (m : Mem) :
    Prop :=
  ∀ d, loadDesc sp m v.desc v.lastAvailIdx.toNat = .ret d →
    d.len.toNat < buf.length ∨ msg.Covers d.addr (virtioNetHdrSize + buf.length)

section Both
variable {msg : ServerMsg} {maps : Nat → Option MapResult}

/-- **Guest ranges stay within their regions** exactly where the descriptors of the peer do:
each copy of the chain from any head, and each packet that is put. -/
theorem guest_ranges_iff (hm : MappedTable msg maps) (w : World) :
    ∃ w', (setMemTable maps w msg).out = .ret (0, msg, w') ∧
      ∀ (t : VringTable ServerContext) (m : Mem), Serves t w' →
        (∀ desc head, CopiesCovered msg maps w'.space t desc m head ↔
          ChainCovered msg w'.space desc m head) ∧
        ∀ i buf, PutCovered msg maps w'.space t i buf m ↔
          HeadCovered msg w'.space (t.vring i) buf m := by
  refine ⟨_, (hm.wellFormed.out maps w).1, fun t m ht => ⟨fun desc head =>
    copies_covered_iff hm ht desc m head, fun i buf => ⟨fun h d hd => ?_, fun h d hput => ?_⟩⟩⟩
  · rcases Nat.lt_or_ge d.len.toNat buf.length with hlt | hge
    · exact .inl hlt
    · exact .inr ((touches_iff_covers hm ht).mp (h d ⟨hd, hge⟩))
  · rcases h d hput.load with hlt | hcovers
    · exact absurd hput.room (Nat.not_le.mpr hlt)
    · exact (touches_iff_covers hm ht).mpr hcovers

end Both

/-! ### One page -/

/-- The server after a table of one page. -/
def pageWorld : World :=
  World.tabled ⟨newVhostServer 3 true, [], Mem.zero⟩ (oneRegionMsg pageRegion)
    (fun _ => some someMap) (oneRegionMsg pageRegion).msg.payload.nregions.toNat

theorem mappedTable_page : MappedTable (oneRegionMsg pageRegion) fun _ => some someMap where
  wellFormed := wellFormed_oneRegionMsg pageRegion_fits
  fresh := freshMaps_oneRegionMsg (by decide)
  offset k hk := by
    rw [nregions_oneRegionMsg] at hk
    obtain rfl : k = 0 := by omega
    rw [region_oneRegionMsg]
    rfl
  mapped _ _ := rfl

theorem serves_page : Serves pageWorld.server.table pageWorld := ⟨rfl, rfl⟩

/-- A ring at the beginning of the page all of whose descriptors are the same. -/
theorem loadDesc_page {d : VringDesc} {k : Nat} (hk : k < vhostVringSize) :
    loadDesc pageWorld.space (tableMem fun _ => d) someMap.addr k = .ret d := by
  have hres : pageWorld.space.resolve someMap.addr = some ⟨1, 0⟩ := by decide +kernel
  rw [loadDesc_of_resolve hres hk]
  rfl

/-- A range is covered if it lies in the page. -/
theorem covers_page {a : UInt64} {n : Nat} (hn : 0 < n) :
    (oneRegionMsg pageRegion).Covers a n ↔ a.toNat + n ≤ 0x1000 := by
  have hzero : ∀ {k}, (oneRegionMsg pageRegion).Contains .guest k a → k = 0 := by
    intro k hk
    have hlt := hk.1
    rw [nregions_oneRegionMsg] at hlt
    omega
  have hbase : (oneRegionMsg pageRegion).baseOf .guest 0 = 0 := by
    rw [ServerMsg.baseOf, region_oneRegionMsg]
    rfl
  have hsize : (oneRegionMsg pageRegion).sizeOf 0 = 0x1000 := by
    rw [ServerMsg.sizeOf, region_oneRegionMsg]
    rfl
  constructor
  · intro h
    obtain ⟨k, hk, hle⟩ := h hn
    obtain rfl := hzero hk
    rw [hbase, hsize] at hle
    omega
  · intro hle _
    refine ⟨0, ⟨?_, ?_, ?_⟩, ?_⟩
    · rw [nregions_oneRegionMsg]
      exact Nat.one_pos
    · rw [hbase]
      exact Nat.zero_le _
    · rw [hbase, hsize]
      omega
    · rw [hbase, hsize]
      omega

/-- A buffer in the middle of the page. -/
theorem guest_ranges_iff_page :
    ∃ w', (setMemTable (fun _ => some someMap) ⟨newVhostServer 3 true, [], Mem.zero⟩
        (oneRegionMsg pageRegion)).out = .ret (0, oneRegionMsg pageRegion, w') ∧
      CopiesCovered (oneRegionMsg pageRegion) (fun _ => some someMap) w'.space w'.server.table
        someMap.addr (tableMem fun _ => ⟨0x100, 12, 0, 0⟩) 0 := by
  obtain ⟨w', hout, h⟩ := guest_ranges_iff mappedTable_page ⟨newVhostServer 3 true, [], Mem.zero⟩
  have hw : w' = pageWorld := by
    have hpage := (mappedTable_page.wellFormed.out (fun _ => some someMap)
      ⟨newVhostServer 3 true, [], Mem.zero⟩).1
    have heq := Outcome.ret.inj (hout.symm.trans hpage)
    exact (Prod.mk.inj (Prod.mk.inj heq).2).2
  subst hw
  refine ⟨_, hout, ((h _ _ serves_page).1 _ _).mpr fun l p d _ hd _ => ?_⟩
  obtain ⟨_, _, hk, -⟩ := loadDesc_ret hd
  rw [loadDesc_page hk] at hd
  cases hd
  exact (covers_page (by decide)).mpr (by decide)

/-- A buffer that begins in the page and ends behind it is read to its end, and one that is in no
region is written at the address `0`. -/
theorem range_past_region_touched :
    ¬ CopiesCovered (oneRegionMsg pageRegion) (fun _ => some someMap) pageWorld.space
        pageWorld.server.table someMap.addr (tableMem fun _ => ⟨0xffc, 12, 0, 0⟩) 0 ∧
      ¬ PutCovered (oneRegionMsg pageRegion) (fun _ => some someMap) pageWorld.space
        (pageWorld.server.table.setVring rxIdx { initVring with desc := someMap.addr }) rxIdx []
        (tableMem fun _ => ⟨0x2000, 12, 0, 0⟩) := by
  constructor
  · intro h
    have hcovers := (touches_iff_covers mappedTable_page serves_page).mp
      (h [] _ _ .nil (loadDesc_page (by decide)) (by decide))
    exact absurd ((covers_page (by decide)).mp hcovers) (by decide)
  · intro h
    have hserves : Serves (pageWorld.server.table.setVring rxIdx
        { initVring with desc := someMap.addr }) pageWorld := ⟨rfl, rfl⟩
    have hputs : PutsInto pageWorld.space (pageWorld.server.table.setVring rxIdx
        { initVring with desc := someMap.addr }) rxIdx [] (tableMem fun _ => ⟨0x2000, 12, 0, 0⟩)
        ⟨0x2000, 12, 0, 0⟩ := by
      refine ⟨?_, Nat.zero_le _⟩
      rw [VringTable.setVring_self]
      exact loadDesc_page (by decide)
    have hcovers := (touches_iff_covers mappedTable_page hserves).mp (h _ hputs)
    exact absurd ((covers_page (by decide)).mp hcovers) (by decide)

end Vapp
