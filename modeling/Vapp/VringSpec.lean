import Vapp.ProcessAvail
import Vapp.Library.Counter16

/-! # What the ring functions do

One specification for each function of `vring.c`: its result where the accesses it makes
are valid, and, for the functions that are followed over whole runs, all that a call
which returned can have done.
-/
namespace Vapp

variable {κ : Type} {sp : AddrSpace} {t : VringTable κ} {i : RingIdx} {m : Mem}

/-! ### `new_vring` -/

theorem layoutDesc_apply (todo : Nat) : ∀ (k : Nat) (ptr : UInt64) (table : Nat → VringDesc),
    roundUp 8 ptr.toNat + bufferSize * todo + 7 < 2 ^ 64 → ∀ d,
    layoutDesc todo k ptr table d =
      if k ≤ d ∧ d < k + todo then
        { addr := .ofNat (roundUp 8 ptr.toNat + bufferSize * (d - k))
          len := .ofNat bufferSize
          flags := virtioDescFWrite
          next := .ofNat (d + 1) }
      else table d := by
  induction todo with
  | zero =>
      intro k ptr table _ d
      rw [layoutDesc, if_neg fun h => by omega]
  | succ todo ih =>
      intro k ptr table hb d
      have hmul : bufferSize * (todo + 1) = bufferSize * todo + 1528 := Nat.mul_succ ..
      rw [hmul] at hb
      have hround : ptr.toNat ≤ roundUp 8 ptr.toNat := by unfold roundUp; omega
      have halign := align_bufferAlignment (v := ptr) (by omega)
      -- the cursor after the first buffer is aligned, so rounding it again changes nothing
      have hnext : (align ptr bufferAlignment + .ofNat bufferSize).toNat =
          roundUp 8 ptr.toNat + 1528 := by
        rw [UInt64.toNat_add, halign, bufferSize_eq]
        have : (UInt64.ofNat 1528).toNat = 1528 := rfl
        omega
      have hagain : roundUp 8 (roundUp 8 ptr.toNat + 1528) = roundUp 8 ptr.toNat + 1528 := by
        unfold roundUp
        omega
      rw [layoutDesc, ih _ _ _ (by rw [hnext, hagain]; omega), hnext, hagain]
      by_cases hk : d = k
      · subst d
        rw [if_neg fun h => by omega, if_pos ⟨Nat.le_refl k, by omega⟩, Function.update_self,
          ← halign]
        simp
      · by_cases hd : k + 1 ≤ d ∧ d < k + 1 + todo
        · rw [if_pos hd, if_pos ⟨by omega, by omega⟩]
          have hsub : bufferSize * (d - k) = 1528 + bufferSize * (d - (k + 1)) := by
            rw [show d - k = d - (k + 1) + 1 from by omega, Nat.mul_succ, Nat.add_comm]
            rfl
          rw [hsub, Nat.add_assoc]
        · rw [if_neg hd, if_neg fun h => by omega, Function.update_of_ne hk]

/-- Every descriptor as `new_vring` leaves it. -/
theorem newVringTable_apply {base : UInt64} (hb : base.toNat + vhostClientPageSize.toNat ≤ 2 ^ 64)
    (table : Nat → VringDesc) {d : Nat} (hd : d < vhostVringSize) :
    newVringTable base table d =
      { addr := .ofNat (roundUp 8 (base.toNat + sizeofVhostVring) + bufferSize * d)
        len := .ofNat bufferSize
        flags := virtioDescFWrite
        next := if d + 1 = vhostVringSize then vringIdxNone else .ofNat (d + 1) } := by
  rw [vhostClientPageSize_toNat] at hb
  have hptr : (base + .ofNat sizeofVhostVring).toNat = base.toNat + sizeofVhostVring := by
    rw [UInt64.toNat_add, sizeofVhostVring_eq]
    have : (UInt64.ofNat 860160).toNat = 860160 := rfl
    omega
  have hroom : roundUp 8 (base + .ofNat sizeofVhostVring).toNat + bufferSize * vhostVringSize + 7
      < 2 ^ 64 := by
    rw [hptr, sizeofVhostVring_eq, bufferSize_eq, vhostVringSize_eq, roundUp]
    omega
  have hlay := layoutDesc_apply vhostVringSize 0 _ table hroom
  have hN := vhostVringSize_eq
  unfold newVringTable
  by_cases hlast : d + 1 = vhostVringSize
  · rw [show vhostVringSize - 1 = d from by omega, Function.update_self, hlay d, hptr,
      if_pos ⟨Nat.zero_le d, by omega⟩, if_pos hlast, Nat.sub_zero]
  · rw [Function.update_of_ne (by omega), hlay d, hptr,
      if_pos ⟨Nat.zero_le d, by omega⟩, if_neg hlast, Nat.sub_zero]

/-! ### `put_vring` -/

/-- The memory after `put_vring` has taken descriptor `a` for `buf`: header and packet
in the buffer at `B`, the descriptor rewritten, and the new entry in the avail ring. -/
def putMem (m : Mem) (D A B : Loc) (num : UInt32) (a : UInt16) (buf : List UInt8) : Mem :=
  ((m.setBytes B (List.replicate virtioNetHdrSize 0 ++ buf)).setDesc D a.toNat
    { m.desc D a.toNat with
      len := .ofNat (virtioNetHdrSize + buf.length)
      flags := 0
      next := vringIdxNone }).setAvail A ((m.avail A).add num a)

/-- An entry is added to the avail ring. -/
theorem addAvail_of_resolve {p : UInt64} {num : UInt32} {a : UInt16} {A : Loc}
    (hA : sp.resolve p = some A) (hnum : num ≠ 0)
    (hslot : (m.avail A).idx.toNat % num.toNat < vhostVringSize) :
    addAvail sp p num a m = .ret (m.setAvail A ((m.avail A).add num a)) := by
  simp only [addAvail, deref_of_resolve hA, Outcome.ret_bind, Outcome.require_pos hnum,
    Outcome.require_pos hslot, Outcome.pure_eq]

/-- A packet that fits the head of the free list is put there. -/
theorem putVring_of_fits {D A B : Loc} {buf : List UInt8}
    (hD : sp.resolve (t.vring i).desc = some D) (hA : sp.resolve (t.vring i).avail = some A)
    (ha : (t.vring i).lastAvailIdx.toNat < vhostVringSize)
    (hfit : buf.length ≤ (m.desc D (t.vring i).lastAvailIdx.toNat).len.toNat)
    (hB : Shows sp (t.translate (m.desc D (t.vring i).lastAvailIdx.toNat).addr)
      (virtioNetHdrSize + buf.length) B)
    (hnum : (t.vring i).num ≠ 0)
    (hslot : (m.avail A).idx.toNat % (t.vring i).num.toNat < vhostVringSize) :
    putVring sp t i buf m =
      .ret (0,
        t.setVring i { t.vring i with
          lastAvailIdx := (m.desc D (t.vring i).lastAvailIdx.toNat).next },
        putMem m D A B (t.vring i).num (t.vring i).lastAvailIdx buf) := by
  have hhdr : (List.replicate virtioNetHdrSize (0 : UInt8)).length = virtioNetHdrSize :=
    List.length_replicate
  have hhead : Shows sp (t.translate (m.desc D (t.vring i).lastAvailIdx.toNat).addr)
      (List.replicate virtioNetHdrSize (0 : UInt8)).length B := hB.mono (by rw [hhdr]; omega)
  have hw1 := writeBytes_of_shows (m := m) hhead
  have hw2 := writeBytes_of_shows (m := m.setBytes B (List.replicate virtioNetHdrSize 0))
    (Shows.drop virtioNetHdrSize hB)
  have happ := Mem.setBytes_append m B (List.replicate virtioNetHdrSize 0) buf
  rw [hhdr] at happ
  rw [happ] at hw2
  simp only [putVring, loadDesc_of_resolve hD ha, Outcome.ret_bind,
    if_neg (Nat.not_lt.mpr hfit), VringTable.setVring_translate, hw1, hw2,
    storeDesc_of_resolve hD ha]
  rw [addAvail_of_resolve hA hnum]
  · rfl
  · exact hslot

/-- A packet longer than the buffer of the head of the free list is refused. -/
theorem putVring_of_too_long {D : Loc} {buf : List UInt8}
    (hD : sp.resolve (t.vring i).desc = some D)
    (ha : (t.vring i).lastAvailIdx.toNat < vhostVringSize)
    (hlong : (m.desc D (t.vring i).lastAvailIdx.toNat).len.toNat < buf.length) :
    putVring sp t i buf m = .ret (-1, t, m) := by
  simp only [putVring, loadDesc_of_resolve hD ha, Outcome.ret_bind, if_pos hlong,
    Outcome.pure_eq]

/-- With an index past the table at the head of the free list, `put_vring` reads past
the table. -/
theorem putVring_of_out_of_range {D : Loc} {buf : List UInt8}
    (hD : sp.resolve (t.vring i).desc = some D)
    (ha : ¬ (t.vring i).lastAvailIdx.toNat < vhostVringSize) :
    putVring sp t i buf m = .fault (.subscript (t.vring i).lastAvailIdx.toNat) := by
  simp [putVring, loadDesc, deref_of_resolve hD, ha]

/-- Storing bytes leaves the ring structures alone. -/
theorem writeBytes_frame {bs : List UInt8} : ∀ {m m' : Mem} {a : UInt64},
    writeBytes sp m a bs = .ret m' →
      m'.desc = m.desc ∧ m'.avail = m.avail ∧ m'.used = m.used := by
  induction bs with
  | nil =>
      intro m m' a h
      cases h
      exact ⟨rfl, rfl, rfl⟩
  | cons b bs ih =>
      intro m m' a h
      obtain ⟨l, _, h⟩ := Outcome.bind_eq_ret.mp h
      obtain ⟨hd, ha, hu⟩ := ih h
      exact ⟨hd, ha, hu⟩

theorem loadDesc_ret {p : UInt64} {k : Nat} {d : VringDesc} (h : loadDesc sp m p k = .ret d) :
    ∃ l, sp.resolve p = some l ∧ k < vhostVringSize ∧ d = m.desc l k := by
  obtain ⟨l, hl, h⟩ := Outcome.bind_eq_ret.mp h
  obtain ⟨_, hk, h⟩ := Outcome.bind_eq_ret.mp h
  cases h
  exact ⟨l, deref_eq_ret.mp hl, Outcome.require_eq_ret.mp hk, rfl⟩

theorem storeDesc_ret {p : UInt64} {k : Nat} {d : VringDesc} {m' : Mem}
    (h : storeDesc sp m p k d = .ret m') :
    ∃ l, sp.resolve p = some l ∧ m' = m.setDesc l k d := by
  obtain ⟨l, hl, h⟩ := Outcome.bind_eq_ret.mp h
  obtain ⟨_, _, h⟩ := Outcome.bind_eq_ret.mp h
  cases h
  exact ⟨l, deref_eq_ret.mp hl, rfl⟩

theorem addAvail_ret {p : UInt64} {num : UInt32} {a : UInt16} {m' : Mem}
    (h : addAvail sp p num a m = .ret m') :
    ∃ l, sp.resolve p = some l ∧ m' = m.setAvail l ((m.avail l).add num a) := by
  obtain ⟨l, hl, h⟩ := Outcome.bind_eq_ret.mp h
  obtain ⟨_, _, h⟩ := Outcome.bind_eq_ret.mp h
  obtain ⟨_, _, h⟩ := Outcome.bind_eq_ret.mp h
  cases h
  exact ⟨l, deref_eq_ret.mp hl, rfl⟩

/-- **All that a call of `put_vring` that returned can have done**: nothing, with result
`-1`, or with result `0` the head of the free list was taken, rewritten and entered. -/
theorem putVring_ret {buf : List UInt8} {r : Int} {t' : VringTable κ} {m' : Mem}
    (h : putVring sp t i buf m = .ret (r, t', m')) :
    (r = -1 ∧ t' = t ∧ m' = m) ∨
    (r = 0 ∧ ∃ D A, sp.resolve (t.vring i).desc = some D ∧
      sp.resolve (t.vring i).avail = some A ∧
      (t.vring i).lastAvailIdx.toNat < vhostVringSize ∧
      buf.length ≤ (m.desc D (t.vring i).lastAvailIdx.toNat).len.toNat ∧
      t' = t.setVring i { t.vring i with
        lastAvailIdx := (m.desc D (t.vring i).lastAvailIdx.toNat).next } ∧
      m'.desc = (m.setDesc D (t.vring i).lastAvailIdx.toNat
        { m.desc D (t.vring i).lastAvailIdx.toNat with
          len := .ofNat (virtioNetHdrSize + buf.length)
          flags := 0
          next := vringIdxNone }).desc ∧
      m'.avail =
        (m.setAvail A ((m.avail A).add (t.vring i).num (t.vring i).lastAvailIdx)).avail ∧
      m'.used = m.used) := by
  obtain ⟨d, hd, h⟩ := Outcome.bind_eq_ret.mp h
  obtain ⟨D, hD, ha, rfl⟩ := loadDesc_ret hd
  split at h
  · cases h
    exact .inl ⟨rfl, rfl, rfl⟩
  · rename_i hfit
    obtain ⟨m1, h1, h⟩ := Outcome.bind_eq_ret.mp h
    obtain ⟨m2, h2, h⟩ := Outcome.bind_eq_ret.mp h
    obtain ⟨m3, h3, h⟩ := Outcome.bind_eq_ret.mp h
    obtain ⟨m4, h4, h⟩ := Outcome.bind_eq_ret.mp h
    cases h
    obtain ⟨hd1, ha1, hu1⟩ := writeBytes_frame h1
    obtain ⟨hd2, ha2, hu2⟩ := writeBytes_frame h2
    obtain ⟨D', hD', rfl⟩ := storeDesc_ret h3
    obtain ⟨A, hA, rfl⟩ := addAvail_ret h4
    rw [hD] at hD'
    cases hD'
    refine .inr ⟨rfl, D, A, hD, hA, ha, Nat.not_lt.mp hfit, rfl, ?_, ?_, hu2.trans hu1⟩
    · simp only [Mem.setAvail_desc, Mem.setDesc, hd2, hd1]
    · simp only [Mem.setAvail, Mem.setDesc_avail, ha2, ha1]

/-- `put_vring` refuses only a packet that does not fit. -/
theorem putVring_accepts {D : Loc} {buf : List UInt8} {r : Int} {t' : VringTable κ} {m' : Mem}
    (h : putVring sp t i buf m = .ret (r, t', m'))
    (hD : sp.resolve (t.vring i).desc = some D)
    (hfit : buf.length ≤ (m.desc D (t.vring i).lastAvailIdx.toNat).len.toNat) : r = 0 := by
  obtain ⟨d, hd, h⟩ := Outcome.bind_eq_ret.mp h
  obtain ⟨D', hD', _, rfl⟩ := loadDesc_ret hd
  cases hD.symm.trans hD'
  rw [if_neg (Nat.not_lt.mpr hfit)] at h
  obtain ⟨_, _, h⟩ := Outcome.bind_eq_ret.mp h
  obtain ⟨_, _, h⟩ := Outcome.bind_eq_ret.mp h
  obtain ⟨_, _, h⟩ := Outcome.bind_eq_ret.mp h
  obtain ⟨_, _, h⟩ := Outcome.bind_eq_ret.mp h
  cases h
  rfl

/-! ### `_free_vring` -/

/-- The memory after `_free_vring` has linked descriptor `d` in front of `head`. -/
def freeMem (m : Mem) (D : Loc) (d : Nat) (head : UInt16) : Mem :=
  m.setDesc D d
    { m.desc D d with
      len := .ofNat bufferSize
      flags := (m.desc D d).flags ||| virtioDescFWrite
      next := head }

/-- A descriptor of the table is returned to the front of the free list. -/
theorem freeVring_of_lt {D : Loc} {d : UInt32} (hD : sp.resolve (t.vring i).desc = some D)
    (hd : d.toNat < vhostVringSize) :
    freeVring sp t i d m =
      .ret (t.setVring i { t.vring i with lastAvailIdx := d.toUInt16 },
        freeMem m D d.toNat (t.vring i).lastAvailIdx) := by
  simp only [freeVring, Outcome.require_pos hd, Outcome.ret_bind, loadDesc_of_resolve hD hd,
    storeDesc_of_resolve hD hd]
  rfl

/-- An index past the table fails the assertion. -/
theorem freeVring_of_ge {d : UInt32} (hd : ¬ d.toNat < vhostVringSize) :
    freeVring sp t i d m = .fault .assertion := by
  simp only [freeVring, Outcome.require_neg hd, Outcome.fault_bind]

theorem freeVring_ret {d : UInt32} {t' : VringTable κ} {m' : Mem}
    (h : freeVring sp t i d m = .ret (t', m')) :
    d.toNat < vhostVringSize ∧ ∃ D, sp.resolve (t.vring i).desc = some D ∧
      t' = t.setVring i { t.vring i with lastAvailIdx := d.toUInt16 } ∧
      m' = freeMem m D d.toNat (t.vring i).lastAvailIdx := by
  obtain ⟨_, hd, h⟩ := Outcome.bind_eq_ret.mp h
  have hd := Outcome.require_eq_ret.mp hd
  obtain ⟨_, hl, h⟩ := Outcome.bind_eq_ret.mp h
  obtain ⟨D, hD, _, rfl⟩ := loadDesc_ret hl
  obtain ⟨_, hs, h⟩ := Outcome.bind_eq_ret.mp h
  obtain ⟨D', hD', rfl⟩ := storeDesc_ret hs
  cases h
  rw [hD] at hD'
  cases hD'
  exact ⟨hd, D, hD, rfl, rfl⟩

/-! ### `_process_desc` and the turns of `process_avail_vring` -/

/-- What a call of `_process_desc` leaves alone: the rings of its own table, its
callbacks and what they translate, and everything in memory but the used entries. -/
structure DescFrame (t t' : VringTable κ) (m m' : Mem) : Prop where
  vring : t'.vring = t.vring
  handlers : t'.handlers = t.handlers
  translate : ∀ a, t'.translate a = t.translate a
  desc : m'.desc = m.desc
  avail : m'.avail = m.avail
  byte : m'.byte = m.byte
  usedIdx : ∀ l, (m'.used l).idx = (m.used l).idx

theorem DescFrame.refl (t : VringTable κ) (m : Mem) : DescFrame t t m m :=
  ⟨rfl, rfl, fun _ => rfl, rfl, rfl, rfl, fun _ => rfl⟩

/-- A handler does not change what its party's `map_handler` returns. -/
theorem translate_consume {h : AvailHandler κ} (hh : t.handlers.availHandler = some h)
    (call : HandlerCall) (a : UInt64) :
    VringTable.translate { t with context := h.consume t.context call } a = t.translate a := by
  unfold VringTable.translate
  cases hmap : t.handlers.mapHandler with
  | none => rfl
  | some f => exact t.handlers.map_consume h hh f hmap t.context call a

theorem consumePacket_frame {c : CopyLoop} {r : DescResult κ}
    (h : consumePacket t m c = .ret r) : DescFrame t r.table m r.mem := by
  unfold consumePacket at h
  split at h
  · cases h
    exact .refl t m
  · rename_i hd hh
    obtain ⟨_, _, h⟩ := Outcome.bind_eq_ret.mp h
    cases h
    exact ⟨rfl, rfl, translate_consume hh _, rfl, rfl, rfl, fun _ => rfl⟩

theorem consumePacket_mem {c : CopyLoop} {r : DescResult κ}
    (h : consumePacket t m c = .ret r) : r.mem = m := by
  unfold consumePacket at h
  split at h
  · cases h
    rfl
  · obtain ⟨_, _, h⟩ := Outcome.bind_eq_ret.mp h
    cases h
    rfl

/-- The context after a call of `avail_handler`. -/
theorem consumePacket_context {c : CopyLoop} {r : DescResult κ} {call : HandlerCall}
    {hd : AvailHandler κ} (h : consumePacket t m c = .ret r)
    (hhd : t.handlers.availHandler = some hd) (hcall : r.call = some call) :
    r.table.context = hd.consume t.context call := by
  rw [consumePacket, hhd] at h
  obtain ⟨_, _, h⟩ := Outcome.bind_eq_ret.mp h
  cases h
  cases hcall
  rfl

theorem storeUsedElem_ret {p : UInt64} {k : Nat} {e : VringUsedElem} {m' : Mem}
    (h : storeUsedElem sp m p k e = .ret m') :
    ∃ l, sp.resolve p = some l ∧ k < vhostVringSize ∧
      m' = m.setUsed l { m.used l with ring := Function.update (m.used l).ring k e } := by
  obtain ⟨l, hl, h⟩ := Outcome.bind_eq_ret.mp h
  obtain ⟨_, hk, h⟩ := Outcome.bind_eq_ret.mp h
  cases h
  exact ⟨l, deref_eq_ret.mp hl, Outcome.require_eq_ret.mp hk, rfl⟩

theorem setUsed_ring_idx (m : Mem) (l l' : Loc) (ring : Nat → VringUsedElem) :
    ((m.setUsed l { m.used l with ring := ring }).used l').idx = (m.used l').idx := by
  by_cases h : l' = l
  · subst h
    simp
  · simp [Mem.setUsed, h]

/-- A used entry and the call of `avail_handler`. -/
theorem returned_frame {p : UInt64} {k : Nat} {e : VringUsedElem} {m' : Mem} {c : CopyLoop}
    {r : DescResult κ} (hstore : storeUsedElem sp m p k e = .ret m')
    (h : consumePacket t m' c = .ret r) : DescFrame t r.table m r.mem := by
  obtain ⟨l, _, _, rfl⟩ := storeUsedElem_ret hstore
  obtain ⟨h1, h2, h3, h4, h5, h6, h7⟩ := consumePacket_frame h
  exact ⟨h1, h2, h3, h4, h5, h6, fun l' => (h7 l').trans (setUsed_ring_idx m l l' _)⟩

/-- `_process_desc` drops an empty packet, and returns the entry of another one before it
hands it over. -/
theorem processDesc_cases {fuel : Nat} {a : UInt16} {r : DescResult κ}
    (h : processDesc sp fuel t i a m = .ret r) :
    ∃ d c, Outcome.loop (copyTurn sp t (t.vring i).desc m) fuel ⟨UInt16.toNat d, 0, []⟩ = .ret c ∧
      ((c.len = 0 ∧ r = ⟨-1, t, m, none⟩) ∨
       (c.len ≠ 0 ∧ ∃ m', storeUsedElem sp m (t.vring i).used
          ((t.vring i).lastUsedIdx.toNat % (t.vring i).num.toNat) ⟨d.toUInt32, c.len⟩ = .ret m' ∧
          consumePacket t m' c = .ret r)) := by
  obtain ⟨_, _, h⟩ := Outcome.bind_eq_ret.mp h
  obtain ⟨d, _, h⟩ := Outcome.bind_eq_ret.mp h
  obtain ⟨c, hcopy, h⟩ := Outcome.bind_eq_ret.mp h
  refine ⟨d, c, hcopy, ?_⟩
  split at h
  · cases h
    exact .inl ⟨‹_›, rfl⟩
  · obtain ⟨m', hstore, h⟩ := Outcome.bind_eq_ret.mp h
    exact .inr ⟨‹_›, m', hstore, h⟩

/-- **`_process_desc` changes nothing but used entries and its context.** -/
theorem processDesc_frame {fuel : Nat} {a : UInt16} {r : DescResult κ}
    (h : processDesc sp fuel t i a m = .ret r) : DescFrame t r.table m r.mem := by
  obtain ⟨d, c, _, ⟨_, rfl⟩ | ⟨_, m', hstore, h⟩⟩ := processDesc_cases h
  · exact .refl t m
  · exact returned_frame hstore h

/-- Both counters of the ring after a turn. -/
def Vring.consumed (v : Vring) : Vring :=
  { v with lastAvailIdx := v.lastAvailIdx + 1, lastUsedIdx := v.lastUsedIdx + 1 }

@[simp] theorem Vring.consumed_desc (v : Vring) : v.consumed.desc = v.desc := rfl
@[simp] theorem Vring.consumed_avail (v : Vring) : v.consumed.avail = v.avail := rfl
@[simp] theorem Vring.consumed_used (v : Vring) : v.consumed.used = v.used := rfl
@[simp] theorem Vring.consumed_num (v : Vring) : v.consumed.num = v.num := rfl

/-- What a turn of `process_avail_vring` that consumed an entry has done. -/
theorem availTurn_some {fuel : Nat} {a : UInt16} {r : AvailTurn κ}
    (h : availTurn sp fuel t i a m = .ret (some r)) :
    ∃ A d, sp.resolve (t.vring i).avail = some A ∧
      (t.vring i).lastAvailIdx ≠ (m.avail A).idx ∧
      processDesc sp fuel t i a m = .ret d ∧ DescFrame t d.table m d.mem ∧
      r.table = d.table.setVring i (t.vring i).consumed ∧ r.mem = d.mem ∧
      r.aIdx = nextSlot (t.vring i).num a ∧ r.call = d.call := by
  obtain ⟨idx, hidx, h⟩ := Outcome.bind_eq_ret.mp h
  obtain ⟨A, hA, hidx⟩ := Outcome.bind_eq_ret.mp hidx
  cases hidx
  split at h
  · cases h
  · rename_i hne
    obtain ⟨d, hd, h⟩ := Outcome.bind_eq_ret.mp h
    cases h
    have hf := processDesc_frame hd
    refine ⟨A, d, deref_eq_ret.mp hA, hne, hd, hf, ?_, rfl, rfl, rfl⟩
    rw [hf.vring]
    rfl

/-- The context after a turn that handed a packet over. -/
theorem availTurn_context {fuel : Nat} {a : UInt16} {r : AvailTurn κ} {call : HandlerCall}
    {hd : AvailHandler κ} (h : availTurn sp fuel t i a m = .ret (some r))
    (hhd : t.handlers.availHandler = some hd) (hcall : r.call = some call) :
    r.table.context = hd.consume t.context call := by
  obtain ⟨_, d, _, _, hdesc, _, htable, _, _, hsame⟩ := availTurn_some h
  rw [htable, VringTable.setVring_context]
  rw [hsame] at hcall
  obtain ⟨_, c, _, ⟨_, rfl⟩ | ⟨_, m', _, hdesc⟩⟩ := processDesc_cases hdesc
  · cases hcall
  · exact consumePacket_context hdesc hhd hcall

/-- A turn before the end of avail whose entry is processed. -/
theorem availTurn_of_ret {fuel : Nat} {a : UInt16} {A : Loc} {d : DescResult κ}
    (hA : sp.resolve (t.vring i).avail = some A)
    (hne : (t.vring i).lastAvailIdx ≠ (m.avail A).idx)
    (hd : processDesc sp fuel t i a m = .ret d) :
    availTurn sp fuel t i a m = .ret (some
      { table := d.table.setVring i (d.table.vring i).consumed
        mem := d.mem
        aIdx := nextSlot (t.vring i).num a
        call := d.call }) := by
  simp only [availTurn, loadAvailIdx_of_resolve hA, Outcome.ret_bind, if_neg hne, hd]
  rfl

/-- A turn at the end of avail. -/
theorem availTurn_of_eq {fuel : Nat} {a : UInt16} {A : Loc}
    (hA : sp.resolve (t.vring i).avail = some A)
    (heq : (t.vring i).lastAvailIdx = (m.avail A).idx) :
    availTurn sp fuel t i a m = .ret none := by
  simp only [availTurn, loadAvailIdx_of_resolve hA, Outcome.ret_bind, if_pos heq]
  rfl

/-- A turn that finds the end of avail. -/
theorem availTurn_none {fuel : Nat} {a : UInt16} (h : availTurn sp fuel t i a m = .ret none) :
    ∃ A, sp.resolve (t.vring i).avail = some A ∧
      (t.vring i).lastAvailIdx = (m.avail A).idx := by
  obtain ⟨idx, hidx, h⟩ := Outcome.bind_eq_ret.mp h
  obtain ⟨A, hA, hidx⟩ := Outcome.bind_eq_ret.mp hidx
  cases hidx
  split at h
  · rename_i heq
    exact ⟨A, deref_eq_ret.mp hA, heq⟩
  · obtain ⟨d, _, h⟩ := Outcome.bind_eq_ret.mp h
    cases h

/-- The last statement stores `last_used_idx`. -/
theorem availLeave_ret {m' : Mem} (h : availLeave sp t i m = .ret m') :
    ∃ U, sp.resolve (t.vring i).used = some U ∧
      m' = m.setUsed U { m.used U with idx := (t.vring i).lastUsedIdx } := by
  obtain ⟨U, hU, h⟩ := Outcome.bind_eq_ret.mp h
  cases h
  exact ⟨U, deref_eq_ret.mp hU, rfl⟩

/-- The loop of `process_avail_vring` after a turn that consumed an entry. -/
def AvailLoop.next (s : AvailLoop κ) (r : AvailTurn κ) : AvailLoop κ where
  table := r.table
  mem := r.mem
  aIdx := r.aIdx
  count := s.count + 1
  slots := s.slots ++ [s.aIdx]
  calls := s.calls ++ r.call.toList

@[simp] theorem AvailLoop.next_table (s : AvailLoop κ) (r : AvailTurn κ) :
    (s.next r).table = r.table := rfl

@[simp] theorem AvailLoop.next_aIdx (s : AvailLoop κ) (r : AvailTurn κ) :
    (s.next r).aIdx = r.aIdx := rfl

@[simp] theorem AvailLoop.next_count (s : AvailLoop κ) (r : AvailTurn κ) :
    (s.next r).count = s.count + 1 := rfl

@[simp] theorem AvailLoop.next_slots (s : AvailLoop κ) (r : AvailTurn κ) :
    (s.next r).slots = s.slots ++ [s.aIdx] := rfl

@[simp] theorem AvailLoop.next_calls (s : AvailLoop κ) (r : AvailTurn κ) :
    (s.next r).calls = s.calls ++ r.call.toList := rfl

/-- **The rule for `process_avail_vring`**: what holds at its entry and is kept by its turns
holds where a turn finds the end of avail. -/
theorem processAvailVring_rule {I : AvailLoop κ → Prop} {fuel : Nat} {c : AvailLoop κ}
    (enter : ∀ a, availEnter t i = .ret a → I ⟨t, m, a, 0, [], []⟩)
    (turn : ∀ s r, I s → availTurn sp fuel s.table i s.aIdx s.mem = .ret (some r) →
      I (s.next r)) (h : processAvailVring sp fuel t i m = .ret c) :
    ∃ s m', I s ∧ availTurn sp fuel s.table i s.aIdx s.mem = .ret none ∧
      availLeave sp s.table i s.mem = .ret m' ∧ c = { s with mem := m' } := by
  obtain ⟨a, henter, h⟩ := Outcome.bind_eq_ret.mp h
  obtain ⟨s, hloop, h⟩ := Outcome.bind_eq_ret.mp h
  obtain ⟨m', hleave, h⟩ := Outcome.bind_eq_ret.mp h
  cases h
  have hend : I s ∧ availTurn sp fuel s.table i s.aIdx s.mem = .ret none := by
    refine Outcome.loop_invariant (I := I)
      (Q := fun s => I s ∧ availTurn sp fuel s.table i s.aIdx s.mem = .ret none) ?_ ?_
      (enter a henter) hloop
    · intro s s' hs hb
      obtain ⟨o, hturn, hb⟩ := Outcome.bind_eq_ret.mp hb
      cases o with
      | none => cases hb
      | some r =>
          cases hb
          exact turn s r hs hturn
    · intro s s' hs hb
      obtain ⟨o, hturn, hb⟩ := Outcome.bind_eq_ret.mp hb
      cases o with
      | none =>
          cases hb
          exact ⟨hs, hturn⟩
      | some r => cases hb
  exact ⟨s, m', hend.1, hend.2, hleave, rfl⟩

theorem availEnter_of_num {num : Nat} (hnum : (t.vring i).num.toNat = num) (hpos : 0 < num) :
    availEnter t i = .ret (.ofNat ((t.vring i).lastAvailIdx.toNat % num)) := by
  have hne : (t.vring i).num ≠ 0 := by
    intro h
    rw [h] at hnum
    exact absurd hnum (Nat.ne_of_lt hpos)
  simp only [availEnter, Outcome.require_pos hne, Outcome.ret_bind, hnum, Outcome.pure_eq]

end Vapp
