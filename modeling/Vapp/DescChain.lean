import Vapp.VringSpec

/-! # Descriptor chains

The copy loop of `_process_desc` follows `next` through a table.  Where the chain from
the head is finite, it is the list of its descriptors that decides what the loop does;
`copyChain` says so by recursion on that list, and `copyLoop_eq` that the loop agrees.
-/
namespace Vapp

/-- The descriptors met from index `i` on, the last of them without the next flag. -/
inductive DescChain (desc : Nat → VringDesc) : Nat → List VringDesc → Prop
  | last {i : Nat} (hi : i < vhostVringSize) (hflag : (desc i).flags &&& virtioDescFNext = 0) :
      DescChain desc i [desc i]
  | link {i : Nat} {l : List VringDesc} (hi : i < vhostVringSize)
      (hflag : (desc i).flags &&& virtioDescFNext ≠ 0)
      (h : DescChain desc (desc i).next.toNat l) : DescChain desc i (desc i :: l)

variable {κ : Type} (sp : AddrSpace)

/-- What the copy loop does along a chain, from `len` bytes in `buf` on.  A length that
wraps the 32-bit sum looks short enough and is copied past the end of the buffer. -/
def copyChain (t : VringTable κ) (m : Mem) :
    List VringDesc → Nat → List UInt8 → Run (Nat × List UInt8)
  | [], len, buf => .ret (len, buf)
  | d :: l, len, buf =>
      if len + d.len.toNat < ethPacketSize then do
        let bytes ← readBytes sp m (t.translate d.addr) d.len.toNat
        copyChain t m l (len + d.len.toNat) (buf ++ bytes)
      else if len + d.len.toNat < 2 ^ 32 then
        .ret (len, buf)
      else
        .fault (.bufOverflow len d.len.toNat)

variable {sp} {t : VringTable κ} {m : Mem} {desc : UInt64} {D : Loc}

theorem toNat_ethPacketSize : (UInt32.ofNat ethPacketSize).toNat = ethPacketSize := rfl

/-- One turn of the copy loop, from `len` bytes in `buf` on. -/
theorem copyTurn_eq {i len : Nat} {buf : List UInt8} (hD : sp.resolve desc = some D)
    (hi : i < vhostVringSize) (hlen : len < ethPacketSize) (hbuf : buf.length = len) :
    copyTurn sp t desc m ⟨i, .ofNat len, buf⟩ =
      if len + (m.desc D i).len.toNat < ethPacketSize then do
        let bytes ← readBytes sp m (t.translate (m.desc D i).addr) (m.desc D i).len.toNat
        let len' : UInt32 := .ofNat (len + (m.desc D i).len.toNat)
        if (m.desc D i).flags &&& virtioDescFNext ≠ 0 then
          .ret (.inl ⟨(m.desc D i).next.toNat, len', buf ++ bytes⟩)
        else
          .ret (.inr ⟨i, len', buf ++ bytes⟩)
      else if len + (m.desc D i).len.toNat < 2 ^ 32 then
        .ret (.inr ⟨i, .ofNat len, buf⟩)
      else
        .fault (.bufOverflow len (m.desc D i).len.toNat) := by
  have hb := (m.desc D i).len.toNat_lt
  have hE : ethPacketSize = 1518 := rfl
  have hl : (UInt32.ofNat len).toNat = len := UInt32.toNat_ofNat_of_lt' (by
    show len < 2 ^ 32
    omega)
  have hsum : UInt32.ofNat len + (m.desc D i).len =
      .ofNat (len + (m.desc D i).len.toNat) := by
    rw [UInt32.ofNat_add, UInt32.ofNat_toNat]
  have hlt : UInt32.ofNat len + (m.desc D i).len < .ofNat ethPacketSize ↔
      (len + (m.desc D i).len.toNat) % 2 ^ 32 < ethPacketSize := by
    rw [UInt32.lt_iff_toNat_lt, UInt32.toNat_add, toNat_ethPacketSize, hl]
  simp only [copyTurn, loadDesc_of_resolve hD hi, Outcome.ret_bind, hl]
  by_cases hfit : len + (m.desc D i).len.toNat < ethPacketSize
  · rw [if_pos (hlt.mpr (by omega)), Outcome.require_pos (Nat.le_of_lt hfit), if_pos hfit,
      Outcome.ret_bind, hsum, ← hbuf, List.take_length]
    rfl
  · rw [if_neg hfit]
    by_cases hword : len + (m.desc D i).len.toNat < 2 ^ 32
    · rw [if_neg fun h => by have := hlt.mp h; omega, if_pos hword]
      rfl
    · -- the sum wraps to less than `len`
      rw [if_pos (hlt.mpr (by omega)), Outcome.require_neg (by omega), if_neg hword]
      rfl

/-- **The copy loop along a finite chain**: with fuel for each descriptor it does what
`copyChain` says. -/
theorem copyLoop_eq {l : List VringDesc} {i : Nat} (hD : sp.resolve desc = some D)
    (h : DescChain (m.desc D) i l) : ∀ {len : Nat} {buf : List UInt8} {fuel : Nat},
    len < ethPacketSize → buf.length = len → l.length ≤ fuel →
    ∃ j, Outcome.loop (copyTurn sp t desc m) fuel ⟨i, .ofNat len, buf⟩ =
      (do
        let c ← copyChain sp t m l len buf
        return ⟨j, .ofNat c.1, c.2⟩) := by
  induction h with
  | @last i hi hflag =>
      intro len buf fuel hlen hbuf hfuel
      obtain ⟨fuel, rfl⟩ : ∃ f, fuel = f + 1 := ⟨fuel - 1, by simp at hfuel; omega⟩
      refine ⟨i, ?_⟩
      rw [Outcome.loop_succ, copyTurn_eq hD hi hlen hbuf, copyChain]
      split
      · cases readBytes sp m (t.translate (m.desc D i).addr) (m.desc D i).len.toNat with
        | ret bytes => simp [hflag, copyChain]
        | fault e => rfl
        | spent => rfl
      · split <;> rfl
  | @link i l hi hflag h ih =>
      intro len buf fuel hlen hbuf hfuel
      obtain ⟨fuel, rfl⟩ : ∃ f, fuel = f + 1 := ⟨fuel - 1, by simp at hfuel; omega⟩
      rw [List.length_cons] at hfuel
      rw [Outcome.loop_succ, copyTurn_eq hD hi hlen hbuf, copyChain]
      split
      · rename_i hfit
        cases hread : readBytes sp m (t.translate (m.desc D i).addr) (m.desc D i).len.toNat with
        | ret bytes =>
            have hbuf' : (buf ++ bytes).length = len + (m.desc D i).len.toNat := by
              rw [List.length_append, hbuf, length_of_readBytes hread]
            obtain ⟨j, hj⟩ := ih hfit hbuf' (show l.length ≤ fuel by omega)
            exact ⟨j, by simpa [hflag] using hj⟩
        | fault e => exact ⟨i, rfl⟩
        | spent => exact ⟨i, rfl⟩
      · refine ⟨i, ?_⟩
        split <;> rfl

theorem copyChain_bounds {l : List VringDesc} : ∀ {len : Nat} {buf : List UInt8}
    {c : Nat × List UInt8}, len < ethPacketSize → buf.length = len →
    copyChain sp t m l len buf = .ret c → c.1 < ethPacketSize ∧ c.2.length = c.1 := by
  induction l with
  | nil =>
      intro len buf c hlen hbuf h
      cases h
      exact ⟨hlen, hbuf⟩
  | cons d l ih =>
      intro len buf c hlen hbuf h
      rw [copyChain] at h
      split at h
      · rename_i hfit
        obtain ⟨bytes, hread, h⟩ := Outcome.bind_eq_ret.mp h
        exact ih hfit (by rw [List.length_append, hbuf, length_of_readBytes hread]) h
      · split at h
        · cases h
          exact ⟨hlen, hbuf⟩
        · cases h

/-! ### `_process_desc` along a chain -/

/-- `_process_desc` once `d_idx` has been read. -/
def processHead (sp : AddrSpace) (fuel : Nat) (t : VringTable κ) (vIdx : RingIdx)
    (dIdx : UInt16) (m : Mem) : Run (DescResult κ) := do
  let v := t.vring vIdx
  let c ← Outcome.loop (copyTurn sp t v.desc m) fuel ⟨dIdx.toNat, 0, []⟩
  if c.len = 0 then
    return ⟨-1, t, m, none⟩
  let m ← storeUsedElem sp m v.used (v.lastUsedIdx.toNat % v.num.toNat) ⟨dIdx.toUInt32, c.len⟩
  consumePacket t m c

section ProcessDesc
variable {i : RingIdx} {A : Loc} {aIdx : UInt16}

theorem processDesc_eq_head {fuel : Nat} (hnum : (t.vring i).num ≠ 0)
    (hA : sp.resolve (t.vring i).avail = some A) (hslot : aIdx.toNat < vhostVringSize) :
    processDesc sp fuel t i aIdx m =
      processHead sp fuel t i ((m.avail A).ring aIdx.toNat) m := by
  simp only [processDesc, Outcome.require_pos hnum, Outcome.ret_bind,
    loadAvailRing_of_resolve hA hslot]
  rfl

theorem processHead_frame {fuel : Nat} {d : UInt16} {r : DescResult κ}
    (h : processHead sp fuel t i d m = .ret r) : DescFrame t r.table m r.mem := by
  obtain ⟨c, _, h⟩ := Outcome.bind_eq_ret.mp h
  split at h
  · cases h
    exact .refl t m
  · obtain ⟨m', hstore, h⟩ := Outcome.bind_eq_ret.mp h
    exact returned_frame hstore h

/-- **`_process_desc` for a head whose chain is finite.** -/
theorem processHead_of_chain {l : List VringDesc} {fuel : Nat} {d : UInt16}
    (hD : sp.resolve (t.vring i).desc = some D) (hchain : DescChain (m.desc D) d.toNat l)
    (hfuel : l.length ≤ fuel) :
    processHead sp fuel t i d m = (do
      let c ← copyChain sp t m l 0 []
      if c.1 = 0 then
        return ⟨-1, t, m, none⟩
      let m' ← storeUsedElem sp m (t.vring i).used
        ((t.vring i).lastUsedIdx.toNat % (t.vring i).num.toNat) ⟨d.toUInt32, .ofNat c.1⟩
      consumePacket t m' ⟨0, .ofNat c.1, c.2⟩) := by
  obtain ⟨j, hj⟩ := copyLoop_eq (t := t) hD hchain
    (show 0 < ethPacketSize by decide) (show ([] : List UInt8).length = 0 from rfl) hfuel
  have hj : Outcome.loop (copyTurn sp t (t.vring i).desc m) fuel ⟨d.toNat, 0, []⟩ = _ := hj
  simp only [processHead, hj, Outcome.bind_assoc]
  cases hc : copyChain sp t m l 0 [] with
  | ret c =>
      have hlt := (copyChain_bounds (show 0 < ethPacketSize by decide)
        (show ([] : List UInt8).length = 0 from rfl) hc).1
      have hzero : (UInt32.ofNat c.1 = 0) ↔ c.1 = 0 := by
        rw [← UInt32.toNat_inj, UInt32.toNat_ofNat_of_lt' (by
          show c.1 < 2 ^ 32
          exact Nat.lt_trans hlt (by decide))]
        rfl
      simp only [Outcome.ret_bind, Outcome.pure_eq, hzero]
      rfl
  | fault e => rfl
  | spent => rfl

/-- Without fuel for the first descriptor there is no result. -/
theorem fuel_pos_of_processDesc {fuel : Nat} {r : DescResult κ}
    (h : processDesc sp fuel t i aIdx m = .ret r) : 0 < fuel := by
  obtain ⟨_, _, hloop, _⟩ := processDesc_cases h
  cases fuel with
  | zero => cases hloop
  | succ fuel => exact Nat.succ_pos fuel

variable {d : VringDesc}

/-- The descriptor an avail slot names, when it stands alone. -/
structure SingleDesc (t : VringTable κ) (m : Mem) (i : RingIdx) (D A : Loc) (aIdx : UInt16)
    (sp : AddrSpace) (d : VringDesc) : Prop where
  num : (t.vring i).num ≠ 0
  desc : sp.resolve (t.vring i).desc = some D
  avail : sp.resolve (t.vring i).avail = some A
  slot : aIdx.toNat < vhostVringSize
  id : ((m.avail A).ring aIdx.toNat).toNat < vhostVringSize
  eq : m.desc D ((m.avail A).ring aIdx.toNat).toNat = d
  flag : d.flags &&& virtioDescFNext = 0

theorem SingleDesc.chain (h : SingleDesc t m i D A aIdx sp d) :
    DescChain (m.desc D) ((m.avail A).ring aIdx.toNat).toNat [d] := by
  have hflag := h.flag
  rw [← h.eq] at hflag
  exact h.eq ▸ .last h.id hflag

/-- A packet that does not leave a free byte in the local buffer is not consumed. -/
theorem processDesc_of_long {fuel : Nat} (h : SingleDesc t m i D A aIdx sp d)
    (hlong : ethPacketSize ≤ d.len.toNat) (hfuel : 0 < fuel) :
    processDesc sp fuel t i aIdx m = .ret ⟨-1, t, m, none⟩ := by
  rw [processDesc_eq_head h.num h.avail h.slot, processHead_of_chain h.desc h.chain hfuel,
    copyChain, if_neg (by omega), if_pos (by have := d.len.toNat_lt; omega)]
  rfl

/-- A packet that fits is entered in the used ring and handed over. -/
theorem processDesc_of_fits {fuel : Nat} {U B : Loc} {hd : AvailHandler κ}
    (h : SingleDesc t m i D A aIdx sp d) (hU : sp.resolve (t.vring i).used = some U)
    (huslot : (t.vring i).lastUsedIdx.toNat % (t.vring i).num.toNat < vhostVringSize)
    (hpos : 0 < d.len.toNat) (hfit : d.len.toNat < ethPacketSize)
    (hB : Shows sp (t.translate d.addr) d.len.toNat B)
    (hhd : t.handlers.availHandler = some hd)
    (hacc : hd.accepts (packetCall ⟨0, d.len, m.bytes B d.len.toNat⟩)) (hfuel : 0 < fuel) :
    processDesc sp fuel t i aIdx m =
      .ret
        { ret := 0
          table := { t with
            context := hd.consume t.context (packetCall ⟨0, d.len, m.bytes B d.len.toNat⟩) }
          mem := m.setUsed U { m.used U with
            ring := Function.update (m.used U).ring
              ((t.vring i).lastUsedIdx.toNat % (t.vring i).num.toNat)
              ⟨((m.avail A).ring aIdx.toNat).toUInt32, d.len⟩ }
          call := some (packetCall ⟨0, d.len, m.bytes B d.len.toNat⟩) } := by
  rw [processDesc_eq_head h.num h.avail h.slot, processHead_of_chain h.desc h.chain hfuel,
    copyChain, Nat.zero_add, if_pos hfit, readBytes_of_shows hB]
  simp only [Outcome.ret_bind, copyChain, List.nil_append, Nat.ne_of_gt hpos, if_false,
    UInt32.ofNat_toNat, storeUsedElem_of_resolve hU huslot]
  rw [consumePacket, hhd]
  simp only [Outcome.require_pos hacc, Outcome.ret_bind]
  rfl

end ProcessDesc

end Vapp
