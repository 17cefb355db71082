import Vapp.SlotAgreement

/-! # What comes back through the used ring

`_process_desc` fills the used slot of an entry only if it copied something, and
`process_avail_vring` advances the used index in any case.  An entry is returned exactly
when its chain is `Deliverable`.
-/
namespace Vapp

open Counter16

variable {κ : Type} {sp : AddrSpace} {t : VringTable κ} {i : RingIdx} {m : Mem} {fuel : Nat}
  {D A U : Loc}

/-! ### Chains that leave something in the buffer -/

/-- The descriptors of a chain that are copied: as many as leave a byte of the local buffer
free, with `len` bytes in it already. -/
def copied : Nat → List VringDesc → List VringDesc
  | _, [] => []
  | len, d :: l =>
      if len + d.len.toNat < ethPacketSize then d :: copied (len + d.len.toNat) l else []

/-- The number of bytes in the buffers of some descriptors. -/
def totalLen (l : List VringDesc) : Nat := (l.map fun d => d.len.toNat).sum

/-- The bytes in the buffers of some descriptors, as the party reads them. -/
def gather (sp : AddrSpace) (t : VringTable κ) (m : Mem) : List VringDesc → Run (List UInt8)
  | [] => .ret []
  | d :: l => do
      let bytes ← readBytes sp m (t.translate d.addr) d.len.toNat
      let rest ← gather sp t m l
      return bytes ++ rest

/-- The length that does not fit any more does not wrap the 32-bit sum. -/
def NoWrap (len : Nat) (l : List VringDesc) : Prop :=
  ∀ d, l[(copied len l).length]? = some d → len + totalLen (copied len l) + d.len.toNat < 2 ^ 32

/-- A chain whose packet is copied and handed over: what fits is not empty and can be read,
the first length that does not fit does not wrap, and the handler accepts the packet. -/
structure Deliverable (sp : AddrSpace) (t : VringTable κ) (m : Mem) (l : List VringDesc) :
    Prop where
  pos : 0 < totalLen (copied 0 l)
  noWrap : NoWrap 0 l
  accepted : ∃ bytes, gather sp t m (copied 0 l) = .ret bytes ∧
    ∀ h ∈ t.handlers.availHandler,
      h.accepts (packetCall ⟨0, .ofNat (totalLen (copied 0 l)), bytes⟩)

/-- **The copy loop in closed form**: when it returns and what it has copied then. -/
theorem copyChain_ret_iff (l : List VringDesc) : ∀ {len : Nat} {buf : List UInt8}
    {c : Nat × List UInt8}, copyChain sp t m l len buf = .ret c ↔
      NoWrap len l ∧ ∃ bytes, gather sp t m (copied len l) = .ret bytes ∧
        c = (len + totalLen (copied len l), buf ++ bytes) := by
  induction l with
  | nil =>
      intro len buf c
      simp [copyChain, NoWrap, copied, gather, totalLen, eq_comm]
  | cons d l ih =>
      intro len buf c
      rw [copyChain]
      by_cases hfit : len + d.len.toNat < ethPacketSize
      · have hcopied : copied len (d :: l) = d :: copied (len + d.len.toNat) l := if_pos hfit
        have htotal : len + totalLen (copied len (d :: l)) =
            len + d.len.toNat + totalLen (copied (len + d.len.toNat) l) := by
          rw [hcopied, totalLen, List.map_cons, List.sum_cons, Nat.add_assoc]
          rfl
        have hwrap : NoWrap len (d :: l) ↔ NoWrap (len + d.len.toNat) l := by
          rw [NoWrap, NoWrap, htotal, hcopied, List.length_cons]
          rfl
        rw [if_pos hfit, hwrap, htotal, hcopied, gather]
        constructor
        · intro h
          obtain ⟨bytes, hread, h⟩ := Outcome.bind_eq_ret.mp h
          obtain ⟨hnw, rest, hrest, rfl⟩ := ih.mp h
          exact ⟨hnw, bytes ++ rest, by simp [hread, hrest], by rw [List.append_assoc]⟩
        · rintro ⟨hnw, all, hall, rfl⟩
          obtain ⟨bytes, hread, hall⟩ := Outcome.bind_eq_ret.mp hall
          obtain ⟨rest, hrest, hall⟩ := Outcome.bind_eq_ret.mp hall
          cases hall
          rw [hread, Outcome.ret_bind]
          exact ih.mpr ⟨hnw, rest, hrest, by rw [List.append_assoc]⟩
      · have hcopied : copied len (d :: l) = [] := if_neg hfit
        have hwrap : NoWrap len (d :: l) ↔ len + d.len.toNat < 2 ^ 32 := by
          rw [NoWrap, hcopied]
          simp [totalLen]
        rw [if_neg hfit, hwrap, hcopied]
        by_cases hword : len + d.len.toNat < 2 ^ 32
        · rw [if_pos hword]
          constructor
          · intro h
            cases h
            exact ⟨hword, [], rfl, by rw [List.append_nil]; rfl⟩
          · rintro ⟨-, bytes, hbytes, rfl⟩
            cases hbytes
            rw [List.append_nil]
            rfl
        · rw [if_neg hword]
          constructor
          · intro h
            cases h
          · intro h
            exact absurd h.1 hword

/-! ### One entry -/

/-- More fuel does not change what `_process_desc` returns. -/
theorem processHead_mono {fuel' : Nat} {d : UInt16} {r : DescResult κ} (hle : fuel ≤ fuel')
    (h : processHead sp fuel t i d m = .ret r) : processHead sp fuel' t i d m = .ret r := by
  obtain ⟨c, hc, h⟩ := Outcome.bind_eq_ret.mp h
  rw [processHead, Outcome.loop_mono hle hc]
  exact h

section Entry
variable {d : UInt16} {l : List VringDesc}

/-- A deliverable chain fills the used slot of its entry. -/
theorem processHead_of_deliverable (hD : sp.resolve (t.vring i).desc = some D)
    (hU : sp.resolve (t.vring i).used = some U)
    (hslot : (t.vring i).lastUsedIdx.toNat % (t.vring i).num.toNat < vhostVringSize)
    (hchain : DescChain (m.desc D) d.toNat l) (h : Deliverable sp t m l)
    (hfuel : l.length ≤ fuel) :
    ∃ r, processHead sp fuel t i d m = .ret r ∧
      r.mem = m.setUsed U { m.used U with
        ring := Function.update (m.used U).ring
          ((t.vring i).lastUsedIdx.toNat % (t.vring i).num.toNat)
          ⟨d.toUInt32, .ofNat (totalLen (copied 0 l))⟩ } := by
  obtain ⟨bytes, hbytes, haccepts⟩ := h.accepted
  have hcopy : copyChain sp t m l 0 [] = .ret (0 + totalLen (copied 0 l), [] ++ bytes) :=
    (copyChain_ret_iff l).mpr ⟨h.noWrap, bytes, hbytes, rfl⟩
  rw [Nat.zero_add, List.nil_append] at hcopy
  rw [processHead_of_chain hD hchain hfuel, hcopy]
  simp only [Outcome.ret_bind, if_neg (Nat.ne_of_gt h.pos), storeUsedElem_of_resolve hU hslot]
  unfold consumePacket
  split
  · exact ⟨_, rfl, rfl⟩
  · rename_i hd hhd
    have hacc := haccepts hd hhd
    simp only [Outcome.require_pos hacc, Outcome.ret_bind]
    exact ⟨_, rfl, rfl⟩

/-- What a call of `_process_desc` that returned says about the chain of its entry. -/
theorem processHead_ret (hD : sp.resolve (t.vring i).desc = some D)
    (hU : sp.resolve (t.vring i).used = some U) (hchain : DescChain (m.desc D) d.toNat l)
    {r : DescResult κ} (h : processHead sp fuel t i d m = .ret r) :
    (Deliverable sp t m l ∧
      r.mem = m.setUsed U { m.used U with
        ring := Function.update (m.used U).ring
          ((t.vring i).lastUsedIdx.toNat % (t.vring i).num.toNat)
          ⟨d.toUInt32, .ofNat (totalLen (copied 0 l))⟩ }) ∨
    (¬ Deliverable sp t m l ∧ r.mem = m) := by
  have h := processHead_mono (Nat.le_max_left fuel l.length) h
  rw [processHead_of_chain hD hchain (Nat.le_max_right ..)] at h
  obtain ⟨c, hcopy, h⟩ := Outcome.bind_eq_ret.mp h
  obtain ⟨hwrap, bytes, hbytes, rfl⟩ := (copyChain_ret_iff l).mp hcopy
  rw [Nat.zero_add, List.nil_append] at h
  by_cases hzero : totalLen (copied 0 l) = 0
  · rw [if_pos hzero] at h
    cases h
    exact .inr ⟨fun hdel => absurd hdel.pos (by omega), rfl⟩
  · rw [if_neg hzero] at h
    obtain ⟨m', hstore, h⟩ := Outcome.bind_eq_ret.mp h
    obtain ⟨l', hl', -, rfl⟩ := storeUsedElem_ret hstore
    rw [hU] at hl'
    cases hl'
    unfold consumePacket at h
    split at h
    · rename_i hnone
      cases h
      refine .inl ⟨⟨Nat.pos_of_ne_zero hzero, hwrap, bytes, hbytes, fun hd hhd => ?_⟩, rfl⟩
      rw [hnone] at hhd
      cases hhd
    · rename_i hd hhd
      obtain ⟨_, hacc, h⟩ := Outcome.bind_eq_ret.mp h
      cases h
      refine .inl ⟨⟨Nat.pos_of_ne_zero hzero, hwrap, bytes, hbytes, fun hd' hhd' => ?_⟩, rfl⟩
      rw [hhd] at hhd'
      cases hhd'
      exact Outcome.require_eq_ret.mp hacc

end Entry

/-! ### All entries of a batch -/

theorem DescChain.unique {desc : Nat → VringDesc} {k : Nat} {l l' : List VringDesc}
    (h : DescChain desc k l) (h' : DescChain desc k l') : l = l' := by
  induction h generalizing l' with
  | last _ hflag =>
      cases h' with
      | last _ _ => rfl
      | link _ hflag' _ => exact absurd hflag hflag'
  | link _ hflag _ ih =>
      cases h' with
      | last _ hflag' => exact absurd hflag' hflag
      | link _ _ h' => rw [ih h']

/-- The chain from a head is finite and deliverable. -/
def HeadDeliverable (sp : AddrSpace) (t : VringTable κ) (m : Mem) (D : Loc) (d : UInt16) : Prop :=
  ∃ l, DescChain (m.desc D) d.toNat l ∧ Deliverable sp t m l

section Batch
variable {t' : VringTable κ} {m' : Mem}

theorem gather_congr (htr : ∀ a, t'.translate a = t.translate a) (hbyte : m'.byte = m.byte)
    (l : List VringDesc) : gather sp t' m' l = gather sp t m l := by
  induction l with
  | nil => rfl
  | cons d l ih => rw [gather, gather, htr, readBytes_congr hbyte, ih]

theorem HeadDeliverable.congr (hhd : t'.handlers = t.handlers)
    (htr : ∀ a, t'.translate a = t.translate a) (hdesc : m'.desc = m.desc)
    (hbyte : m'.byte = m.byte) {d : UInt16} (h : HeadDeliverable sp t m D d) :
    HeadDeliverable sp t' m' D d := by
  obtain ⟨l, hchain, hpos, hwrap, bytes, hbytes, hacc⟩ := h
  refine ⟨l, by rw [hdesc]; exact hchain, hpos, hwrap, bytes, ?_, by rw [hhd]; exact hacc⟩
  rw [gather_congr htr hbyte, hbytes]

/-- What a consumed entry leaves for the next one. -/
theorem HeadDeliverable.next {d e : UInt16} {r : DescResult κ}
    (hr : processHead sp fuel t i d m = .ret r) :
    HeadDeliverable sp (r.table.setVring i (r.table.vring i).consumed) r.mem D e ↔
      HeadDeliverable sp t m D e := by
  have hf := processHead_frame hr
  have hhd : (r.table.setVring i (r.table.vring i).consumed).handlers = t.handlers := hf.handlers
  have htr : ∀ a, (r.table.setVring i (r.table.vring i).consumed).translate a = t.translate a :=
    hf.translate
  constructor
  · intro h
    exact h.congr hhd.symm (fun a => (htr a).symm) hf.desc.symm hf.byte.symm
  · intro h
    exact h.congr hhd htr hf.desc hf.byte

/-- The used slots do not matter for what is deliverable. -/
theorem headDeliverable_setUsed (u : VringUsed) (d : UInt16) :
    HeadDeliverable sp t (m.setUsed U u) D d ↔ HeadDeliverable sp t m D d := by
  have hsame : ∀ a : UInt64, t.translate a = t.translate a := fun _ => rfl
  constructor
  · exact HeadDeliverable.congr rfl hsame (Mem.setUsed_desc ..).symm (Mem.setUsed_byte ..).symm
  · exact HeadDeliverable.congr rfl hsame (Mem.setUsed_desc ..) (Mem.setUsed_byte ..)

/-- One entry: its own used slot names the head exactly if the chain can be delivered, and no
other slot changes. -/
theorem processHead_used (hD : sp.resolve (t.vring i).desc = some D)
    (hU : sp.resolve (t.vring i).used = some U) {d : UInt16}
    (hchain : ∃ l, DescChain (m.desc D) d.toNat l) {r : DescResult κ}
    (h : processHead sp fuel t i d m = .ret r) :
    (∀ s, slotOf (t.vring i).num (t.vring i).lastUsedIdx 0 ≠ s →
      (r.mem.used U).ring s = (m.used U).ring s) ∧
    (HeadDeliverable sp t m D d →
      ((r.mem.used U).ring (slotOf (t.vring i).num (t.vring i).lastUsedIdx 0)).id =
        d.toUInt32) ∧
    (¬ HeadDeliverable sp t m D d → r.mem = m) := by
  obtain ⟨l, hl⟩ := hchain
  rw [slotOf_zero]
  rcases processHead_ret hD hU hl h with ⟨hdel, hm⟩ | ⟨hnot, hm⟩
  · refine ⟨fun s hs => ?_, fun _ => ?_, fun hnot => absurd ⟨l, hl, hdel⟩ hnot⟩
    · rw [hm, Mem.setUsed_used_self]
      exact Function.update_of_ne (Ne.symm hs) _ _
    · rw [hm, Mem.setUsed_used_self]
      simp
  · refine ⟨fun s _ => by rw [hm], fun ⟨l', hl', hdel⟩ => ?_, fun _ => hm⟩
    rw [← hl.unique hl'] at hdel
    exact absurd hdel hnot

/-- **The used slots of a batch**: those of other entries are left alone, and the slot of an
entry is filled if and only if its chain is deliverable. -/
theorem consumeHeads_used (ds : List UInt16) : ∀ {t : VringTable κ} {m : Mem} {c : Consumed κ},
    sp.resolve (t.vring i).desc = some D → sp.resolve (t.vring i).used = some U →
    (∀ d ∈ ds, ∃ l, DescChain (m.desc D) d.toNat l) →
    consumeHeads sp fuel i ds t m = .ret c →
    (∀ s, (∀ k, k < ds.length → slotOf (t.vring i).num (t.vring i).lastUsedIdx k ≠ s) →
      (c.mem.used U).ring s = (m.used U).ring s) ∧
    ((∀ j k, j < k → k < ds.length → slotOf (t.vring i).num (t.vring i).lastUsedIdx j ≠
        slotOf (t.vring i).num (t.vring i).lastUsedIdx k) →
      ∀ k d, ds[k]? = some d →
        (HeadDeliverable sp t m D d →
          ((c.mem.used U).ring (slotOf (t.vring i).num (t.vring i).lastUsedIdx k)).id =
            d.toUInt32) ∧
        (¬ HeadDeliverable sp t m D d →
          (c.mem.used U).ring (slotOf (t.vring i).num (t.vring i).lastUsedIdx k) =
            (m.used U).ring (slotOf (t.vring i).num (t.vring i).lastUsedIdx k))) := by
  induction ds with
  | nil =>
      intro t m c _ _ _ h
      cases h
      exact ⟨fun _ _ => rfl, fun _ k d hd => nomatch hd⟩
  | cons e ds ih =>
      intro t m c hD hU hchains h
      obtain ⟨r, hr, h⟩ := Outcome.bind_eq_ret.mp h
      obtain ⟨c', hc, h⟩ := Outcome.bind_eq_ret.mp h
      cases h
      have hf := processHead_frame hr
      have hvring : (r.table.setVring i (r.table.vring i).consumed).vring i =
          (t.vring i).consumed := by
        rw [VringTable.setVring_self, hf.vring]
      have hlater : ∀ j, slotOf (t.vring i).num (t.vring i).consumed.lastUsedIdx j =
          slotOf (t.vring i).num (t.vring i).lastUsedIdx (j + 1) := slotOf_succ _
      obtain ⟨hother, hown⟩ := ih (by rw [hvring]; exact hD) (by rw [hvring]; exact hU)
        (fun d hd => by rw [hf.desc]; exact hchains d (List.mem_cons_of_mem _ hd)) hc
      rw [hvring] at hother hown
      simp only [Vring.consumed_num, hlater] at hother hown
      obtain ⟨hturn, hyes, hno⟩ := processHead_used hD hU (hchains e (List.mem_cons_self ..)) hr
      refine ⟨fun s hs => ?_, fun hdist k d hd => ?_⟩
      · rw [hother s fun k hk => hs (k + 1) (Nat.succ_lt_succ hk)]
        exact hturn s (hs 0 (Nat.succ_pos _))
      · cases k with
        | zero =>
            cases hd
            rw [hother _ fun k hk =>
              (hdist 0 (k + 1) (Nat.succ_pos k) (Nat.succ_lt_succ hk)).symm]
            refine ⟨hyes, fun hnot => ?_⟩
            rw [hno hnot]
        | succ k =>
            have hd' : ds[k]? = some d := hd
            obtain ⟨hk, -⟩ := List.getElem?_eq_some_iff.mp hd'
            have hne := hdist 0 (k + 1) (Nat.succ_pos k) (Nat.succ_lt_succ hk)
            have hrest := hown (fun j k hjk hk =>
              hdist _ _ (Nat.succ_lt_succ hjk) (Nat.succ_lt_succ hk)) k d hd'
            rw [HeadDeliverable.next hr, hturn _ hne] at hrest
            exact hrest

/-- More fuel does not change what consuming returns. -/
theorem consumeHeads_mono {fuel' : Nat} (hle : fuel ≤ fuel') (ds : List UInt16) :
    ∀ {t : VringTable κ} {m : Mem} {c : Consumed κ}, consumeHeads sp fuel i ds t m = .ret c →
      consumeHeads sp fuel' i ds t m = .ret c := by
  induction ds with
  | nil => exact fun h => h
  | cons d ds ih =>
      intro t m c h
      obtain ⟨r, hr, h⟩ := Outcome.bind_eq_ret.mp h
      obtain ⟨c', hc, h⟩ := Outcome.bind_eq_ret.mp h
      cases h
      rw [consumeHeads, processHead_mono hle hr, Outcome.ret_bind, ih hc]
      rfl

/-- **Deliverable chains are all consumed.** -/
theorem consumeHeads_returns (ds : List UInt16) : ∀ {t : VringTable κ} {m : Mem},
    sp.resolve (t.vring i).desc = some D → sp.resolve (t.vring i).used = some U →
    (∀ k, k < ds.length → slotOf (t.vring i).num (t.vring i).lastUsedIdx k < vhostVringSize) →
    (∀ d ∈ ds, HeadDeliverable sp t m D d) →
    ∃ fuel c, consumeHeads sp fuel i ds t m = .ret c := by
  induction ds with
  | nil => exact fun _ _ _ _ => ⟨0, _, rfl⟩
  | cons d ds ih =>
      intro t m hD hU hrange hdel
      obtain ⟨l, hl, hd⟩ := hdel d (List.mem_cons_self ..)
      have hslot := hrange 0 (Nat.succ_pos _)
      rw [slotOf_zero] at hslot
      obtain ⟨r, hr, -⟩ := processHead_of_deliverable (i := i) hD hU hslot hl hd (Nat.le_refl _)
      have hf := processHead_frame hr
      have hvring : (r.table.setVring i (r.table.vring i).consumed).vring i =
          (t.vring i).consumed := by
        rw [VringTable.setVring_self, hf.vring]
      obtain ⟨fuel, c, hc⟩ := ih (by rw [hvring]; exact hD) (by rw [hvring]; exact hU)
        (fun k hk => by
          rw [hvring]
          show slotOf _ ((t.vring i).lastUsedIdx + 1) k < _
          rw [slotOf_succ]
          exact hrange (k + 1) (Nat.succ_lt_succ hk))
        (fun e he => (HeadDeliverable.next hr).mpr (hdel e (List.mem_cons_of_mem _ he)))
      refine ⟨max l.length fuel, { c with calls := r.call.toList ++ c.calls }, ?_⟩
      rw [consumeHeads, processHead_mono (Nat.le_max_left ..) hr, Outcome.ret_bind,
        consumeHeads_mono (Nat.le_max_right ..) ds hc]
      rfl

end Batch

/-! ### The batch a call consumes -/

/-- A batch of pending entries: the rings can be reached, their size is a power of two up to
`VHOST_VRING_SIZE`, and each of the entries `ds` is in its slot and names a finite chain. -/
structure PendingBatch (sp : AddrSpace) (i : RingIdx) (D A U : Loc) (t : VringTable κ) (m : Mem)
    (ds : List UInt16) : Prop where
  desc : sp.resolve (t.vring i).desc = some D
  avail : sp.resolve (t.vring i).avail = some A
  used : sp.resolve (t.vring i).used = some U
  pow : ∃ e, (t.vring i).num.toNat = 2 ^ e
  small : (t.vring i).num.toNat ≤ vhostVringSize
  room : ds.length ≤ (t.vring i).num.toNat
  idx : (m.avail A).idx = (t.vring i).lastAvailIdx + of ds.length
  slot : ∀ (k : Nat) (d : UInt16), ds[k]? = some d →
    (m.avail A).ring (slotOf (t.vring i).num (t.vring i).lastAvailIdx k) = d
  chain : ∀ d ∈ ds, ∃ l, DescChain (m.desc D) d.toNat l

/-- The entries `ds` come back through the used ring, whatever its slots held before: a call
of `process_avail_vring` returns, the slot of each entry holds the id of its head, and
`used->idx` has moved past all of them. -/
def UsedReturned (sp : AddrSpace) (t : VringTable κ) (i : RingIdx) (m : Mem) (U : Loc)
    (ds : List UInt16) : Prop :=
  ∀ old : Nat → VringUsedElem, ∃ fuel c,
    processAvailVring sp fuel t i (m.setUsed U { m.used U with ring := old }) = .ret c ∧
    (∀ (k : Nat) (d : UInt16), ds[k]? = some d →
      ((c.mem.used U).ring (slotOf (t.vring i).num (t.vring i).lastUsedIdx k)).id =
        d.toUInt32) ∧
    (c.mem.used U).idx = (t.vring i).lastUsedIdx + of ds.length

namespace PendingBatch
variable {ds : List UInt16} (h : PendingBatch sp i D A U t m ds)
include h

theorem dvd : (t.vring i).num.toNat ∣ 65536 := by
  obtain ⟨e, he⟩ := h.pow
  have hle : 2 ^ e ≤ 2 ^ 16 := by
    have hsmall := h.small
    rw [he] at hsmall
    exact Nat.le_trans hsmall (by decide)
  rw [he]
  exact Nat.pow_dvd_pow 2 ((Nat.pow_le_pow_iff_right (by decide)).mp hle)

theorem num_pos : 0 < (t.vring i).num.toNat :=
  Nat.pos_of_dvd_of_pos h.dvd (by decide)

theorem slotOf_lt (last : UInt16) (k : Nat) : slotOf (t.vring i).num last k < vhostVringSize :=
  Nat.lt_of_lt_of_le (Nat.mod_lt _ h.num_pos) h.small

theorem slotOf_eq (last : UInt16) (k : Nat) :
    slotOf (t.vring i).num last k = (last.toNat + k) % (t.vring i).num.toNat :=
  Vapp.slotOf_eq (n := k + 1) (.inl h.dvd) (Nat.lt_succ_self k)

theorem slotOf_ne (last : UInt16) : ∀ j k, j < k → k < ds.length →
    slotOf (t.vring i).num last j ≠ slotOf (t.vring i).num last k := by
  intro j k hjk hk
  have hroom := h.room
  rw [h.slotOf_eq, h.slotOf_eq]
  exact slot_ne (by omega) (by omega)

theorem pending (old : Nat → VringUsedElem) :
    Pending sp i A t (m.setUsed U { m.used U with ring := old })
      (of ((t.vring i).lastAvailIdx.toNat % (t.vring i).num.toNat)) ds := by
  have hstart : (of ((t.vring i).lastAvailIdx.toNat % (t.vring i).num.toNat)).toNat =
      (t.vring i).lastAvailIdx.toNat % (t.vring i).num.toNat :=
    toNat_of_lt (Nat.lt_of_le_of_lt (Nat.mod_le _ _) (t.vring i).lastAvailIdx.toNat_lt)
  refine
    { avail := h.avail
      num := fun hz => absurd h.num_pos (by rw [hz]; decide)
      short := ?_
      idx := h.idx
      start := ?_
      slot := fun k d hd => ?_ }
  · exact Nat.lt_of_le_of_lt (Nat.le_trans h.room h.small) (by decide)
  · rw [hstart]
    exact Nat.mod_lt _ h.num_pos
  · rw [hstart, Nat.mod_add_mod, ← h.slotOf_eq]
    exact ⟨h.slotOf_lt _ k, h.slot k d hd⟩

/-- A call that returned has consumed the entries and stored `used->idx`. -/
theorem processAvailVring_ret {old : Nat → VringUsedElem} {c : AvailLoop κ}
    (hc : processAvailVring sp fuel t i (m.setUsed U { m.used U with ring := old }) = .ret c) :
    ∃ c', consumeHeads sp fuel i ds t (m.setUsed U { m.used U with ring := old }) = .ret c' ∧
      c.mem = c'.mem.setUsed U
        { c'.mem.used U with idx := (t.vring i).lastUsedIdx + of ds.length } := by
  obtain ⟨e, he⟩ := processAvailVring_of_pending fuel (h.pending old)
  rw [he] at hc
  obtain ⟨c', hconsume, hc⟩ := Outcome.bind_eq_ret.mp hc
  obtain ⟨m', hleave, hc⟩ := Outcome.bind_eq_ret.mp hc
  have hvring := (consumeHeads_frame ds hconsume).vring
  rw [availLeave, storeUsedIdx_of_resolve (by rw [hvring]; exact h.used), hvring] at hleave
  cases hleave
  cases hc
  exact ⟨c', hconsume, rfl⟩

theorem usedReturned (hdel : ∀ d ∈ ds, HeadDeliverable sp t m D d) :
    UsedReturned sp t i m U ds := by
  intro old
  have hdel' : ∀ d ∈ ds,
      HeadDeliverable sp t (m.setUsed U { m.used U with ring := old }) D d :=
    fun d hd => (headDeliverable_setUsed _ d).mpr (hdel d hd)
  obtain ⟨fuel, c, hc⟩ := consumeHeads_returns ds h.desc h.used
    (fun k _ => h.slotOf_lt _ k) hdel'
  have hframe := consumeHeads_frame ds hc
  obtain ⟨-, hown⟩ := consumeHeads_used ds h.desc h.used (m := m.setUsed U _) h.chain hc
  have hused : sp.resolve (c.table.vring i).used = some U := by
    rw [hframe.vring]
    exact h.used
  obtain ⟨e, he⟩ := processAvailVring_of_pending fuel (h.pending old)
  rw [hc, Outcome.ret_bind, availLeave, storeUsedIdx_of_resolve hused, Outcome.ret_bind] at he
  refine ⟨fuel, _, he, fun k d hd => ?_, ?_⟩
  · simp only [Mem.setUsed_used_self]
    exact (hown (h.slotOf_ne _) k d hd).1 (hdel' d (List.mem_of_getElem? hd))
  · simp only [Mem.setUsed_used_self, hframe.vring]
    rfl

/-- An entry whose chain is not deliverable is published with the id its slot held before. -/
theorem headDeliverable_of_usedReturned (hret : UsedReturned sp t i m U ds) :
    ∀ d ∈ ds, HeadDeliverable sp t m D d := by
  intro d hd
  obtain ⟨k, hk⟩ := List.mem_iff_getElem?.mp hd
  apply Classical.byContradiction
  intro hnot
  -- slots that hold any other id than that of `d`
  obtain ⟨fuel, c, hc, hids, -⟩ := hret fun _ => ⟨d.toUInt32 + 1, 0⟩
  obtain ⟨c', hconsume, hmem⟩ := h.processAvailVring_ret hc
  obtain ⟨-, hown⟩ := consumeHeads_used ds h.desc h.used (m := m.setUsed U _) h.chain hconsume
  have hstale := (hown (h.slotOf_ne _) k d hk).2 fun hdel =>
    hnot ((headDeliverable_setUsed _ d).mp hdel)
  have hid := hids k d hk
  rw [hmem, Mem.setUsed_used_self, hstale, Mem.setUsed_used_self] at hid
  have hword := congrArg UInt32.toNat hid
  rw [UInt32.toNat_add, UInt16.toNat_toUInt32] at hword
  have hlt := d.toNat_lt
  have hone : (1 : UInt32).toNat = 1 := rfl
  omega

end PendingBatch

/-- An object whose first `n` descriptors are pending: the first of them has one byte, and
the others are empty. -/
def mixedMem (n : Nat) : Mem :=
  { Mem.zero with
    desc := fun _ k => ⟨0, if k = 0 then 1 else 0, 0, 0⟩
    avail := fun _ => ⟨of n, fun k => of k⟩ }

theorem pendingBatch_mixedMem {n : Nat} (hn : n ≤ 2) :
    PendingBatch bareSpace rxIdx ⟨0, offsetofDesc⟩ ⟨0, offsetofAvail⟩ ⟨0, offsetofUsed⟩
      (bareTable 2 0) (mixedMem n) ((List.range n).map of) := by
  have hmem : ∀ {k : Nat} {d : UInt16}, ((List.range n).map of)[k]? = some d →
      k < n ∧ of k = d := by
    intro k d hd
    rw [List.getElem?_map] at hd
    obtain ⟨j, hj, rfl⟩ := Option.map_eq_some_iff.mp hd
    obtain ⟨hk, rfl⟩ := List.getElem?_eq_some_iff.mp hj
    rw [List.getElem_range]
    exact ⟨by simpa using hk, rfl⟩
  refine
    { desc := bareSpace_resolve (by decide)
      avail := bareSpace_resolve (by decide)
      used := bareSpace_resolve (by decide)
      pow := ⟨1, rfl⟩
      small := by decide
      room := ?_
      idx := ?_
      slot := fun k d hd => ?_
      chain := fun d hd => ?_ }
  · rw [List.length_map, List.length_range]
    exact hn
  · show of n = 0 + of ((List.range n).map of).length
    rw [List.length_map, List.length_range, UInt16.zero_add]
  · obtain ⟨hk, rfl⟩ := hmem hd
    show of (slotOf 2 0 k) = of k
    rw [slotOf, UInt16.zero_add, toNat_of_lt (by omega)]
    exact congrArg of (Nat.mod_eq_of_lt (Nat.lt_of_lt_of_le hk hn))
  · obtain ⟨k, hk⟩ := List.mem_iff_getElem?.mp hd
    obtain ⟨hlt, rfl⟩ := hmem hk
    have hflag : (0 : UInt16) &&& virtioDescFNext = 0 := rfl
    refine ⟨_, .last ?_ hflag⟩
    rw [toNat_of_lt (by omega)]
    exact Nat.lt_of_lt_of_le hlt (Nat.le_trans hn (by decide))

/-- **When the consumed entries are returned**: they all come back through the used ring
exactly when all of their chains are deliverable. -/
theorem used_returned_iff {ds : List UInt16} (h : PendingBatch sp i D A U t m ds) :
    UsedReturned sp t i m U ds ↔ ∀ d ∈ ds, HeadDeliverable sp t m D d :=
  ⟨h.headDeliverable_of_usedReturned, h.usedReturned⟩

/-- A ring of four slots that stands at the last one, with both counters at their last
value. -/
def wrappedTable : VringTable Unit :=
  (bareTable 4 65535).setVring rxIdx
    { (bareTable 4 65535).vring rxIdx with lastUsedIdx := 65535 }

/-- An object whose descriptors have one byte each, with an index behind the wrap. -/
def wrappedMem : Mem :=
  { Mem.zero with
    desc := fun _ _ => ⟨0, 1, 0, 0⟩
    avail := fun _ => ⟨2, of⟩ }

theorem wrapped_lt {d : UInt16} (hd : d ∈ ([3, 0, 1] : List UInt16)) :
    d.toNat < vhostVringSize := by
  simp only [List.mem_cons, List.not_mem_nil, or_false] at hd
  rcases hd with rfl | rfl | rfl <;> decide

theorem pendingBatch_wrapped :
    PendingBatch bareSpace rxIdx ⟨0, offsetofDesc⟩ ⟨0, offsetofAvail⟩ ⟨0, offsetofUsed⟩
      wrappedTable wrappedMem [3, 0, 1] := by
  have hflag : (0 : UInt16) &&& virtioDescFNext = 0 := rfl
  refine
    { desc := bareSpace_resolve (by decide)
      avail := bareSpace_resolve (by decide)
      used := bareSpace_resolve (by decide)
      pow := ⟨2, rfl⟩
      small := by decide
      room := by decide
      idx := by decide
      slot := fun k d hd => ?_
      chain := fun d hd => ⟨[⟨0, 1, 0, 0⟩], .last (wrapped_lt hd) hflag⟩ }
  rcases k with _ | _ | _ | k <;> cases hd <;> decide

/-- Three entries come back whose slots go on from the end of the ring to its beginning. -/
theorem used_returned_iff_demo :
    UsedReturned bareSpace wrappedTable rxIdx wrappedMem ⟨0, offsetofUsed⟩ [3, 0, 1] := by
  refine (used_returned_iff pendingBatch_wrapped).mpr fun d hd => ?_
  have hflag : (0 : UInt16) &&& virtioDescFNext = 0 := rfl
  refine ⟨[⟨0, 1, 0, 0⟩], .last (wrapped_lt hd) hflag, by decide, ?_, [0], rfl, nofun⟩
  intro e he
  cases he

/-- The empty entry that follows it is published with whatever its slot held. -/
theorem empty_entry_not_returned :
    PendingBatch bareSpace rxIdx ⟨0, offsetofDesc⟩ ⟨0, offsetofAvail⟩ ⟨0, offsetofUsed⟩
      (bareTable 2 0) (mixedMem 2) [0, 1] ∧
    ¬ UsedReturned bareSpace (bareTable 2 0) rxIdx (mixedMem 2) ⟨0, offsetofUsed⟩ [0, 1] := by
  have hbatch := pendingBatch_mixedMem (n := 2) (by decide)
  refine ⟨hbatch, fun hret => ?_⟩
  obtain ⟨l, hl, hdel⟩ := hbatch.headDeliverable_of_usedReturned hret 1 (by decide)
  have hempty : DescChain ((mixedMem 2).desc ⟨0, offsetofDesc⟩) (1 : UInt16).toNat [⟨0, 0, 0, 0⟩] :=
    .last (by decide) rfl
  rw [hl.unique hempty] at hdel
  exact absurd hdel.pos (by decide)

end Vapp
