import Vapp.RingCounters
import Mathlib.Data.List.Perm.Basic

/-! # Where every descriptor is

As long as no packet has been refused by `_process_desc`, each descriptor is in exactly
one of three places: the free list, an avail entry that is still to be consumed, or a
used entry that is still to be reclaimed.  `Ledger` keeps the account with two lists, the
free descriptors in the order of the list and the descriptor of every packet put.
-/
namespace Vapp

open Counter16 ArrayChain

variable {κ μ : Type} {E : RingEnv} {s t : RingState κ μ} {l : RingLabel}

/-- The packets that leave a byte of the local buffer of `_process_desc` free. -/
def Fits (buf : List UInt8) : Prop := buf.length + virtioNetHdrSize < ethPacketSize

instance (buf : List UInt8) : Decidable (Fits buf) := inferInstanceAs (Decidable (_ < _))

/-- The call of `avail_handler` that hands over a whole packet. -/
def callOf (buf : List UInt8) : HandlerCall := ⟨buf, .ofNat buf.length⟩

/-- All descriptors of the table. -/
def allDescs : List UInt16 := (List.range vhostVringSize).map of

theorem mem_allDescs {d : UInt16} : d ∈ allDescs ↔ d.toNat < vhostVringSize := by
  constructor
  · intro h
    obtain ⟨k, hk, rfl⟩ := List.mem_map.mp h
    have hk := List.mem_range.mp hk
    rwa [toNat_of_lt (Nat.lt_trans hk (by decide))]
  · exact fun h => List.mem_map.mpr ⟨d.toNat, List.mem_range.mpr h, of_toNat d⟩

theorem nodup_allDescs : allDescs.Nodup := by
  refine List.Nodup.map_on (fun a ha b hb hab => ?_) List.nodup_range
  have ha := List.mem_range.mp ha
  have hb := List.mem_range.mp hb
  have := congrArg UInt16.toNat hab
  rwa [toNat_of_lt (Nat.lt_trans ha (by decide)), toNat_of_lt (Nat.lt_trans hb (by decide))]
    at this

theorem length_allDescs : allDescs.length = vhostVringSize := by
  rw [allDescs, List.length_map, List.length_range]

/-- Descriptors that are each linked to the following one form the chain of all of them. -/
theorem chain_allDescs {next : UInt16 → UInt16} (hnext : ∀ d, d < vhostVringSize →
    next (of d) = if d + 1 = vhostVringSize then vringIdxNone else of (d + 1)) :
    Chain next vringIdxNone 0 allDescs := by
  rw [allDescs, List.range_eq_range']
  refine chain_range (f := of) (n := vhostVringSize) ?_ ?_ ?_ (vhostVringSize - 1) 0 rfl
  · intro d hd
    refine ne_none_of_lt ?_
    rwa [toNat_of_lt (Nat.lt_trans hd (by decide))]
  · intro d hd
    rw [hnext d (by omega), if_neg (by omega)]
  · rw [hnext _ (by decide), if_pos (by decide)]

/-- The avail entry `k` holds the packet `buf` in descriptor `a`. -/
structure Holds (E : RingEnv) (m : Mem) (k : Nat) (a : UInt16) (buf : List UInt8) : Prop where
  ring : (m.avail E.availLoc).ring (k % vhostVringSize) = a
  room : buf.length ≤ bufferSize
  len : (m.desc E.descLoc a.toNat).len.toNat = virtioNetHdrSize + buf.length
  flags : (m.desc E.descLoc a.toNat).flags = 0
  bytes : Fits buf → m.bytes ((E.buffer a.toNat).add virtioNetHdrSize) buf.length = buf

/-- Nothing but its slot, its descriptor and the buffers matters for an entry. -/
theorem Holds.congr {m m' : Mem} {k : Nat} {a : UInt16} {buf : List UInt8}
    (h : Holds E m k a buf) (havail : m'.avail E.availLoc = m.avail E.availLoc)
    (hdesc : m'.desc E.descLoc a.toNat = m.desc E.descLoc a.toNat)
    (hbyte : ∀ l : Loc, l.shm = E.shm → m'.byte l = m.byte l) : Holds E m' k a buf where
  ring := by rw [havail]; exact h.ring
  room := h.room
  len := by rw [hdesc]; exact h.len
  flags := by rw [hdesc]; exact h.flags
  bytes hfit := (Mem.bytes_congr _ _ fun i _ => hbyte _ rfl).trans (h.bytes hfit)

/-- **The account of the descriptors.** -/
structure Ledger (E : RingEnv) (s : RingState κ μ) (free heads : List UInt16) : Prop where
  chain : Chain (s.next E) vringIdxNone (s.head E) free
  perm : (free ++ heads.drop s.seen).Perm allDescs
  count : heads.length = s.sent.length
  fresh : ∀ d ∈ free, (s.mem.desc E.descLoc d.toNat).len = .ofNat bufferSize
  entry : ∀ (k : Nat) (a : UInt16) (buf : List UInt8), s.outcomes.length ≤ k →
    heads[k]? = some a → s.sent[k]? = some buf → Holds E s.mem k a buf
  used : ∀ (k : Nat) (a : UInt16), s.seen ≤ k → k < s.outcomes.length → heads[k]? = some a →
    ((s.mem.used E.usedLoc).ring (k % vhostVringSize)).id = a.toUInt32
  handed : ∀ (k : Nat) (buf : List UInt8) (o : Option HandlerCall), s.sent[k]? = some buf →
    s.outcomes[k]? = some o → o = some (callOf buf)

namespace Ledger
variable {free heads : List UInt16}

theorem nodup (h : Ledger E s free heads) : (free ++ heads.drop s.seen).Nodup :=
  h.perm.nodup_iff.mpr nodup_allDescs

theorem lt_of_mem (h : Ledger E s free heads) {d : UInt16} (hd : d ∈ free ++ heads.drop s.seen) :
    d.toNat < vhostVringSize := mem_allDescs.mp (h.perm.mem_iff.mp hd)

/-- The free descriptors and the outstanding ones are all there are. -/
theorem length (h : Ledger E s free heads) :
    free.length + (s.sent.length - s.seen) = vhostVringSize := by
  have := h.perm.length_eq
  rwa [List.length_append, List.length_drop, h.count, length_allDescs] at this

/-- The outstanding heads: those that can be reclaimed now, and the rest. -/
theorem drop_eq_take_append (heads : List UInt16) {seen published : Nat}
    (h : seen ≤ published) : heads.drop seen =
      (heads.drop seen).take (published - seen) ++ heads.drop published := by
  have := List.take_append_drop (published - seen) (heads.drop seen)
  rw [List.drop_drop, Nat.add_sub_cancel' h] at this
  exact this.symm

theorem mem_drop {heads : List UInt16} {seen k : Nat} {a : UInt16} (hk : seen ≤ k)
    (ha : heads[k]? = some a) : a ∈ heads.drop seen := by
  refine List.mem_iff_getElem?.mpr ⟨k - seen, ?_⟩
  rw [List.getElem?_drop, Nat.add_sub_cancel' hk, ha]

/-- A free descriptor is not outstanding. -/
theorem free_ne (h : Ledger E s free heads) {d a : UInt16} {k : Nat} (hd : d ∈ free)
    (hk : s.seen ≤ k) (ha : heads[k]? = some a) : a ≠ d := fun heq =>
  (List.nodup_append.mp h.nodup).2.2 d hd a (mem_drop hk ha) heq.symm

end Ledger

/-! ### `put_vring` -/

/-- The bytes written for one buffer are outside what another one holds. -/
theorem bytes_putMem {m : Mem} {D A : Loc} {num : UInt32} {a b : UInt16} {buf : List UInt8}
    {n : Nat} (hne : b ≠ a) (hbuf : buf.length ≤ bufferSize)
    (hn : n + virtioNetHdrSize ≤ bufferSize) :
    (putMem m D A (E.buffer a.toNat) num a buf).bytes ((E.buffer b.toNat).add virtioNetHdrSize) n =
      m.bytes ((E.buffer b.toNat).add virtioNetHdrSize) n := by
  refine Mem.bytes_congr _ _ fun i hi => ?_
  refine Mem.setBytes_byte_of_outside _ _ _ _ (.inr ?_)
  have hne : b.toNat ≠ a.toNat := fun h => hne (UInt16.toNat_inj.mp h)
  rw [bufferSize_eq] at hbuf hn
  simp only [RingEnv.buffer, Loc.add, bufferSize_eq, List.length_append, List.length_replicate,
    virtioNetHdrSize_eq] at *
  omega

theorem bytes_putMem_self (m : Mem) (D A B : Loc) (num : UInt32) (a : UInt16)
    (buf : List UInt8) : (putMem m D A B num a buf).bytes (B.add virtioNetHdrSize) buf.length =
      buf := by
  have happ := Mem.setBytes_append m B (List.replicate virtioNetHdrSize 0) buf
  rw [List.length_replicate] at happ
  show (m.setBytes B (List.replicate virtioNetHdrSize 0 ++ buf)).bytes _ _ = buf
  rw [← happ]
  exact Mem.bytes_setBytes_self _ _ buf

/-- `put_vring` on a wired ring whose head is a fresh descriptor. -/
theorem putVring_fresh (hw : Wired E s) {buf : List UInt8}
    (ha : (s.head E).toNat < vhostVringSize)
    (hlen : (s.mem.desc E.descLoc (s.head E).toNat).len = .ofNat bufferSize)
    (hroom : buf.length ≤ bufferSize) :
    putVring E.prodSpace s.prod E.vIdx buf s.mem = .ret (0,
      s.prod.setVring E.vIdx { s.prod.vring E.vIdx with lastAvailIdx := s.next E (s.head E) },
      putMem s.mem E.descLoc E.availLoc (E.buffer (s.head E).toNat)
        (s.prod.vring E.vIdx).num (s.head E) buf) := by
  have hfit : buf.length ≤ (s.mem.desc E.descLoc (s.head E).toNat).len.toNat := by
    rw [hlen]
    exact hroom
  have hB : Shows E.prodSpace
      (s.prod.translate (s.mem.desc E.descLoc (s.head E).toNat).addr)
      (virtioNetHdrSize + buf.length) (E.buffer (s.head E).toNat) := by
    rw [hw.addr (s.head E).toNat ha]
    exact (hw.prodBuf _ ha).mono (Nat.add_le_add_left hroom _)
  have hslot : (s.mem.avail E.availLoc).idx.toNat % (s.prod.vring E.vIdx).num.toNat <
      vhostVringSize := by
    rw [hw.prodNum]
    exact Nat.mod_lt _ (by decide)
  exact putVring_of_fits hw.prodDesc hw.prodAvail ha hfit hB (num_ne_zero hw.prodNum) hslot

/-- What a successful `put_vring` does on such a ring. -/
theorem putVring_wired (hw : Wired E s) {buf : List UInt8}
    {p : VringTable κ} {m : Mem}
    (hlen : (s.mem.desc E.descLoc (s.head E).toNat).len = .ofNat bufferSize)
    (hput : putVring E.prodSpace s.prod E.vIdx buf s.mem = .ret (0, p, m)) :
    buf.length ≤ bufferSize ∧
    p = s.prod.setVring E.vIdx { s.prod.vring E.vIdx with lastAvailIdx := s.next E (s.head E) } ∧
    m = putMem s.mem E.descLoc E.availLoc (E.buffer (s.head E).toNat)
      (s.prod.vring E.vIdx).num (s.head E) buf := by
  rcases putVring_ret hput with ⟨hr, -, -⟩ | ⟨-, D, A, hD, hA, ha, hfit, -, -, -, -⟩
  · exact absurd hr (by decide)
  · rw [hw.prodDesc] at hD
    cases hD
    have hroom : buf.length ≤ bufferSize := by
      rw [show (s.prod.vring E.vIdx).lastAvailIdx = s.head E from rfl, hlen] at hfit
      exact hfit
    rw [putVring_fresh hw ha hlen hroom] at hput
    cases hput
    exact ⟨hroom, rfl, rfl⟩

section Put
variable {free heads : List UInt16} {buf : List UInt8}

/-- The memory after `put_vring` has put a packet into the head of the free list. -/
abbrev RingState.memPut (E : RingEnv) (s : RingState κ μ) (buf : List UInt8) : Mem :=
  putMem s.mem E.descLoc E.availLoc (E.buffer (s.head E).toNat) (s.prod.vring E.vIdx).num
    (s.head E) buf

theorem memPut_desc_of_ne {d : UInt16} (hd : d ≠ s.head E) :
    (s.memPut E buf).desc E.descLoc d.toNat = s.mem.desc E.descLoc d.toNat :=
  Mem.setDesc_desc_of_ne _ _ _ _ _ fun heq => hd (UInt16.toNat_inj.mp heq)

/-- The packet is entered in the next avail slot. -/
theorem memPut_ring (hw : Wired E s) (hc : Counters E s) (k : Nat) :
    ((s.memPut E buf).avail E.availLoc).ring k =
      if k = s.sent.length % vhostVringSize then s.head E
      else (s.mem.avail E.availLoc).ring k := by
  rw [RingState.memPut, putMem, Mem.setAvail_avail_self]
  show Function.update (s.mem.avail E.availLoc).ring _ _ k = _
  rw [hw.prodNum, hc.availIdx, slot_of vhostVringSize_dvd, Function.update_apply]

/-- An entry of before has another slot, another descriptor and another buffer. -/
theorem Holds.memPut {k : Nat} {a : UInt16} {old : List UInt8} (hw : Wired E s)
    (hc : Counters E s) (h : Holds E s.mem k a old) (hroom : buf.length ≤ bufferSize)
    (hne : a ≠ s.head E) (hlt : k < s.sent.length)
    (hwindow : s.sent.length < k + vhostVringSize) : Holds E (s.memPut E buf) k a old := by
  obtain ⟨h1, h2, h3, h4, h5⟩ := h
  refine ⟨?_, h2, ?_, ?_, fun hfit => ?_⟩
  · rw [memPut_ring hw hc, if_neg (slot_ne hlt (by omega)), h1]
  · rw [memPut_desc_of_ne hne, h3]
  · rw [memPut_desc_of_ne hne, h4]
  · rw [bytes_putMem hne hroom (Nat.le_trans (Nat.le_of_lt hfit) (by decide)), h5 hfit]

/-- The new entry holds the packet. -/
theorem holds_memPut (hw : Wired E s) (hc : Counters E s) (hroom : buf.length ≤ bufferSize) :
    Holds E (s.memPut E buf) s.sent.length (s.head E) buf := by
  have hself : (s.memPut E buf).desc E.descLoc (s.head E).toNat =
      { s.mem.desc E.descLoc (s.head E).toNat with
        len := .ofNat (virtioNetHdrSize + buf.length)
        flags := 0
        next := vringIdxNone } :=
    Mem.setDesc_desc_self _ _ _ _
  refine ⟨?_, hroom, ?_, ?_, fun _ => bytes_putMem_self _ _ _ _ _ _ _⟩
  · rw [memPut_ring hw hc, if_pos rfl]
  · rw [hself]
    refine UInt32.toNat_ofNat_of_lt' ?_
    rw [bufferSize_eq] at hroom
    show virtioNetHdrSize + buf.length < 2 ^ 32
    rw [virtioNetHdrSize_eq]
    omega
  · rw [hself]

/-- A successful `put_vring` has taken the head of the free list. -/
theorem head_ne_of_put (hw : Wired E s) {p : VringTable κ} {m : Mem}
    (hput : putVring E.prodSpace s.prod E.vIdx buf s.mem = .ret (0, p, m)) :
    s.head E ≠ vringIdxNone := by
  intro heq
  rw [putVring_of_out_of_range hw.prodDesc] at hput
  · cases hput
  · show ¬ (s.head E).toNat < vhostVringSize
    rw [heq]
    decide

theorem Ledger.put (hw : Wired E s) (hc : Counters E s)
    (h : Ledger E s free heads) {p : VringTable κ} {m : Mem}
    (hput : putVring E.prodSpace s.prod E.vIdx buf s.mem = .ret (0, p, m)) :
    ∃ free', free = s.head E :: free' ∧
      Ledger E { s with prod := p, mem := m, sent := s.sent ++ [buf] } free'
        (heads ++ [s.head E]) := by
  obtain ⟨free', rfl, hchain⟩ := h.chain.pop (head_ne_of_put hw hput)
  obtain ⟨hroom, rfl, rfl⟩ := putVring_wired hw (h.fresh _ (List.mem_cons_self ..)) hput
  refine ⟨free', rfl, ?_⟩
  have hnodup := h.nodup
  rw [List.cons_append, List.nodup_cons] at hnodup
  have hwindow := h.length
  rw [List.length_cons] at hwindow
  have hle := Nat.le_trans hc.seenLe hc.publishedLe
  have hle' := hc.consumedLe
  refine
    { chain := ?_
      perm := ?_
      count := by simp [h.count]
      fresh := ?_
      entry := ?_
      used := ?_
      handed := ?_ }
  · have hnext : (s.memPut E buf).next E.descLoc =
        Function.update (s.next E) (s.head E) vringIdxNone := Mem.setDesc_next _ _ _ _
    show Chain ((s.memPut E buf).next E.descLoc) vringIdxNone _ free'
    rw [hnext]
    simpa [RingState.head] using
      hchain.update_of_notMem fun hmem => hnodup.1 (List.mem_append_left _ hmem)
  · show (free' ++ (heads ++ [s.head E]).drop s.seen).Perm allDescs
    rw [List.drop_append_of_le_length (by rw [h.count]; omega), ← List.append_assoc]
    exact (List.perm_append_singleton _ _).trans h.perm
  · intro d hd
    have hne : d ≠ s.head E := fun heq => hnodup.1 (List.mem_append_left _ (heq ▸ hd))
    show ((s.memPut E buf).desc E.descLoc d.toNat).len = _
    rw [memPut_desc_of_ne hne]
    exact h.fresh d (List.mem_cons_of_mem _ hd)
  · intro k a buf' (hk : s.outcomes.length ≤ k) ha
      (hbuf' : (s.sent ++ [buf])[k]? = some buf')
    rcases Nat.lt_or_ge k s.sent.length with hlt | hge
    · rw [List.getElem?_append_left (by rw [h.count]; exact hlt)] at ha
      rw [List.getElem?_append_left hlt] at hbuf'
      have hne : a ≠ s.head E :=
        h.free_ne (List.mem_cons_self ..) (Nat.le_trans hle hk) ha
      exact (h.entry k a buf' hk ha hbuf').memPut hw hc hroom hne hlt (by omega)
    · obtain ⟨hk', -⟩ := List.getElem?_eq_some_iff.mp ha
      have hkeq : k = s.sent.length := by
        rw [List.length_append, List.length_singleton, h.count] at hk'
        omega
      subst hkeq
      rw [← h.count, List.getElem?_concat_length] at ha
      rw [List.getElem?_concat_length] at hbuf'
      cases ha
      cases hbuf'
      exact holds_memPut hw hc hroom
  · intro k a hseen (hk : k < s.outcomes.length) ha
    rw [List.getElem?_append_left (by rw [h.count]; exact Nat.lt_of_lt_of_le hk hle')] at ha
    exact h.used k a hseen hk ha
  · intro k buf' o hbuf' ho
    obtain ⟨hk, -⟩ := List.getElem?_eq_some_iff.mp ho
    rw [List.getElem?_append_left (Nat.lt_of_lt_of_le hk hle')] at hbuf'
    exact h.handed k buf' o hbuf' ho

end Put

/-! ### `process_avail_vring` -/

/-- The call made for a packet that has a header. -/
theorem packetCall_drop {k : Nat} {len : UInt32} {bytes : List UInt8}
    (hlen : bytes.length = len.toNat) (hhdr : virtioNetHdrSize ≤ len.toNat) :
    packetCall ⟨k, len, bytes⟩ = callOf (bytes.drop virtioNetHdrSize) := by
  have hsize : len.toUInt64 - .ofNat virtioNetHdrSize =
      .ofNat (bytes.drop virtioNetHdrSize).length := by
    have hlt := len.toNat_lt
    have hhdr' : (UInt64.ofNat virtioNetHdrSize).toNat = virtioNetHdrSize := rfl
    rw [virtioNetHdrSize_eq] at hhdr
    rw [← UInt64.toNat_inj, UInt64.toNat_sub, UInt32.toNat_toUInt64, hhdr',
      UInt64.toNat_ofNat', List.length_drop, hlen, virtioNetHdrSize_eq]
    omega
  rw [packetCall, callOf, hsize]

/-- The call made for a packet that was put whole. -/
theorem packetCall_eq {m : Mem} {B : Loc} {len : UInt32} {buf : List UInt8}
    (hlen : len.toNat = virtioNetHdrSize + buf.length)
    (hbytes : m.bytes (B.add virtioNetHdrSize) buf.length = buf) :
    packetCall ⟨0, len, m.bytes B len.toNat⟩ = callOf buf := by
  rw [packetCall_drop (Mem.length_bytes _ _ _) (by omega), hlen, Mem.bytes_add,
    List.drop_left' (Mem.length_bytes _ _ _), hbytes]

section Serve
variable {free heads : List UInt16} {a : UInt16} {buf : List UInt8} {fuel : Nat}
  {r : AvailTurn μ}

/-- The entry that the next turn consumes. -/
theorem Ledger.pending (hw : Wired E s) (hc : Counters E s) (h : Ledger E s free heads)
    (hcur : s.cursor = some a) (hbuf : s.sent[s.outcomes.length]? = some buf) :
    ∃ d, heads[s.outcomes.length]? = some d ∧ d.toNat < vhostVringSize ∧
      Holds E s.mem s.outcomes.length d buf ∧ (s.mem.avail E.availLoc).ring a.toNat = d ∧
      SingleDesc s.cons s.mem E.vIdx E.descLoc E.availLoc a E.consSpace
        (s.mem.desc E.descLoc d.toNat) := by
  obtain ⟨hlt, -⟩ := List.getElem?_eq_some_iff.mp hbuf
  obtain ⟨d, hd⟩ : ∃ d, heads[s.outcomes.length]? = some d :=
    ⟨_, List.getElem?_eq_getElem (by rw [h.count]; exact hlt)⟩
  have hrange : d.toNat < vhostVringSize :=
    h.lt_of_mem (List.mem_append_right _ (mem_drop (Nat.le_trans hc.seenLe hc.publishedLe) hd))
  have hholds := h.entry _ d buf (Nat.le_refl _) hd hbuf
  have ha := hc.cursor a hcur
  have hring : (s.mem.avail E.availLoc).ring a.toNat = d := by
    rw [ha]
    exact hholds.ring
  refine ⟨d, hd, hrange, hholds, hring, ?_⟩
  exact
    { num := num_ne_zero hw.consNum
      desc := hw.consDesc
      avail := hw.consAvail
      slot := by
        rw [ha]
        exact Nat.mod_lt _ (by decide)
      id := by rwa [hring]
      eq := by rw [hring]
      flag := by
        rw [hholds.flags]
        rfl }

/-- **A packet that fits is handed over whole**, and its descriptor is entered in the
used ring. -/
theorem Ledger.processDesc_fits (hw : Wired E s) (hc : Counters E s) (h : Ledger E s free heads)
    (hcur : s.cursor = some a) (hbuf : s.sent[s.outcomes.length]? = some buf) (hfit : Fits buf)
    (hfuel : 0 < fuel) :
    ∃ res d len, processDesc E.consSpace fuel s.cons E.vIdx a s.mem = .ret res ∧
      res.call = some (callOf buf) ∧ heads[s.outcomes.length]? = some d ∧
      res.mem = s.mem.setUsed E.usedLoc
        { s.mem.used E.usedLoc with
          ring := Function.update (s.mem.used E.usedLoc).ring
            (s.outcomes.length % vhostVringSize) ⟨d.toUInt32, len⟩ } := by
  obtain ⟨d, hd, hrange, hholds, hring, hsingle⟩ := h.pending hw hc hcur hbuf
  obtain ⟨hd', hhd, hacc⟩ := hw.handler
  have hlen := hholds.len
  have hfit' : buf.length + virtioNetHdrSize < ethPacketSize := hfit
  have hB : Shows E.consSpace
      (s.cons.translate (s.mem.desc E.descLoc d.toNat).addr)
      (s.mem.desc E.descLoc d.toNat).len.toNat (E.buffer d.toNat) := by
    rw [hw.addr _ hrange, hlen]
    refine (hw.consBuf _ hrange).mono ?_
    rw [bufferSize]
    omega
  have hcall := packetCall_eq hlen (hholds.bytes hfit)
  have hslot : (s.cons.vring E.vIdx).lastUsedIdx.toNat % (s.cons.vring E.vIdx).num.toNat =
      s.outcomes.length % vhostVringSize := by
    rw [hw.consNum, hc.lastUsed, slot_of vhostVringSize_dvd]
  have heq := processDesc_of_fits hsingle hw.consUsed
    (by rw [hslot]; exact Nat.mod_lt _ (by decide))
    (by rw [hlen, virtioNetHdrSize_eq]; omega) (by rw [hlen]; omega) hB hhd
    (by
      rw [hcall]
      refine hacc _ ?_
      rw [callOf, UInt64.toNat_ofNat_of_lt' (by
        show buf.length < 2 ^ 64
        rw [show ethPacketSize = 1518 from rfl] at hfit'
        omega)]
      omega)
    hfuel
  rw [hslot, hring] at heq
  exact ⟨_, d, _, heq, congrArg some hcall, hd, rfl⟩

theorem Ledger.serve_fits (hw : Wired E s) (hc : Counters E s) (h : Ledger E s free heads)
    (hcur : s.cursor = some a) (hbuf : s.sent[s.outcomes.length]? = some buf) (hfit : Fits buf)
    (hturn : availTurn E.consSpace fuel s.cons E.vIdx a s.mem = .ret (some r)) :
    r.call = some (callOf buf) ∧ ∃ d len, heads[s.outcomes.length]? = some d ∧
      r.mem = s.mem.setUsed E.usedLoc
        { s.mem.used E.usedLoc with
          ring := Function.update (s.mem.used E.usedLoc).ring
            (s.outcomes.length % vhostVringSize) ⟨d.toUInt32, len⟩ } := by
  obtain ⟨_, res, -, -, hres, -, -, hm, -, hcall⟩ := availTurn_some hturn
  obtain ⟨res', d, len, hres', hcall', hd, hmem⟩ :=
    h.processDesc_fits hw hc hcur hbuf hfit (fuel_pos_of_processDesc hres)
  rw [hres'] at hres
  cases hres
  exact ⟨hcall.trans hcall', d, len, hd, hm.trans hmem⟩

/-- A packet that does not fit is not handed over, and its used slot keeps what it held. -/
theorem Ledger.serve_refused (hw : Wired E s) (hc : Counters E s) (h : Ledger E s free heads)
    (hcur : s.cursor = some a) (hbuf : s.sent[s.outcomes.length]? = some buf)
    (hfit : ¬ Fits buf)
    (hturn : availTurn E.consSpace fuel s.cons E.vIdx a s.mem = .ret (some r)) :
    r.call = none ∧ r.mem = s.mem := by
  obtain ⟨d, -, -, hholds, -, hsingle⟩ := h.pending hw hc hcur hbuf
  obtain ⟨_, res, -, -, hres, -, -, hm, -, hcall⟩ := availTurn_some hturn
  have hlong : ethPacketSize ≤ (s.mem.desc E.descLoc d.toNat).len.toNat := by
    rw [hholds.len, Nat.add_comm]
    exact Nat.not_lt.mp hfit
  rw [processDesc_of_long hsingle hlong (fuel_pos_of_processDesc hres)] at hres
  cases hres
  exact ⟨hcall, hm⟩

theorem Ledger.serve (hw : Wired E s) (hc : Counters E s) (h : Ledger E s free heads)
    (hcur : s.cursor = some a) (hbuf : s.sent[s.outcomes.length]? = some buf) (hfit : Fits buf)
    (hturn : availTurn E.consSpace fuel s.cons E.vIdx a s.mem = .ret (some r)) :
    Ledger E
      { s with
        cons := r.table
        mem := r.mem
        cursor := some r.aIdx
        outcomes := s.outcomes ++ [r.call] } free heads := by
  obtain ⟨hcall, d, len, hd, hm⟩ := h.serve_fits hw hc hcur hbuf hfit hturn
  obtain ⟨hlt, -⟩ := List.getElem?_eq_some_iff.mp hbuf
  have hwindow := h.length
  have hlen : (s.outcomes ++ [r.call]).length = s.outcomes.length + 1 := by simp
  have hdesc : r.mem.desc = s.mem.desc := by rw [hm]; rfl
  have havail : r.mem.avail = s.mem.avail := by rw [hm]; rfl
  have hbyte : r.mem.byte = s.mem.byte := by rw [hm]; rfl
  refine
    { chain := ?_
      perm := h.perm
      count := h.count
      fresh := ?_
      entry := ?_
      used := ?_
      handed := ?_ }
  · have hnext : r.mem.next E.descLoc = s.mem.next E.descLoc := by
      funext k
      rw [Mem.next, hdesc]
      rfl
    show Chain (r.mem.next E.descLoc) vringIdxNone _ free
    rw [hnext]
    exact h.chain
  · intro d hd
    show (r.mem.desc _ _).len = _
    rw [hdesc]
    exact h.fresh d hd
  · intro k e buf' (hk : (s.outcomes ++ [r.call]).length ≤ k) he hbuf'
    rw [hlen] at hk
    exact (h.entry k e buf' (by omega) he hbuf').congr (congrFun havail _)
      (congrFun (congrFun hdesc _) _) fun l _ => congrFun hbyte l
  · intro k e (hseen : s.seen ≤ k) (hk : k < (s.outcomes ++ [r.call]).length) he
    rw [hlen] at hk
    show ((r.mem.used E.usedLoc).ring _).id = _
    rw [hm, Mem.setUsed_used_self]
    by_cases hkeq : k = s.outcomes.length
    · subst hkeq
      rw [hd] at he
      cases he
      simp
    · show ((Function.update _ _ _ : Nat → VringUsedElem) _).id = _
      rw [Function.update_of_ne (slot_ne (by omega) (by omega))]
      exact h.used k e hseen (by omega) he
  · intro k buf' o hbuf' (ho : (s.outcomes ++ [r.call])[k]? = some o)
    by_cases hk : k < s.outcomes.length
    · rw [List.getElem?_append_left hk] at ho
      exact h.handed k buf' o hbuf' ho
    · obtain ⟨hk', -⟩ := List.getElem?_eq_some_iff.mp ho
      have hkeq : k = s.outcomes.length := by omega
      subst hkeq
      rw [List.getElem?_concat_length] at ho
      rw [hbuf] at hbuf'
      cases ho
      cases hbuf'
      exact hcall

end Serve

theorem Ledger.leave {free heads : List UInt16} (hw : Wired E s) (h : Ledger E s free heads)
    {m : Mem} (hleave : availLeave E.consSpace s.cons E.vIdx s.mem = .ret m) :
    Ledger E { s with mem := m, cursor := none, published := s.outcomes.length } free heads := by
  rw [availLeave, storeUsedIdx_of_resolve hw.consUsed] at hleave
  cases hleave
  refine ⟨h.1, h.2, h.3, h.4, ?_, ?_, h.7⟩
  · intro k a buf hk ha hbuf
    exact (h.entry k a buf hk ha hbuf).congr rfl rfl fun _ _ => rfl
  · intro k a hseen hk ha
    rw [Mem.setUsed_used_self]
    exact h.used k a hseen hk ha

/-! ### `process_used_vring` -/

section Reclaim
variable {free heads : List UInt16}

/-- The ids the walk of `process_used_vring` meets are the descriptors of the entries
published since the last call. -/
theorem Ledger.ids (hc : Counters E s) (h : Ledger E s free heads) {u : Nat}
    (hu : u = s.seen % vhostVringSize) :
    (((s.mem.used E.usedLoc).ids vhostVringSize u (s.published - s.seen)).map
      UInt32.toUInt16) = (heads.drop s.seen).take (s.published - s.seen) := by
  have hpub := hc.publishedLe
  have hsent := hc.consumedLe
  refine List.ext_getElem? fun k => ?_
  rw [VringUsed.ids, List.map_map, List.getElem?_map, List.getElem?_take]
  by_cases hk : k < s.published - s.seen
  · obtain ⟨d, hd⟩ : ∃ d, heads[s.seen + k]? = some d :=
      ⟨_, List.getElem?_eq_getElem (by rw [h.count]; omega)⟩
    have hid := h.used _ d (Nat.le_add_right s.seen k) (by omega) hd
    rw [List.getElem?_range hk, if_pos hk, List.getElem?_drop, hd, Option.map_some,
      Function.comp_apply, hu, Nat.mod_add_mod, hid]
    simp
  · rw [List.getElem?_eq_none (by rw [List.length_range]; omega), if_neg hk]
    rfl

theorem Ledger.reclaim (hw : Wired E s) (hc : Counters E s) (h : Ledger E s free heads)
    {fuel : Nat} {u : UsedLoop κ}
    (hcall : processUsedVring E.prodSpace fuel s.prod E.vIdx s.mem = .ret u) :
    Ledger E { s with prod := u.table, mem := u.mem, seen := s.published }
      (((heads.drop s.seen).take (s.published - s.seen)).reverse ++ free) heads := by
  have hwalk := hw.walking hc.lastUsed_lt
  obtain ⟨hidx, -, hids, rfl⟩ := (processUsedVring_ret_iff hwalk).mp hcall
  have hpub := hc.publishedLe
  have hsent := hc.consumedLe
  have hseen := hc.seenLe
  have hwindow := h.length
  obtain ⟨hdist, hu⟩ := hc.distance (by omega) hidx
  rw [hdist] at hids ⊢
  have hheads := h.ids hc hu
  have hframe := UsedLoop.walk_frame (i := E.vIdx) (D := E.descLoc) (U := E.usedLoc)
    (s.published - s.seen) (.start s.prod E.vIdx s.mem)
  -- the outstanding descriptors: those to be freed now and the rest
  have hsplit := drop_eq_take_append heads hseen
  have hnodup := h.nodup
  rw [hsplit, ← List.append_assoc] at hnodup
  have hfreed := (List.nodup_append.mp hnodup).1
  have hkeep : ∀ d : UInt16, d ∉ (heads.drop s.seen).take (s.published - s.seen) →
      ((UsedLoop.start s.prod E.vIdx s.mem).walk E.vIdx E.descLoc E.usedLoc
        (s.published - s.seen)).mem.desc E.descLoc d.toNat = s.mem.desc E.descLoc d.toNat := by
    intro d hd
    refine walk_desc_of_notMem _ hwalk fun e he heq => hd ?_
    have hin : e.toUInt16 ∈ (heads.drop s.seen).take (s.published - s.seen) := by
      rw [← hheads]
      exact List.mem_map_of_mem he
    rwa [UInt16.toNat_inj.mp ((toNat_toUInt16 (hids e he)).trans heq)] at hin
  have hlater : ∀ k a, s.outcomes.length ≤ k → heads[k]? = some a →
      a ∉ (heads.drop s.seen).take (s.published - s.seen) := by
    intro k a hk ha hin
    have hrest : a ∈ heads.drop s.published := mem_drop (Nat.le_trans hpub hk) ha
    exact (List.nodup_append.mp hnodup).2.2 a (List.mem_append_right _ hin) a hrest rfl
  refine
    { chain := ?_
      perm := ?_
      count := h.count
      fresh := ?_
      entry := ?_
      used := ?_
      handed := h.handed }
  · have hheads' : (((UsedLoop.start s.prod E.vIdx s.mem).mem.used E.usedLoc).ids
        vhostVringSize (UsedLoop.start s.prod E.vIdx s.mem).uIdx.toNat
        (s.published - s.seen)).map UInt32.toUInt16 =
        (heads.drop s.seen).take (s.published - s.seen) := hheads
    have := walk_chain (s.published - s.seen) hwalk hids h.chain
      (by rw [hheads']; exact List.nodup_append_comm.mp hfreed)
    rw [hheads'] at this
    simpa [RingState.next, RingState.head, UsedLoop.finish] using this
  · show (_ ++ heads.drop s.published).Perm allDescs
    have hperm := h.perm
    rw [hsplit, ← List.append_assoc] at hperm
    refine List.Perm.trans ?_ hperm
    refine List.Perm.append_right _ (List.perm_append_comm.trans ?_)
    exact List.Perm.append_left free (List.reverse_perm _)
  · intro d hd
    by_cases hin : d ∈ (heads.drop s.seen).take (s.published - s.seen)
    · rw [← hheads] at hin
      obtain ⟨e, he, rfl⟩ := List.mem_map.mp hin
      have := walk_len_of_mem _ hwalk he
      rwa [← toNat_toUInt16 (hids e he)] at this
    · refine (congrArg VringDesc.len (hkeep d hin)).trans (h.fresh d ?_)
      rcases List.mem_append.mp hd with hrev | hfree
      · exact absurd (List.mem_reverse.mp hrev) hin
      · exact hfree
  · intro k a buf hk ha hbuf
    exact (h.entry k a buf hk ha hbuf).congr (congrFun hframe.avail _)
      (hkeep a (hlater k a hk ha)) fun l _ => congrFun hframe.byte l
  · intro k a hk hk' ha
    refine Eq.trans ?_ (h.used k a (Nat.le_trans hseen hk) hk' ha)
    exact congrArg (fun f => ((f E.usedLoc).ring (k % vhostVringSize)).id) hframe.used

end Reclaim

end Vapp
