import Vapp.ChainWalk
import Vapp.RingLedger

/-! # Whole packets

What `_process_desc` hands to `avail_handler` for a finite chain: the bytes behind the header
if the packet has a header and fits, nothing if it does not.  The code keeps to that except
for a packet shorter than a header, and for a packet that stops fitting after its first bytes.
-/
namespace Vapp

variable {κ : Type} {sp : AddrSpace} {t : VringTable κ} {i : RingIdx} {m : Mem} {fuel : Nat}
  {D A U : Loc} {aIdx : UInt16} {l : List VringDesc} {bytes : List UInt8}

/-! ### The call of a handler -/

/-- The table with a handler that takes every packet and does nothing. -/
def VringTable.observed (t : VringTable κ) : VringTable κ where
  context := t.context
  handlers :=
    { availHandler := some ⟨fun _ => true, fun c _ => c⟩
      mapHandler := t.handlers.mapHandler
      map_consume := by
        rintro h hh f - ctx call a
        cases hh
        rfl }
  vring := t.vring

@[simp] theorem VringTable.observed_vring (t : VringTable κ) : t.observed.vring = t.vring := rfl

/-- **A handler is called with what the observer is called with**, if it is called at all. -/
theorem processDesc_observed {h : AvailHandler κ} (hh : t.handlers.availHandler = some h) :
    processDesc sp fuel t i aIdx m = (do
      let r ← processDesc sp fuel t.observed i aIdx m
      match r.call with
      | none => return ⟨r.ret, t, r.mem, none⟩
      | some call =>
          Outcome.require (h.accepts call) (.bufOverflow 0 call.size.toNat)
          return ⟨r.ret, { t with context := h.consume t.context call }, r.mem, some call⟩) := by
  have hcopy : copyTurn sp t.observed = copyTurn sp t := rfl
  unfold processDesc
  simp only [Outcome.bind_assoc, hcopy]
  refine congrArg _ (funext fun _ => congrArg _ (funext fun d => congrArg _ (funext fun c => ?_)))
  split
  · rfl
  · simp only [Outcome.bind_assoc]
    refine congrArg _ (funext fun m' => ?_)
    simp only [consumePacket, hh]
    rfl

/-! ### What is copied of a chain -/

/-- The packet is too long, and so is its first buffer that is not empty. -/
def FirstTooLong (l : List VringDesc) : Prop :=
  ∃ d, l.find? (fun d => d.len ≠ 0) = some d ∧ ethPacketSize ≤ d.len.toNat

theorem totalLen_cons (d : VringDesc) (l : List VringDesc) :
    totalLen (d :: l) = d.len.toNat + totalLen l := List.sum_cons

/-- A chain that fits is copied to its end. -/
theorem copied_of_fits {l : List VringDesc} : ∀ {len : Nat},
    len + totalLen l < ethPacketSize → copied len l = l := by
  induction l with
  | nil => exact fun _ => rfl
  | cons d l ih =>
      intro len h
      rw [totalLen_cons] at h
      rw [copied, if_pos (by omega), ih (by omega)]

/-- Of a chain that does not fit nothing is copied exactly if its first bytes do not fit. -/
theorem copied_zero_iff {l : List VringDesc} (h : ethPacketSize ≤ totalLen l) :
    totalLen (copied 0 l) = 0 ↔ FirstTooLong l := by
  induction l with
  | nil => exact absurd h (by decide)
  | cons d l ih =>
      rw [totalLen_cons] at h
      rw [copied, Nat.zero_add]
      by_cases hzero : d.len = 0
      · have hlen : d.len.toNat = 0 := congrArg UInt32.toNat hzero
        have hfirst : FirstTooLong (d :: l) ↔ FirstTooLong l := by
          rw [FirstTooLong, FirstTooLong, List.find?_cons_of_neg (by simpa using hzero)]
        rw [hlen, if_pos (by decide), totalLen_cons, hlen, hfirst, ← ih (by omega), Nat.zero_add]
      · have hpos : d.len.toNat ≠ 0 := fun h0 => hzero (UInt32.toNat_inj.mp h0)
        have hfirst : FirstTooLong (d :: l) ↔ ethPacketSize ≤ d.len.toNat := by
          rw [FirstTooLong, List.find?_cons_of_pos (by simpa using hzero)]
          constructor
          · rintro ⟨_, hd, hle⟩
            cases hd
            exact hle
          · exact fun hle => ⟨d, rfl, hle⟩
        rw [hfirst]
        by_cases hfit : d.len.toNat < ethPacketSize
        · rw [if_pos hfit, totalLen_cons]
          omega
        · rw [if_neg hfit]
          exact ⟨fun _ => Nat.not_lt.mp hfit, fun _ => rfl⟩

/-- What can be read of a chain can be read of what is copied. -/
theorem gather_copied {l : List VringDesc} : ∀ {len : Nat} {bytes : List UInt8},
    gather sp t m l = .ret bytes → ∃ part, gather sp t m (copied len l) = .ret part := by
  induction l with
  | nil => exact fun _ => ⟨[], rfl⟩
  | cons d l ih =>
      intro len bytes h
      obtain ⟨first, hfirst, h⟩ := Outcome.bind_eq_ret.mp h
      obtain ⟨rest, hrest, -⟩ := Outcome.bind_eq_ret.mp h
      rw [copied]
      split
      · obtain ⟨part, hpart⟩ := ih hrest
        exact ⟨first ++ part, by rw [gather, hfirst, Outcome.ret_bind, hpart]; rfl⟩
      · exact ⟨[], rfl⟩

theorem length_of_gather {l : List VringDesc} : ∀ {bytes : List UInt8},
    gather sp t m l = .ret bytes → bytes.length = totalLen l := by
  induction l with
  | nil =>
      intro bytes h
      cases h
      rfl
  | cons d l ih =>
      intro bytes h
      obtain ⟨first, hfirst, h⟩ := Outcome.bind_eq_ret.mp h
      obtain ⟨rest, hrest, h⟩ := Outcome.bind_eq_ret.mp h
      cases h
      rw [List.length_append, length_of_readBytes hfirst, ih hrest, totalLen_cons]

/-! ### One entry -/

/-- An entry of the avail ring whose chain is finite, and whose buffers hold `bytes`. -/
structure ChainEntry (sp : AddrSpace) (t : VringTable κ) (i : RingIdx) (m : Mem) (D A U : Loc)
    (aIdx : UInt16) (l : List VringDesc) (bytes : List UInt8) : Prop where
  num : (t.vring i).num ≠ 0
  desc : sp.resolve (t.vring i).desc = some D
  avail : sp.resolve (t.vring i).avail = some A
  used : sp.resolve (t.vring i).used = some U
  slot : aIdx.toNat < vhostVringSize
  usedSlot : (t.vring i).lastUsedIdx.toNat % (t.vring i).num.toNat < vhostVringSize
  chain : DescChain (m.desc D) ((m.avail A).ring aIdx.toNat).toNat l
  bytes : gather sp t m l = .ret bytes

/-- `_process_desc` hands over the bytes behind the header if there is a header and the
packet fits, and nothing if not, whatever the handler does with it. -/
def WholeOrNothing (sp : AddrSpace) (t : VringTable κ) (i : RingIdx) (m : Mem) (aIdx : UInt16)
    (l : List VringDesc) (bytes : List UInt8) : Prop :=
  ∀ fuel, l.length ≤ fuel → ∃ r, processDesc sp fuel t.observed i aIdx m = .ret r ∧
    r.call = if virtioNetHdrSize ≤ totalLen l ∧ totalLen l < ethPacketSize then
        some (callOf (bytes.drop virtioNetHdrSize))
      else
        none

namespace ChainEntry
variable (h : ChainEntry sp t i m D A U aIdx l bytes)
include h

/-- The call that `_process_desc` makes. -/
theorem call_iff (hfuel : l.length ≤ fuel) {c : Option HandlerCall} :
    (∃ r, processDesc sp fuel t.observed i aIdx m = .ret r ∧ r.call = c) ↔
      NoWrap 0 l ∧ ∃ part, gather sp t m (copied 0 l) = .ret part ∧
        c = if totalLen (copied 0 l) = 0 then none
          else some (packetCall ⟨0, .ofNat (totalLen (copied 0 l)), part⟩) := by
  have hgather : ∀ l', gather sp t.observed m l' = gather sp t m l' := by
    intro l'
    induction l' with
    | nil => rfl
    | cons d l' ih => rw [gather, gather, ih]; rfl
  rw [processDesc_eq_head (t := t.observed) h.num h.avail h.slot,
    processHead_of_chain (t := t.observed) h.desc h.chain hfuel]
  -- what the rest of the call does with the bytes that were copied
  have hrest : ∀ part : List UInt8, ∃ r : DescResult κ, (if totalLen (copied 0 l) = 0 then
      .ret ⟨-1, t.observed, m, none⟩ else do
        let m' ← storeUsedElem sp m (t.observed.vring i).used
          ((t.observed.vring i).lastUsedIdx.toNat % (t.observed.vring i).num.toNat)
          ⟨((m.avail A).ring aIdx.toNat).toUInt32, .ofNat (totalLen (copied 0 l))⟩
        consumePacket t.observed m' ⟨0, .ofNat (totalLen (copied 0 l)), part⟩) = .ret r ∧
      r.call = if totalLen (copied 0 l) = 0 then none
        else some (packetCall ⟨0, .ofNat (totalLen (copied 0 l)), part⟩) := by
    intro part
    split
    · exact ⟨_, rfl, rfl⟩
    · rw [VringTable.observed_vring, storeUsedElem_of_resolve h.used h.usedSlot]
      exact ⟨_, rfl, rfl⟩
  constructor
  · rintro ⟨r, hr, rfl⟩
    obtain ⟨c, hcopy, hr⟩ := Outcome.bind_eq_ret.mp hr
    obtain ⟨hwrap, part, hpart, rfl⟩ := (copyChain_ret_iff l).mp hcopy
    rw [Nat.zero_add, List.nil_append] at hr
    obtain ⟨r', hr', hcall⟩ := hrest part
    cases hr.symm.trans hr'
    exact ⟨hwrap, part, (hgather _).symm.trans hpart, hcall⟩
  · rintro ⟨hwrap, part, hpart, rfl⟩
    have hcopy : copyChain sp t.observed m l 0 [] = .ret _ :=
      (copyChain_ret_iff l).mpr ⟨hwrap, part, (hgather _).trans hpart, rfl⟩
    rw [Nat.zero_add, List.nil_append] at hcopy
    rw [hcopy, Outcome.ret_bind]
    exact hrest part

theorem length_bytes : bytes.length = totalLen l := length_of_gather h.bytes

/-- A chain that fits. -/
theorem call_of_fits (hfuel : l.length ≤ fuel) (hfit : totalLen l < ethPacketSize) :
    ∃ r, processDesc sp fuel t.observed i aIdx m = .ret r ∧
      r.call = if totalLen l = 0 then none
        else some (packetCall ⟨0, .ofNat (totalLen l), bytes⟩) := by
  have hcopied : copied 0 l = l := copied_of_fits (by omega)
  refine (h.call_iff hfuel).mpr ⟨fun d hd => ?_, bytes, ?_, ?_⟩
  · rw [hcopied, List.getElem?_eq_none (Nat.le_refl _)] at hd
    cases hd
  · rw [hcopied]
    exact h.bytes
  · rw [hcopied]

/-- A chain that does not fit: there is no call exactly if its first bytes do not fit. -/
theorem no_call_iff (hfuel : l.length ≤ fuel) (hlong : ethPacketSize ≤ totalLen l) :
    (∃ r, processDesc sp fuel t.observed i aIdx m = .ret r ∧ r.call = none) ↔ FirstTooLong l := by
  rw [h.call_iff hfuel, ← copied_zero_iff hlong]
  constructor
  · rintro ⟨-, part, -, hcall⟩
    split at hcall
    · assumption
    · cases hcall
  · intro hzero
    obtain ⟨part, hpart⟩ : ∃ part, gather sp t m (copied 0 l) = .ret part :=
      gather_copied h.bytes
    refine ⟨fun d _ => ?_, part, hpart, (if_pos hzero).symm⟩
    have := d.len.toNat_lt
    omega

end ChainEntry

/-- **The handler sees the whole packet or nothing** if and only if the chain is empty, has
a header and fits, or does not fit from its first bytes on. -/
theorem handed_whole_or_nothing_iff (h : ChainEntry sp t i m D A U aIdx l bytes) :
    WholeOrNothing sp t i m aIdx l bytes ↔
      totalLen l = 0 ∨ (virtioNetHdrSize ≤ totalLen l ∧ totalLen l < ethPacketSize) ∨
        (ethPacketSize ≤ totalLen l ∧ FirstTooLong l) := by
  have hhdr : virtioNetHdrSize = 10 := virtioNetHdrSize_eq
  have hsize : ethPacketSize = 1518 := rfl
  by_cases hfit : totalLen l < ethPacketSize
  · have hword : (UInt32.ofNat (totalLen l)).toNat = totalLen l :=
      UInt32.toNat_ofNat_of_lt' (Nat.lt_trans hfit (by decide))
    constructor
    · intro hwhole
      obtain ⟨r, hr, hcall⟩ := hwhole l.length (Nat.le_refl _)
      obtain ⟨r', hr', hcall'⟩ := h.call_of_fits (Nat.le_refl _) hfit
      cases hr.symm.trans hr'
      by_cases hzero : totalLen l = 0
      · exact .inl hzero
      · refine .inr (.inl ⟨Nat.not_lt.mp fun hshort => ?_, hfit⟩)
        rw [hcall', if_neg hzero, if_neg (by omega)] at hcall
        cases hcall
    · intro hcond fuel hfuel
      obtain ⟨r, hr, hcall⟩ := h.call_of_fits hfuel hfit
      refine ⟨r, hr, hcall.trans ?_⟩
      by_cases hzero : totalLen l = 0
      · rw [if_pos hzero, if_neg (by omega)]
      · have hhead : virtioNetHdrSize ≤ totalLen l := by omega
        rw [if_neg hzero, if_pos ⟨hhead, hfit⟩,
          packetCall_drop (h.length_bytes.trans hword.symm) (by rw [hword]; exact hhead)]
  · have hnone : (if virtioNetHdrSize ≤ totalLen l ∧ totalLen l < ethPacketSize then
        some (callOf (bytes.drop virtioNetHdrSize)) else none) = none :=
      if_neg fun hin => hfit hin.2
    have hlong := Nat.not_lt.mp hfit
    rw [WholeOrNothing, hnone]
    constructor
    · exact fun hwhole =>
        .inr (.inr ⟨hlong, (h.no_call_iff (Nat.le_refl _) hlong).mp (hwhole _ (Nat.le_refl _))⟩)
    · rintro (hzero | ⟨-, hlt⟩ | ⟨-, hfirst⟩)
      · omega
      · exact absurd hlt hfit
      · exact fun fuel hfuel => (h.no_call_iff hfuel hlong).mpr hfirst

/-- A chain of two buffers. -/
def pairTable (a b : UInt32) (k : Nat) : VringDesc :=
  if k = 0 then ⟨0, a, virtioDescFNext, 1⟩ else ⟨0, b, 0, 0⟩

/-- Its buffers are at the beginning of the object. -/
theorem chainEntry_pairTable {a b : UInt32} (ha : a.toNat ≤ vhostClientPageSize.toNat)
    (hb : b.toNat ≤ vhostClientPageSize.toNat) :
    ∃ bytes, ChainEntry bareSpace (bareTable 1 0) rxIdx (tableMem (pairTable a b))
      ⟨0, offsetofDesc⟩ ⟨0, offsetofAvail⟩ ⟨0, offsetofUsed⟩ 0
      [pairTable a b 0, pairTable a b 1] bytes := by
  have hread : ∀ n, n ≤ vhostClientPageSize.toNat → ∃ bytes,
      readBytes bareSpace (tableMem (pairTable a b)) 0 n = .ret bytes := by
    intro n hn
    have hpage : vhostClientPageSize.toNat < 2 ^ 64 := UInt64.toNat_lt _
    refine readBytes_returns_iff.mpr fun k hk => ?_
    have hoff : (0 + UInt64.ofNat k).toNat = k := by
      rw [UInt64.zero_add, UInt64.toNat_ofNat_of_lt' (by
        show k < 2 ^ 64
        omega)]
    rw [bareSpace_resolve (by omega)]
    rfl
  obtain ⟨first, hfirst⟩ := hread a.toNat ha
  obtain ⟨second, hsecond⟩ := hread b.toNat hb
  refine ⟨first ++ (second ++ []),
    { num := by decide
      desc := bareSpace_resolve (by decide)
      avail := bareSpace_resolve (by decide)
      used := bareSpace_resolve (by decide)
      slot := by decide
      usedSlot := by decide
      chain := .link (show 0 < vhostVringSize by decide)
        (show virtioDescFNext &&& virtioDescFNext ≠ 0 by decide)
        (.last (show 1 < vhostVringSize by decide) (show 0 &&& virtioDescFNext = 0 by decide))
      bytes := ?_ }⟩
  have htr : ∀ d, (bareTable 1 0).translate (pairTable a b d).addr = 0 := by
    intro d
    show (pairTable a b d).addr = 0
    unfold pairTable
    split
    · rfl
    · rfl
  rw [gather, htr]
  show (readBytes _ _ 0 a.toNat >>= _) = _
  rw [hfirst, Outcome.ret_bind, gather, htr]
  show ((readBytes _ _ 0 b.toNat >>= _) >>= _) = _
  rw [hsecond]
  rfl

/-- A header and a packet of ten bytes are handed over. -/
theorem handed_whole_or_nothing_iff_pair :
    ∃ bytes, WholeOrNothing bareSpace (bareTable 1 0) rxIdx (tableMem (pairTable 10 10)) 0
      [pairTable 10 10 0, pairTable 10 10 1] bytes := by
  obtain ⟨bytes, h⟩ := chainEntry_pairTable (a := 10) (b := 10) (by decide) (by decide)
  exact ⟨bytes, (handed_whole_or_nothing_iff h).mpr (.inr (.inl (by decide)))⟩

/-- A packet of three bytes is handed over as if it had `2 ^ 64 - 7`, and of one that does not
fit the part that does is. -/
theorem part_handed_over :
    (∃ bytes, ChainEntry bareSpace (bareTable 1 0) rxIdx (tableMem (pairTable 1 2))
        ⟨0, offsetofDesc⟩ ⟨0, offsetofAvail⟩ ⟨0, offsetofUsed⟩ 0
        [pairTable 1 2 0, pairTable 1 2 1] bytes ∧
      ¬ WholeOrNothing bareSpace (bareTable 1 0) rxIdx (tableMem (pairTable 1 2)) 0
        [pairTable 1 2 0, pairTable 1 2 1] bytes) ∧
    ∃ bytes, ChainEntry bareSpace (bareTable 1 0) rxIdx (tableMem (pairTable 20 1500))
        ⟨0, offsetofDesc⟩ ⟨0, offsetofAvail⟩ ⟨0, offsetofUsed⟩ 0
        [pairTable 20 1500 0, pairTable 20 1500 1] bytes ∧
      ¬ WholeOrNothing bareSpace (bareTable 1 0) rxIdx (tableMem (pairTable 20 1500)) 0
        [pairTable 20 1500 0, pairTable 20 1500 1] bytes := by
  constructor
  · obtain ⟨bytes, h⟩ := chainEntry_pairTable (a := 1) (b := 2) (by decide) (by decide)
    refine ⟨bytes, h, fun hwhole => ?_⟩
    obtain ⟨r, hr, hcall⟩ := hwhole 2 (Nat.le_refl 2)
    obtain ⟨r', hr', hcall'⟩ := h.call_of_fits (Nat.le_refl 2) (by decide)
    cases hr.symm.trans hr'
    rw [hcall', if_neg (by decide), if_neg (by decide)] at hcall
    cases hcall
  · obtain ⟨bytes, h⟩ := chainEntry_pairTable (a := 20) (b := 1500) (by decide) (by decide)
    refine ⟨bytes, h, fun hwhole => ?_⟩
    obtain ⟨r, hr, hcall⟩ := hwhole 2 (Nat.le_refl 2)
    rw [if_neg (by decide)] at hcall
    obtain ⟨d, hd, hlong⟩ := (h.no_call_iff (Nat.le_refl 2) (by decide)).mp ⟨r, hr, hcall⟩
    cases hd
    exact absurd hlong (by decide)

end Vapp
