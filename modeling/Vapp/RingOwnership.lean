import Vapp.RingProgress
import Vapp.SessionRings

/-! # What either party relies on

The two parties work on one ring at the same time.  The consumer relies on the entries that it
has still to consume and on the used ring; the producer relies on everything that it writes
itself and on the used entries that it has still to reclaim.  Neither party touches what the
other one relies on, however many calls it makes.
-/
namespace Vapp

open Counter16

variable {κ μ : Type} {E : RingEnv} {s t : RingState κ μ} {l : RingLabel}

/-! ### The shared memory of a ring -/

/-- What the two parties share. -/
inductive RingCell where
  | desc (d : Nat)
  /-- the packet in buffer `d`, behind the header -/
  | packet (d : Nat)
  | availSlot (k : Nat)
  | availIdx
  | usedSlot (k : Nat)
  | usedIdx
  deriving DecidableEq, Repr

/-- Two memories agree on a cell. -/
def RingCell.Same (E : RingEnv) : RingCell → Mem → Mem → Prop
  | desc d, m, m' => m.desc E.descLoc d = m'.desc E.descLoc d
  | packet d, m, m' =>
      m.bytes ((E.buffer d).add virtioNetHdrSize) (bufferSize - virtioNetHdrSize) =
        m'.bytes ((E.buffer d).add virtioNetHdrSize) (bufferSize - virtioNetHdrSize)
  | availSlot k, m, m' => (m.avail E.availLoc).ring k = (m'.avail E.availLoc).ring k
  | availIdx, m, m' => (m.avail E.availLoc).idx = (m'.avail E.availLoc).idx
  | usedSlot k, m, m' => (m.used E.usedLoc).ring k = (m'.used E.usedLoc).ring k
  | usedIdx, m, m' => (m.used E.usedLoc).idx = (m'.used E.usedLoc).idx

theorem RingCell.same_refl (c : RingCell) (m : Mem) : c.Same E m m := by
  cases c with
  | _ => exact rfl

theorem RingCell.Same.trans {c : RingCell} {m m' m'' : Mem} (h : c.Same E m m')
    (h' : c.Same E m' m'') : c.Same E m m'' := by
  cases c with
  | _ => exact Eq.trans h h'

/-- The steps of the producer. -/
def RingLabel.OfProducer : RingLabel → Prop
  | put _ | reclaim => True
  | enter | serve | leave => False

/-- The descriptor in the avail slot of entry `k`. -/
def RingState.entryDesc (E : RingEnv) (s : RingState κ μ) (k : Nat) : Nat :=
  ((s.mem.avail E.availLoc).ring (k % vhostVringSize)).toNat

/-- What the consumer relies on: the entries that were put and not yet consumed, and the used
ring. -/
inductive ConsumerRelies (E : RingEnv) (s : RingState κ μ) : RingCell → Prop
  | slot {k : Nat} (h : s.outcomes.length ≤ k) (h' : k < s.sent.length) :
      ConsumerRelies E s (.availSlot (k % vhostVringSize))
  | desc {k : Nat} (h : s.outcomes.length ≤ k) (h' : k < s.sent.length) :
      ConsumerRelies E s (.desc (s.entryDesc E k))
  | packet {k : Nat} (h : s.outcomes.length ≤ k) (h' : k < s.sent.length) :
      ConsumerRelies E s (.packet (s.entryDesc E k))
  | usedSlot (k : Nat) : ConsumerRelies E s (.usedSlot k)
  | usedIdx : ConsumerRelies E s .usedIdx

/-- What the producer relies on: the descriptors, the buffers and the avail ring, and the
entries that were consumed and not yet reclaimed. -/
inductive ProducerRelies (s : RingState κ μ) : RingCell → Prop
  | desc (d : Nat) : ProducerRelies s (.desc d)
  | packet (d : Nat) : ProducerRelies s (.packet d)
  | availSlot (k : Nat) : ProducerRelies s (.availSlot k)
  | availIdx : ProducerRelies s .availIdx
  | usedSlot {k : Nat} (h : s.seen ≤ k) (h' : k < s.outcomes.length) :
      ProducerRelies s (.usedSlot (k % vhostVringSize))

/-! ### The producer -/

section Producer
variable {free heads : List UInt16}

/-- An entry that is not consumed holds the descriptor that was put. -/
theorem Ledger.entry_of_lt (h : Ledger E s free heads) {k : Nat} (hk : s.outcomes.length ≤ k)
    (hk' : k < s.sent.length) : ∃ a buf, heads[k]? = some a ∧ s.sent[k]? = some buf ∧
      Holds E s.mem k a buf ∧ s.entryDesc E k = a.toNat := by
  have ha := List.getElem?_eq_getElem (show k < heads.length by rw [h.count]; exact hk')
  have hbuf := List.getElem?_eq_getElem hk'
  have hholds := h.entry k _ _ hk ha hbuf
  exact ⟨_, _, ha, hbuf, hholds, congrArg UInt16.toNat hholds.ring⟩

/-- The descriptors that `process_used_vring` frees are those of published entries. -/
theorem Ledger.reclaim_desc (hw : Wired E s) (hc : Counters E s) (h : Ledger E s free heads)
    {fuel : Nat} {u : UsedLoop κ}
    (hcall : processUsedVring E.prodSpace fuel s.prod E.vIdx s.mem = .ret u) {d : UInt16}
    (hd : d ∉ (heads.drop s.seen).take (s.published - s.seen)) :
    u.mem.desc E.descLoc d.toNat = s.mem.desc E.descLoc d.toNat := by
  have hwalk := hw.walking hc.lastUsed_lt
  obtain ⟨hidx, -, hids, rfl⟩ := (processUsedVring_ret_iff hwalk).mp hcall
  have hpub := hc.publishedLe
  have hsent := hc.consumedLe
  have hwindow := h.length
  obtain ⟨hdist, hu⟩ := hc.distance (by omega) hidx
  rw [hdist] at hids ⊢
  refine walk_desc_of_notMem _ hwalk fun e he heq => hd ?_
  have hin : e.toUInt16 ∈ (heads.drop s.seen).take (s.published - s.seen) := by
    rw [← h.ids hc hu]
    exact List.mem_map_of_mem he
  rwa [UInt16.toNat_inj.mp ((toNat_toUInt16 (hids e he)).trans heq)] at hin

/-- An entry that is not published is not freed. -/
theorem Ledger.not_freed (hc : Counters E s) (h : Ledger E s free heads) {k : Nat} {a : UInt16}
    (hk : s.published ≤ k) (ha : heads[k]? = some a) :
    a ∉ (heads.drop s.seen).take (s.published - s.seen) := by
  intro hin
  have hnodup := h.nodup
  rw [drop_eq_take_append heads hc.seenLe, ← List.append_assoc] at hnodup
  exact (List.nodup_append.mp hnodup).2.2 a (List.mem_append_right _ hin) a (mem_drop hk ha) rfl

/-- **`put_vring` leaves the consumer's cells alone.** -/
theorem Ledger.put_same (hw : Wired E s) (hc : Counters E s) (h : Ledger E s free heads)
    {buf : List UInt8} {p : VringTable κ} {m : Mem}
    (hput : putVring E.prodSpace s.prod E.vIdx buf s.mem = .ret (0, p, m)) {c : RingCell}
    (hcell : ConsumerRelies E s c) : c.Same E s.mem m := by
  obtain ⟨free', rfl, -⟩ := h.chain.pop (head_ne_of_put hw hput)
  obtain ⟨hroom, -, rfl⟩ := putVring_wired hw (h.fresh _ (List.mem_cons_self ..)) hput
  have hwindow := h.length
  rw [List.length_cons] at hwindow
  have hseen := Nat.le_trans hc.seenLe hc.publishedLe
  have hne {k : Nat} (hk : s.outcomes.length ≤ k) {a : UInt16} (ha : heads[k]? = some a) :
      a ≠ s.head E := h.free_ne (List.mem_cons_self ..) (Nat.le_trans hseen hk) ha
  cases hcell with
  | @slot k hk hk' =>
      show _ = ((s.memPut E buf).avail E.availLoc).ring _
      rw [memPut_ring hw hc, if_neg (slot_ne hk' (by omega))]
  | @desc k hk hk' =>
      obtain ⟨a, _, ha, -, -, heq⟩ := h.entry_of_lt hk hk'
      rw [heq]
      exact (memPut_desc_of_ne (hne hk ha)).symm
  | @packet k hk hk' =>
      obtain ⟨a, _, ha, -, -, heq⟩ := h.entry_of_lt hk hk'
      rw [heq]
      exact (bytes_putMem (hne hk ha) hroom (by decide)).symm
  | usedSlot k => exact rfl
  | usedIdx => exact rfl

/-- **`process_used_vring` leaves the consumer's cells alone.** -/
theorem Ledger.reclaim_same (hw : Wired E s) (hc : Counters E s) (h : Ledger E s free heads)
    {fuel : Nat} {u : UsedLoop κ}
    (hcall : processUsedVring E.prodSpace fuel s.prod E.vIdx s.mem = .ret u) {c : RingCell}
    (hcell : ConsumerRelies E s c) : c.Same E s.mem u.mem := by
  have hpub := hc.publishedLe
  have hframe : u.mem.used = s.mem.used ∧ u.mem.avail = s.mem.avail ∧ u.mem.byte = s.mem.byte := by
    obtain ⟨-, -, -, rfl⟩ := (processUsedVring_ret_iff (hw.walking hc.lastUsed_lt)).mp hcall
    have hwalk := UsedLoop.walk_frame (i := E.vIdx) (D := E.descLoc) (U := E.usedLoc)
      (usedDistance vhostVringSize (s.prod.vring E.vIdx).lastUsedIdx.toNat
        (s.mem.used E.usedLoc).idx.toNat) (.start s.prod E.vIdx s.mem)
    exact ⟨hwalk.used, hwalk.avail, hwalk.byte⟩
  obtain ⟨hused, havail, hbyte⟩ := hframe
  cases hcell with
  | slot _ _ =>
      show (s.mem.avail _).ring _ = (u.mem.avail _).ring _
      rw [havail]
  | @desc k hk hk' =>
      obtain ⟨a, _, ha, -, -, heq⟩ := h.entry_of_lt hk hk'
      rw [heq]
      exact (h.reclaim_desc hw hc hcall (h.not_freed hc (Nat.le_trans hpub hk) ha)).symm
  | packet _ _ => exact Mem.bytes_congr _ _ fun _ _ => (congrFun hbyte _).symm
  | usedSlot k =>
      show (s.mem.used _).ring _ = (u.mem.used _).ring _
      rw [hused]
  | usedIdx =>
      show (s.mem.used _).idx = (u.mem.used _).idx
      rw [hused]

/-- The producer adds entries and takes none back. -/
theorem ConsumerRelies.of_producer (hs : RingStep E s l t) (hl : l.OfProducer) {c : RingCell}
    (hsame : ∀ c, ConsumerRelies E s c → c.Same E s.mem t.mem) (h : ConsumerRelies E s c) :
    ConsumerRelies E t c := by
  have hhistory : t.outcomes = s.outcomes ∧ s.sent.length ≤ t.sent.length := by
    cases hs with
    | @put buf r p m hput =>
        refine ⟨rfl, ?_⟩
        show _ ≤ (if r = 0 then s.sent ++ [buf] else s.sent).length
        split
        · simp
        · exact Nat.le_refl _
    | reclaim _ => exact ⟨rfl, Nat.le_refl _⟩
    | enter _ _ | serve _ _ | leave _ _ _ => exact hl.elim
  obtain ⟨hout, hsent⟩ := hhistory
  have hdesc {k : Nat} (hk : s.outcomes.length ≤ k) (hk' : k < s.sent.length) :
      s.entryDesc E k = t.entryDesc E k := congrArg UInt16.toNat (hsame _ (.slot hk hk'))
  cases h with
  | slot hk hk' => exact .slot (by rwa [hout]) (by omega)
  | desc hk hk' =>
      rw [hdesc hk hk']
      exact .desc (by rwa [hout]) (by omega)
  | packet hk hk' =>
      rw [hdesc hk hk']
      exact .packet (by rwa [hout]) (by omega)
  | usedSlot k => exact .usedSlot k
  | usedIdx => exact .usedIdx

/-- **A step of the producer.** -/
theorem Tracked.producer_step (h : Tracked E s) (hfit : AllFit s) (hs : RingStep E s l t)
    (hl : l.OfProducer) {c : RingCell} (hcell : ConsumerRelies E s c) :
    c.Same E s.mem t.mem ∧ ConsumerRelies E t c := by
  obtain ⟨free, heads, hledger⟩ := h.ledger hfit
  have hsame : ∀ c, ConsumerRelies E s c → c.Same E s.mem t.mem := by
    intro c hcell
    cases hs with
    | @put buf r p m hput =>
        by_cases hr : r = 0
        · subst hr
          exact hledger.put_same h.wired h.counters hput hcell
        · rcases putVring_ret hput with ⟨-, -, rfl⟩ | ⟨hr', -⟩
          · exact c.same_refl _
          · exact absurd hr' hr
    | reclaim hcall => exact hledger.reclaim_same h.wired h.counters hcall hcell
    | enter _ _ | serve _ _ | leave _ _ _ => exact hl.elim
  exact ⟨hsame c hcell, hcell.of_producer hs hl hsame⟩

end Producer

/-! ### The consumer -/

/-- The consumer writes the used ring only, and there no slot that waits to be reclaimed. -/
theorem Tracked.consumer_same (h : Tracked E s) (hfit : AllFit s) (hs : RingStep E s l t)
    (hl : ¬ l.OfProducer) {c : RingCell} (hcell : ProducerRelies s c) : c.Same E s.mem t.mem := by
  have hnext := (counters_step ⟨h.wired, h.counters⟩ hs).2.consumedLe
  cases hs with
  | put _ | reclaim _ => exact absurd trivial hl
  | enter _ _ => exact c.same_refl _
  | @serve a fuel r hcur hturn =>
      obtain ⟨free, heads, hledger⟩ := h.ledger hfit
      have hlt : s.outcomes.length < s.sent.length := by
        refine Nat.lt_of_lt_of_le ?_ hnext
        simp
      have hbuf := List.getElem?_eq_getElem hlt
      have hwindow := hledger.length
      by_cases hput : Fits s.sent[s.outcomes.length]
      · obtain ⟨-, d, len, -, hm⟩ :=
          hledger.serve_fits h.wired h.counters hcur hbuf hput hturn
        rw [hm]
        cases hcell with
        | @usedSlot k hk hk' =>
            show _ = ((Mem.setUsed _ _ _).used _).ring _
            rw [Mem.setUsed_used_self]
            exact (Function.update_of_ne (slot_ne hk' (by omega)) _ _).symm
        | _ => exact rfl
      · -- a packet that does not fit is not entered
        rw [(hledger.serve_refused h.wired h.counters hcur hbuf hput hturn).2]
        exact c.same_refl _
  | leave _ _ hleave =>
      rw [availLeave, storeUsedIdx_of_resolve h.wired.consUsed] at hleave
      cases hleave
      cases hcell with
      | usedSlot _ _ =>
          show _ = ((Mem.setUsed _ _ _).used _).ring _
          rw [Mem.setUsed_used_self]
      | _ => exact rfl

/-- The consumer passes entries on and reclaims none. -/
theorem ProducerRelies.of_consumer (hs : RingStep E s l t) (hl : ¬ l.OfProducer) {c : RingCell}
    (h : ProducerRelies s c) : ProducerRelies t c := by
  have hhistory : t.seen = s.seen ∧ s.outcomes.length ≤ t.outcomes.length := by
    cases hs with
    | put _ | reclaim _ => exact absurd trivial hl
    | enter _ _ | leave _ _ _ => exact ⟨rfl, Nat.le_refl _⟩
    | serve _ _ => exact ⟨rfl, by simp⟩
  obtain ⟨hseen, hout⟩ := hhistory
  cases h with
  | desc d => exact .desc d
  | packet d => exact .packet d
  | availSlot k => exact .availSlot k
  | availIdx => exact .availIdx
  | usedSlot hk hk' => exact .usedSlot (by rwa [hseen]) (by omega)

/-! ### Runs of one party -/

/-- Packets that did not fit at first do not fit later. -/
theorem AllFit.of_step (h : Tracked E s) (hs : RingStep E s l t) (hfit : AllFit t) : AllFit s := by
  have hconsumed := h.counters.consumedLe
  cases hs with
  | @put buf r p m hput =>
      intro k b hk hb
      refine hfit k b hk ?_
      show (if r = 0 then s.sent ++ [buf] else s.sent)[k]? = some b
      split
      · rw [List.getElem?_append_left (by omega), hb]
      · exact hb
  | reclaim _ | enter _ _ | leave _ _ _ => exact hfit
  | serve _ _ =>
      intro k b hk hb
      exact hfit k b (Nat.lt_of_lt_of_le hk (by simp)) hb

/-- What each step of a kind leaves alone, a run of such steps leaves alone. -/
theorem same_of_run {P : RingLabel → Prop} {R : RingState κ μ → RingCell → Prop} {c : RingCell}
    (hstep : ∀ s l t, Tracked E s → AllFit s → RingStep E s l t → P l → R s c →
      c.Same E s.mem t.mem ∧ R t c)
    (h : Tracked E s) {ls : List RingLabel} (hrun : Transition.Run (RingStep E) s ls t)
    (hls : ∀ l ∈ ls, P l) (hfit : AllFit t) (hcell : R s c) :
    c.Same E s.mem t.mem ∧ R t c := by
  induction hrun with
  | nil => exact ⟨c.same_refl _, hcell⟩
  | @snoc ls u v m hpre hlast ih =>
      have hu := tracked_run h hpre
      have hfit' := hfit.of_step hu hlast
      obtain ⟨hsame, hrel⟩ := ih (fun l hl => hls l (List.mem_append_left _ hl)) hfit'
      obtain ⟨hsame', hrel'⟩ := hstep _ _ _ hu hfit' hlast
        (hls m (List.mem_append_right _ (List.mem_singleton_self m))) hrel
      exact ⟨hsame.trans hsame', hrel'⟩

/-- **Neither party touches what the other one relies on.**  From any state that the two
reach, while every packet consumed was one that fits, any number of calls of the producer leaves
the entries that the consumer has still to consume, and the used ring, as they are; and whatever
part of its call the consumer goes through, it leaves the descriptors, the buffers, the avail
ring and the used entries that wait to be reclaimed as they are. -/
theorem relied_on_kept {s₀ : RingState κ μ} (hstart : Start E s₀) {before ls : List RingLabel}
    (hbefore : Transition.Run (RingStep E) s₀ before s)
    (hrun : Transition.Run (RingStep E) s ls t) (hfit : AllFit t) :
    ((∀ l ∈ ls, l.OfProducer) → ∀ c, ConsumerRelies E s c → c.Same E s.mem t.mem) ∧
    ((∀ l ∈ ls, ¬ l.OfProducer) → ∀ c, ProducerRelies s c → c.Same E s.mem t.mem) := by
  have h := tracked_run hstart.tracked hbefore
  refine ⟨fun hls c hcell => ?_, fun hls c hcell => ?_⟩
  · exact (same_of_run (R := ConsumerRelies E) (fun _ _ _ h hfit hs hl hrel =>
      h.producer_step hfit hs hl hrel) h hrun hls hfit hcell).1
  · exact (same_of_run (R := ProducerRelies) (fun _ _ _ h hfit hs hl hrel =>
      ⟨h.consumer_same hfit hs hl hrel, hrel.of_consumer hs hl⟩) h hrun hls hfit hcell).1

/-- The server goes through a batch of two packets. -/
theorem relied_on_kept_demo : ∃ w s t, Session.demo.Opened 4 Mem.zero w ∧
    Transition.Run (RingStep Session.demo.txEnv) (Session.demo.txState w) [.put [1], .put [1]] s ∧
    Transition.Run (RingStep Session.demo.txEnv) s [.enter, .serve, .serve, .leave] t ∧
    ∀ c, ProducerRelies s c → c.Same Session.demo.txEnv s.mem t.mem := by
  obtain ⟨w, hopen⟩ := Session.demo.opened_exists 4 Mem.zero
  have hstart := Session.tx_start hopen
  have hfits : Fits [1] := by decide
  obtain ⟨t, hrun, hsent, -⟩ := hstart.can_batch (show 2 ≤ vhostVringSize by decide) hfits
  have hfit : AllFit t := by
    intro k buf _ hbuf
    rw [hsent] at hbuf
    rw [List.eq_of_mem_replicate (List.mem_of_getElem? hbuf)]
    exact hfits
  obtain ⟨s, hputs, hcall⟩ := hrun.split
  refine ⟨w, s, t, hopen, hputs, hcall, (relied_on_kept hstart hputs hcall hfit).2 ?_⟩
  intro l hl hput
  cases l with
  | put _ | reclaim => simp [callLabels] at hl
  | enter | serve | leave => exact hput

end Vapp
