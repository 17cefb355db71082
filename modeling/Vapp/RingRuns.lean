import Vapp.RingLedger

/-! # Runs of the two parties

The initial state of a ring, and what holds in every state that a run from it reaches:
the wiring and the counters always, the account of the descriptors as long as every
consumed packet was one that fits.
-/
namespace Vapp

open Counter16 ArrayChain

variable {κ μ : Type} {E : RingEnv} {s t : RingState κ μ} {l : RingLabel}

/-- A ring that `new_vring` has laid out and that neither party has used. -/
structure Start (E : RingEnv) (s : RingState κ μ) : Prop where
  wired : Wired E s
  len : ∀ d, d < vhostVringSize → (s.mem.desc E.descLoc d).len = .ofNat bufferSize
  next : ∀ d, d < vhostVringSize → (s.mem.desc E.descLoc d).next =
    if d + 1 = vhostVringSize then vringIdxNone else .ofNat (d + 1)
  availIdx : (s.mem.avail E.availLoc).idx = 0
  usedIdx : (s.mem.used E.usedLoc).idx = 0
  prodAvail : (s.prod.vring E.vIdx).lastAvailIdx = 0
  prodUsed : (s.prod.vring E.vIdx).lastUsedIdx = 0
  consAvail : (s.cons.vring E.vIdx).lastAvailIdx = 0
  consUsed : (s.cons.vring E.vIdx).lastUsedIdx = 0
  cursor : s.cursor = none
  sent : s.sent = []
  outcomes : s.outcomes = []
  published : s.published = 0
  seen : s.seen = 0

/-- Every packet consumed so far was one that fits. -/
def AllFit (s : RingState κ μ) : Prop :=
  ∀ (k : Nat) (buf : List UInt8), k < s.outcomes.length → s.sent[k]? = some buf → Fits buf

/-- The invariant of all runs. -/
structure Tracked (E : RingEnv) (s : RingState κ μ) : Prop where
  wired : Wired E s
  counters : Counters E s
  ledger : AllFit s → ∃ free heads, Ledger E s free heads
  refused : ∀ (k : Nat) (buf : List UInt8), s.sent[k]? = some buf → ¬ Fits buf →
    (∀ j b, j < k → s.sent[j]? = some b → Fits b) → k < s.outcomes.length →
    s.outcomes[k]? = some none

theorem Start.next_of (h : Start E s) {i : Nat} (hi : i < vhostVringSize) :
    s.next E (of i) = if i + 1 = vhostVringSize then vringIdxNone else of (i + 1) := by
  show (s.mem.desc E.descLoc (of i).toNat).next = _
  rw [toNat_of_lt (Nat.lt_trans hi (by decide)), h.next i hi]
  rfl

theorem Start.ledger (h : Start E s) : Ledger E s allDescs [] := by
  refine
    { chain := ?_
      perm := by simp
      count := by rw [h.sent]; rfl
      fresh := ?_
      entry := ?_
      used := ?_
      handed := ?_ }
  · rw [show s.head E = 0 from h.prodAvail]
    exact chain_allDescs fun d hd => h.next_of hd
  · exact fun d hd => h.len _ (mem_allDescs.mp hd)
  · intro k a buf _ ha _
    cases ha
  · intro k a _ hk _
    rw [h.outcomes] at hk
    exact absurd hk (Nat.not_lt_zero k)
  · intro k buf o _ ho
    rw [h.outcomes] at ho
    cases ho

theorem Start.tracked (h : Start E s) : Tracked E s := by
  refine ⟨h.wired, ?_, fun _ => ⟨allDescs, [], h.ledger⟩, ?_⟩
  · refine
      { availIdx := by rw [h.availIdx, h.sent]; rfl
        usedIdx := by rw [h.usedIdx, h.published]; rfl
        lastAvail := by rw [h.consAvail, h.outcomes]; rfl
        lastUsed := by rw [h.consUsed, h.outcomes]; rfl
        seenIdx := by rw [h.prodUsed, h.seen]; rfl
        seenSlot := by rw [h.seen]; decide
        seenLe := by rw [h.seen]; exact Nat.zero_le _
        publishedLe := by rw [h.published]; exact Nat.zero_le _
        consumedLe := by rw [h.outcomes]; exact Nat.zero_le _
        cursor := by
          rw [h.cursor]
          exact fun a ha => nomatch ha
        head := ?_
        next := ?_ }
    · refine .inr ?_
      rw [show s.head E = 0 from h.prodAvail]
      decide
    · intro d hd
      rw [h.next d hd]
      split
      · exact .inl rfl
      · refine .inr ?_
        show (of (d + 1)).toNat < _
        rw [toNat_of_lt (Nat.lt_of_le_of_lt hd (by decide))]
        omega
  · intro k buf hbuf
    rw [h.sent] at hbuf
    cases hbuf

/-- **Every step keeps the invariant.** -/
theorem tracked_step (h : Tracked E s) (hs : RingStep E s l t) : Tracked E t := by
  obtain ⟨hw', hc'⟩ := counters_step ⟨h.wired, h.counters⟩ hs
  have hw := h.wired
  have hc := h.counters
  have hconsumed := hc.consumedLe
  refine ⟨hw', hc', ?_, ?_⟩
  · intro hfit
    cases hs with
    | @put buf r p m hput =>
        by_cases hr : r = 0
        · subst hr
          have hfit' : AllFit s := by
            intro k b hk hb
            refine hfit k b hk ?_
            show (s.sent ++ [buf])[k]? = some b
            rw [List.getElem?_append_left (by omega), hb]
          obtain ⟨free, heads, hl⟩ := h.ledger hfit'
          obtain ⟨free', -, hl'⟩ := hl.put hw hc hput
          exact ⟨free', _, hl'⟩
        · rcases putVring_ret hput with ⟨rfl, rfl, rfl⟩ | ⟨rfl, -⟩
          · obtain ⟨free, heads, hl⟩ := h.ledger hfit
            exact ⟨free, heads, hl.1, hl.2, hl.3, hl.4, hl.5, hl.6, hl.7⟩
          · exact absurd rfl hr
    | reclaim hcall =>
        obtain ⟨free, heads, hl⟩ := h.ledger hfit
        exact ⟨_, heads, hl.reclaim hw hc hcall⟩
    | enter _ _ =>
        obtain ⟨free, heads, hl⟩ := h.ledger hfit
        exact ⟨free, heads, hl.1, hl.2, hl.3, hl.4, hl.5, hl.6, hl.7⟩
    | @serve a fuel r hcur hturn =>
        have hlast : s.outcomes.length < (s.outcomes ++ [r.call]).length := by simp
        have hlt : s.outcomes.length < s.sent.length := Nat.lt_of_lt_of_le hlast hc'.consumedLe
        have hbuf := List.getElem?_eq_getElem hlt
        obtain ⟨free, heads, hl⟩ := h.ledger fun k b hk hb =>
          hfit k b (Nat.lt_trans hk hlast) hb
        exact ⟨free, heads, hl.serve hw hc hcur hbuf (hfit _ _ hlast hbuf) hturn⟩
    | leave _ _ hleave =>
        obtain ⟨free, heads, hl⟩ := h.ledger hfit
        exact ⟨free, heads, hl.leave hw hleave⟩
  · cases hs with
    | @put buf r p m hput =>
        intro k b hb hnot hbefore (hk : k < s.outcomes.length)
        have hold : ∀ j, j < s.sent.length →
            (if r = 0 then s.sent ++ [buf] else s.sent)[j]? = s.sent[j]? := by
          intro j hj
          split
          · exact List.getElem?_append_left hj
          · rfl
        refine h.refused k b ((hold k (by omega)).symm.trans hb) hnot (fun j b' hj hb' => ?_) hk
        exact hbefore j b' hj ((hold j (by omega)).trans hb')
    | reclaim _ => exact h.refused
    | enter _ _ => exact h.refused
    | @serve a fuel r hcur hturn =>
        intro k b hb hnot hbefore hk
        by_cases hlt : k < s.outcomes.length
        · show (s.outcomes ++ [r.call])[k]? = _
          rw [List.getElem?_append_left hlt]
          exact h.refused k b hb hnot hbefore hlt
        · have hlen : k < (s.outcomes ++ [r.call]).length := hk
          rw [List.length_append, List.length_singleton] at hlen
          obtain rfl : k = s.outcomes.length := by omega
          obtain ⟨free, heads, hl⟩ := h.ledger fun j b' hj hb' => hbefore j b' hj hb'
          show (s.outcomes ++ [r.call])[_]? = _
          rw [List.getElem?_concat_length, (hl.serve_refused hw hc hcur hb hnot hturn).1]
    | leave _ _ _ => exact h.refused

/-- **The invariant holds in every state that a run from the start reaches.** -/
theorem tracked_run {ls : List RingLabel} (h : Tracked E s)
    (hrun : Transition.Run (RingStep E) s ls t) : Tracked E t :=
  Transition.Run.invariant (I := Tracked E) (A := fun _ => True)
    (fun _ _ _ h _ hs => tracked_step h hs) h hrun fun _ _ => trivial

/-! ### Steps of others

What is not of this ring may change: another ring in the same tables and memory, and the
context of the handlers.
-/

/-- Nothing of the ring has changed. -/
structure RingFrame (E : RingEnv) (s t : RingState κ μ) : Prop where
  prod : t.prod.vring E.vIdx = s.prod.vring E.vIdx
  prodTranslate : ∀ a, t.prod.translate a = s.prod.translate a
  cons : t.cons.vring E.vIdx = s.cons.vring E.vIdx
  consTranslate : ∀ a, t.cons.translate a = s.cons.translate a
  handlers : t.cons.handlers = s.cons.handlers
  desc : t.mem.desc E.descLoc = s.mem.desc E.descLoc
  avail : t.mem.avail E.availLoc = s.mem.avail E.availLoc
  used : t.mem.used E.usedLoc = s.mem.used E.usedLoc
  byte : ∀ l : Loc, l.shm = E.shm → t.mem.byte l = s.mem.byte l
  cursor : t.cursor = s.cursor
  sent : t.sent = s.sent
  outcomes : t.outcomes = s.outcomes
  published : t.published = s.published
  seen : t.seen = s.seen

namespace RingFrame

theorem wired (hf : RingFrame E s t) (h : Wired E s) : Wired E t where
  prodDesc := by rw [hf.prod]; exact h.prodDesc
  prodAvail := by rw [hf.prod]; exact h.prodAvail
  prodUsed := by rw [hf.prod]; exact h.prodUsed
  prodNum := by rw [hf.prod]; exact h.prodNum
  consDesc := by rw [hf.cons]; exact h.consDesc
  consAvail := by rw [hf.cons]; exact h.consAvail
  consUsed := by rw [hf.cons]; exact h.consUsed
  consNum := by rw [hf.cons]; exact h.consNum
  addr d hd := by rw [hf.desc]; exact h.addr d hd
  prodBuf d hd := by rw [hf.prodTranslate]; exact h.prodBuf d hd
  consBuf d hd := by rw [hf.consTranslate]; exact h.consBuf d hd
  handler := by rw [hf.handlers]; exact h.handler

theorem head (hf : RingFrame E s t) : t.head E = s.head E :=
  congrArg Vring.lastAvailIdx hf.prod

theorem next (hf : RingFrame E s t) : t.next E = s.next E := by
  funext k
  show (t.mem.desc E.descLoc k.toNat).next = _
  rw [hf.desc]
  rfl

theorem counters (hf : RingFrame E s t) (h : Counters E s) : Counters E t where
  availIdx := by rw [hf.avail, hf.sent]; exact h.availIdx
  usedIdx := by rw [hf.used, hf.published]; exact h.usedIdx
  lastAvail := by rw [hf.cons, hf.outcomes]; exact h.lastAvail
  lastUsed := by rw [hf.cons, hf.outcomes]; exact h.lastUsed
  seenIdx := by rw [hf.prod, hf.seen]; exact h.seenIdx
  seenSlot := by rw [hf.seen]; exact h.seenSlot
  seenLe := by rw [hf.seen, hf.published]; exact h.seenLe
  publishedLe := by rw [hf.published, hf.outcomes]; exact h.publishedLe
  consumedLe := by rw [hf.outcomes, hf.sent]; exact h.consumedLe
  cursor := by rw [hf.cursor, hf.outcomes]; exact h.cursor
  head := by rw [hf.head]; exact h.head
  next d hd := by rw [hf.desc]; exact h.next d hd

theorem holds (hf : RingFrame E s t) {k : Nat} {a : UInt16} {buf : List UInt8}
    (h : Holds E s.mem k a buf) : Holds E t.mem k a buf :=
  h.congr hf.avail (congrFun hf.desc _) hf.byte

theorem ledger (hf : RingFrame E s t) {free heads : List UInt16} (h : Ledger E s free heads) :
    Ledger E t free heads where
  chain := by rw [hf.next, hf.head]; exact h.chain
  perm := by rw [hf.seen]; exact h.perm
  count := by rw [hf.sent]; exact h.count
  fresh d hd := by rw [hf.desc]; exact h.fresh d hd
  entry k a buf hk ha hbuf := by
    rw [hf.outcomes] at hk
    rw [hf.sent] at hbuf
    exact hf.holds (h.entry k a buf hk ha hbuf)
  used k a hk hk' ha := by
    rw [hf.seen] at hk
    rw [hf.outcomes] at hk'
    rw [hf.used]
    exact h.used k a hk hk' ha
  handed k buf o hbuf ho := by
    rw [hf.sent] at hbuf
    rw [hf.outcomes] at ho
    exact h.handed k buf o hbuf ho

/-- **A step that leaves the ring alone keeps its invariant.** -/
theorem tracked (hf : RingFrame E s t) (h : Tracked E s) : Tracked E t := by
  refine ⟨hf.wired h.wired, hf.counters h.counters, fun hfit => ?_, ?_⟩
  · rw [AllFit, hf.outcomes, hf.sent] at hfit
    obtain ⟨free, heads, hl⟩ := h.ledger hfit
    exact ⟨free, heads, hf.ledger hl⟩
  · rw [hf.sent, hf.outcomes]
    exact h.refused

end RingFrame

end Vapp
