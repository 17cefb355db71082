import Vapp.LoopRings
import Vapp.LostKick

/-! # What the server sends back

`avail_handler_server` copies a packet of the TX ring to the private buffer of the server, and
`poll_server` puts it on the RX ring, once in each pass.  The buffer holds one packet: what is
consumed while there is one in it takes its place.
-/
namespace Vapp

/-- The packet of a call is what the private buffer holds after it. -/
theorem packet_consume (c : ServerContext) {buf : List UInt8} (hbuf : buf.length < 2 ^ 32) :
    (availHandlerServer.consume c (callOf buf)).bufferSize.toNat = buf.length ∧
      (availHandlerServer.consume c (callOf buf)).packet = buf := by
  have hsize : (callOf buf).size.toNat = buf.length :=
    UInt64.toNat_ofNat_of_lt' (Nat.lt_trans hbuf (by decide))
  have hlen : (availHandlerServer.consume c (callOf buf)).bufferSize.toNat = buf.length := by
    show (callOf buf).size.toUInt32.toNat = _
    rw [UInt64.toNat_toUInt32, hsize, Nat.mod_eq_of_lt hbuf]
  refine ⟨hlen, List.ext_getElem ?_ fun i h1 h2 => ?_⟩
  · rw [ServerContext.packet, List.length_map, List.length_range, hlen]
  · have hi : i < (callOf buf).size.toNat := by rwa [hsize]
    simp only [ServerContext.packet, List.getElem_map, List.getElem_range]
    show (if i < (callOf buf).size.toNat then (buf[i]?).getD 0 else c.buffer i) = _
    rw [if_pos hi, List.getElem?_eq_getElem h2, Option.getD_some]

namespace LoopState
variable (s : LoopState)

/-- The packet that is still in the private buffer. -/
def buffered : List (List UInt8) :=
  if s.world.context.bufferSize = 0 then [] else [s.world.context.packet]

/-- The packets of the TX ring that the server has consumed. -/
def consumed : List (List UInt8) := s.sent.take s.outcomes.length

/-- What was placed on the RX ring and what is still in the buffer is what was consumed. -/
def LoopsBack : Prop := s.placed ++ s.buffered = s.consumed

/-- No packet is consumed while there is one in the buffer. -/
def Drained (l : LoopLabel) : Prop := l = .serve → s.world.context.bufferSize = 0

theorem buffered_eq_nil_iff : s.buffered = [] ↔ s.world.context.bufferSize = 0 := by
  rw [buffered]
  split
  · rename_i h
    exact iff_of_true rfl h
  · rename_i h
    exact iff_of_false (List.cons_ne_nil _ _) h

variable {s}

/-- At most one packet is between the two rings. -/
theorem LoopsBack.length_le (h : s.LoopsBack) : s.consumed.length ≤ s.placed.length + 1 := by
  have hone : s.buffered.length ≤ 1 := by
    rw [buffered]
    split
    · exact Nat.zero_le 1
    · exact Nat.le_refl 1
  rw [← show s.placed ++ s.buffered = s.consumed from h, List.length_append]
  exact Nat.add_le_add_left hone _

end LoopState

/-- The buffer is empty at first. -/
theorem RingsConfigured.empty {S : Session} {s : LoopState} (h : RingsConfigured S s) :
    s.world.context.bufferSize = 0 := by
  obtain ⟨sock, m, w, hw, -, -, htable⟩ := h.opened
  obtain ⟨-, -, htable'⟩ := hw.eqs
  rw [World.context, htable, htable']
  rfl

/-! ### One step -/

section Step
variable {S : Session} {s t : LoopState} {l : LoopLabel}

theorem TxPayload.lt {buf : List UInt8} (h : TxPayload buf) : buf.length < 2 ^ 32 := by
  have hfit : buf.length + virtioNetHdrSize < ethPacketSize := h.2
  rw [show ethPacketSize = 1518 from rfl] at hfit
  omega

/-- A packet that is consumed takes the place of what is in the buffer. -/
theorem Relaying.served (h : Relaying S s) (hs : LoopStep S s .serve t) :
    ∃ buf, s.sent[s.outcomes.length]? = some buf ∧ t.buffered = [buf] ∧ t.placed = s.placed ∧
      t.consumed = s.consumed ++ [buf] := by
  have hcount :=
    (relaying_step (l := .serve) h (fun _ heq => nomatch heq) hs).tx.counters.consumedLe
  cases hs with
  | @serve a fuel r hcur hturn =>
      have hlt : s.outcomes.length < s.sent.length := by
        have : (s.outcomes ++ [r.call]).length ≤ s.sent.length := hcount
        rwa [List.length_append, List.length_singleton] at this
      have hbuf := List.getElem?_eq_getElem hlt
      have hpayload := h.payloads _ (List.getElem_mem hlt)
      refine ⟨_, hbuf, ?_, rfl, ?_⟩
      · obtain ⟨free, heads, hl⟩ := h.tx.ledger h.sentFit.allFit
        have hturn' := hturn
        rw [h.space] at hturn'
        have hcall := (hl.serve_fits h.tx.wired h.tx.counters hcur hbuf hpayload.2 hturn').1
        have hcontext : r.table.context =
            availHandlerServer.consume s.world.context (callOf s.sent[s.outcomes.length]) :=
          availTurn_context hturn (by rw [h.packet.handlers]; rfl) hcall
        obtain ⟨hsize, hpacket⟩ := packet_consume s.world.context hpayload.lt
        rw [← hcontext] at hsize hpacket
        have hfull : r.table.context.bufferSize ≠ 0 := by
          intro hzero
          rw [hzero] at hsize
          exact hpayload.1 (List.length_eq_zero_iff.mp hsize.symm)
        exact (if_neg hfull).trans (congrArg (fun p => [p]) hpacket)
      · show s.sent.take (s.outcomes ++ [r.call]).length = _
        rw [List.length_append, List.length_singleton, List.take_add_one, hbuf]
        rfl

/-- **Each step keeps the law exactly when it consumes nothing or the buffer is empty.** -/
theorem loopsBack_step (h : Relaying S s) (hl : ∀ buf, l = .put buf → TxPayload buf)
    (hlaw : s.LoopsBack) (hs : LoopStep S s l t) : t.LoopsBack ↔ s.Drained l := by
  by_cases hserve : l = .serve
  · subst hserve
    obtain ⟨buf, -, hbuffered, hplaced, hconsumed⟩ := h.served hs
    rw [LoopState.LoopsBack, hbuffered, hplaced, hconsumed, List.append_left_inj, ← hlaw,
      List.self_eq_append_right, s.buffered_eq_nil_iff]
    exact ⟨fun hempty _ => hempty, fun hempty => hempty rfl⟩
  · refine iff_of_true ?_ fun heq => absurd heq hserve
    cases hs with
    | @put buf r t m hrun hput =>
        have hle : s.outcomes.length ≤ s.sent.length := h.tx.counters.consumedLe
        refine Eq.trans hlaw ?_
        show s.sent.take _ = (if r = 0 then s.sent ++ [buf] else s.sent).take s.outcomes.length
        split
        · rw [List.take_append_of_le_length hle]
        · rfl
    | receive _ _ hqueue _ =>
        rw [h.queue] at hqueue
        cases hqueue
    | serve _ _ => exact absurd rfl hserve
    | @forward r t m hstage hcur hfull hput =>
        obtain ⟨free, heads, hl⟩ := h.rx.ledger (Relaying.rx_allFit s)
        rw [h.space] at hput
        obtain rfl := hl.put_ret h.rx.wired h.packet_fits hput
        have hbuffered : s.buffered = [s.world.context.packet] := if_neg hfull
        rw [LoopState.LoopsBack, hbuffered] at hlaw
        exact (List.append_nil _).trans hlaw
    | _ => exact hlaw

end Step

/-! ### Runs in which packets are sent back -/

/-- A step that consumes no packet while there is one in the buffer, and puts only payloads. -/
structure DrainedStep (S : Session) (s : LoopState) (l : LoopLabel) (t : LoopState) : Prop where
  step : LoopStep S s l t
  drained : s.Drained l
  payload : ∀ buf, l = .put buf → TxPayload buf

section Runs
variable {S : Session} {s t : LoopState} {l : LoopLabel} {a : UInt16}

theorem LoopStep.quiet (h : LoopStep S s l t) (hserve : l ≠ .serve)
    (hput : ∀ buf, l ≠ .put buf) : DrainedStep S s l t :=
  ⟨h, fun heq => absurd heq hserve, fun buf heq => absurd heq (hput buf)⟩

theorem Relaying.run (h : Relaying S s) {ls : List LoopLabel}
    (hrun : Transition.Run (DrainedStep S) s ls t) : Relaying S t :=
  Transition.Run.preserves (fun _ _ _ hs hstep => relaying_step hs hstep.payload hstep.step) h hrun

namespace Relaying

theorem vring_desc_ne (h : Relaying S s) (i : RingIdx) : (s.world.vring i).desc ≠ 0 := by
  have hnull := S.server.resolve_zero
  rcases ringIdx_cases i with rfl | rfl
  · intro hdesc
    have hres := h.rx.wired.prodDesc
    rw [show (s.rx.prod.vring S.rxEnv.vIdx).desc = 0 from hdesc] at hres
    cases hnull.symm.trans hres
  · intro hdesc
    have hres := h.tx.wired.consDesc
    rw [show (s.tx.cons.vring S.txEnv.vIdx).desc = 0 from hdesc] at hres
    cases hnull.symm.trans hres

theorem availEnter (h : Relaying S s) : ∃ a, availEnter s.world.server.table txIdx = .ret a :=
  ⟨_, availEnter_of_num h.tx.wired.consNum (by decide)⟩

/-- `send_packet`. -/
theorem send_packet (h : Relaying S s) (hrun : s.Running)
    (hroom : s.sent.length - s.seen < vhostVringSize) (buf : List UInt8) (hbuf : TxPayload buf) :
    ∃ c m, Transition.Run (DrainedStep S) s [.put buf, .kick]
      { s with
        client := c
        world := { s.world with mem := m }
        sent := s.sent ++ [buf]
        kicks := eventfdWrite s.kicks
        mustKick := false } := by
  obtain ⟨free, heads, hl⟩ := h.tx.ledger h.sentFit.allFit
  obtain ⟨c, m, hput⟩ := hl.putVring_of_ne h.tx.wired h.tx.counters
    (hl.head_ne_iff.mpr hroom) hbuf.2.room
  refine ⟨c, m, (Transition.Run.one (t := { s with
    client := c, world := { s.world with mem := m }, sent := s.sent ++ [buf], mustKick := true })
    ⟨.put hrun hput, nofun, fun _ heq => LoopLabel.put.inj heq ▸ hbuf⟩).snoc ?_⟩
  exact (LoopStep.kick rfl).quiet nofun nofun

/-- The next packet is consumed. -/
theorem can_serve (h : Relaying S s) (hcur : s.cursor = some a)
    (hlt : s.outcomes.length < s.sent.length) :
    ∃ c m b o, LoopStep S s .serve
      { s with
        world := { s.world.setTable c with mem := m }
        cursor := some b
        outcomes := s.outcomes ++ [o] } := by
  obtain ⟨free, heads, hl⟩ := h.tx.ledger h.sentFit.allFit
  obtain ⟨c, m, b, hserve⟩ := hl.can_serve h.tx.wired h.tx.counters hcur hlt
  have henv : s.txEnv S = S.txEnv := congrArg (fun sp => { S.txEnv with consSpace := sp }) h.space
  rw [← henv] at hserve
  exact ⟨c, m, b, _, .of_serve hserve⟩

/-- The call of `process_avail_vring` ends. -/
theorem can_leave (h : Relaying S s) (hcur : s.cursor = some a)
    (hend : s.outcomes.length = s.sent.length) :
    ∃ m, LoopStep S s .leave
      { s with
        world := { s.world with mem := m }
        cursor := none
        published := s.outcomes.length } := by
  obtain ⟨m, hleave⟩ := h.tx.wired.can_leave h.tx.counters hcur hend
  have henv : s.txEnv S = S.txEnv := congrArg (fun sp => { S.txEnv with consSpace := sp }) h.space
  rw [← henv] at hleave
  exact ⟨m, .of_leave hleave⟩

/-- The packet in the buffer is put on the RX ring while that has a descriptor. -/
theorem can_forward (h : Relaying S s) (hstage : s.stage = .forward) (hcur : s.cursor = none)
    (hfull : s.world.context.bufferSize ≠ 0) (hroom : s.placed.length < vhostVringSize) :
    ∃ t, LoopStep S s .forward t ∧ t.placed = s.placed ++ s.buffered := by
  obtain ⟨free, heads, hl⟩ := h.rx.ledger (rx_allFit s)
  obtain ⟨c, m, hput⟩ := hl.putVring_of_ne h.rx.wired h.rx.counters (hl.head_ne_iff.mpr hroom)
    h.packet_fits.room
  rw [show S.rxEnv.prodSpace = s.world.space from h.space.symm] at hput
  refine ⟨_, .forward hstage hcur hfull hput, ?_⟩
  show s.placed ++ _ = _
  rw [LoopState.buffered, if_neg hfull]

/-- A polling server with nothing in the set enters `process_avail_vring`. -/
theorem enter_polling (h : Relaying S s) (hidle : s.stage = .idle) (hcur : s.cursor = none)
    (hpolling : s.world.server.isPolling = true)
    (hquiet : ∀ i, s.selected S (s.fdList i).fd = false) :
    ∃ a ls, Transition.Run (DrainedStep S) s ls { s with cursor := some a, stage := .forward } := by
  obtain ⟨a, henter⟩ := h.availEnter
  have hselect := (LoopStep.select (S := S) hidle).quiet nofun nofun
  have hskip := run_skips (S := S) (fun hs => hs.quiet nofun nofun)
    (s := { s with stage := .slots (s.selected S) 0 }) fdListSize rfl hcur (by omega)
    fun i _ _ => hquiet i
  rw [Nat.zero_add] at hskip
  have hend := (LoopStep.endSlots (S := S)
    (s := { s with stage := .slots (s.selected S) fdListSize }) rfl hcur).quiet nofun nofun
  have hpoll := (LoopStep.pollEnter (S := S) (s := { s with stage := .poll }) rfl hcur
    (h.vring_desc_ne rxIdx) hpolling (h.vring_desc_ne txIdx) henter).quiet nofun nofun
  exact ⟨a, _, (((Transition.Run.one hselect).append hskip).snoc hend).snoc hpoll⟩

/-- A server that reads a kick enters `process_avail_vring`. -/
theorem enter_kicked (h : Relaying S s) (hidle : s.stage = .idle) (hcur : s.cursor = none)
    {k : Fin fdListSize} (hslot : s.fdList k = ⟨S.kickfd txIdx, some .kickServer⟩)
    (hkicks : s.kicks ≠ 0) (hready : s.selected S (S.kickfd txIdx) = true)
    (hquiet : ∀ i, i < k → s.selected S (s.fdList i).fd = false) :
    ∃ a ls, Transition.Run (DrainedStep S) s ls
      { s with kicks := 0, cursor := some a, stage := .slots (s.selected S) (k + 1) } := by
  obtain ⟨a, henter⟩ := h.availEnter
  have hselect := (LoopStep.select (S := S) hidle).quiet nofun nofun
  have hskip := run_skips (S := S) (fun hs => hs.quiet nofun nofun)
    (s := { s with stage := .slots (s.selected S) 0 }) k rfl hcur (by omega)
    fun i _ hi => hquiet i (by omega)
  rw [Nat.zero_add] at hskip
  have hkicked := (LoopStep.kicked (S := S) (s := { s with stage := .slots (s.selected S) k })
    ⟨rfl, hcur, ⟨k.isLt, hslot⟩, hready⟩ hkicks (h.vring_desc_ne txIdx) henter).quiet nofun nofun
  exact ⟨a, _, ((Transition.Run.one hselect).append hskip).snoc hkicked⟩

end Relaying

/-- What `select` leaves in the set while there is neither a connection nor a message to be
taken. -/
theorem selected_of_quiet (hbacklog : s.backlog = false) (hqueue : s.queue = []) {fd : Int}
    (hfd : fd ≠ S.kickfd txIdx) : s.selected S fd = false := by
  refine decide_eq_false ?_
  rintro ⟨-, -, ⟨-, hpending⟩ | ⟨-, hwaiting⟩ | ⟨heq, -⟩⟩
  · rw [hbacklog] at hpending
    cases hpending
  · exact hwaiting hqueue
  · exact hfd heq

end Runs

/-- Both programs when the rings have been set up, with the list `fds` at the server. -/
def Session.loopOpened (S : Session) (w : World) (fds : FdList) (isPolling : Bool) : LoopState :=
  { S.loopStart 10 Mem.zero with
    world := { w with server := { w.server with fdList := fds, isPolling := isPolling } }
    unsent := []
    backlog := false
    conn := some 11 }

theorem Session.Opened.configured {S : Session} {sock : Int} {m : Mem} {w : World}
    (h : S.Opened sock m w) (fds : FdList) (isPolling : Bool) :
    RingsConfigured S (S.loopOpened w fds isPolling) :=
  ⟨rfl, ⟨sock, m, w, h, rfl, rfl, rfl⟩, rfl, rfl, rfl, rfl, rfl, rfl, rfl, rfl, rfl⟩

/-! ### The law -/

/-- What was placed can be read in the avail slots of the RX ring. -/
theorem placed_held {S : Session} {st : Nat → LoopState} {lb : Nat → LoopLabel} {n : Nat}
    (h0 : RingsConfigured S (st 0)) (h : Transition.Path (LoopStep S) st lb n)
    (hputs : ∀ i, i < n → ∀ buf, lb i = .put buf → TxPayload buf) (i : Nat) (hi : i ≤ n) :
    (st i).rx.held S.rxEnv = (st i).placed.map .ret :=
  (h.invariant (I := Relaying S) (A := fun l => ∀ buf, l = LoopLabel.put buf → TxPayload buf)
    (fun _ _ _ hs hl hstep => relaying_step hs hl hstep) h0.relaying hputs i hi).rx_held

/-- **The loop-back loses and duplicates nothing exactly as long as no packet is consumed while
there is one in the buffer.** -/
theorem loop_back_iff {S : Session} {st : Nat → LoopState} {lb : Nat → LoopLabel} {n : Nat}
    (h0 : RingsConfigured S (st 0)) (h : Transition.Path (LoopStep S) st lb n)
    (hputs : ∀ i, i < n → ∀ buf, lb i = .put buf → TxPayload buf) :
    (∀ i, i ≤ n → (st i).LoopsBack) ↔
      ∀ i, i < n → lb i = .serve → (st i).world.context.bufferSize = 0 := by
  have hlaw : (st 0).LoopsBack := by
    rw [LoopState.LoopsBack, h0.placed, (st 0).buffered_eq_nil_iff.mpr h0.empty, LoopState.consumed,
      h0.sent, h0.outcomes]
    rfl
  exact Transition.Path.forall_iff (I := Relaying S) (P := LoopState.LoopsBack)
    (A := fun l => ∀ buf, l = .put buf → TxPayload buf) (C := LoopState.Drained)
    (fun _ _ _ hs hl hstep => relaying_step hs hl hstep)
    (fun _ _ _ hs hl hlaw hstep => loopsBack_step hs hl hlaw hstep) h0.relaying hlaw h hputs

/-- A polling server sends a packet back in the pass that consumes it. -/
theorem loop_back_demo : ∃ st lb n, RingsConfigured .demo (st 0) ∧
    Transition.Path (LoopStep .demo) st lb n ∧ (st n).placed = [[1, 2, 3]] ∧
    ∀ i, i ≤ n → (st i).LoopsBack := by
  obtain ⟨w, hw⟩ := Session.demo.opened_exists 10 Mem.zero
  have h0 := hw.configured openFds true
  obtain ⟨c, m, hsend⟩ := h0.relaying.send_packet ⟨rfl, rfl, rfl⟩
    (show 0 < vhostVringSize by decide) [1, 2, 3] (by decide)
  have h1 := h0.relaying.run hsend
  obtain ⟨a, ls, hpoll⟩ := h1.enter_polling rfl rfl rfl fun i =>
    selected_of_quiet rfl rfl (by
      show (openFds i).fd ≠ 7
      revert i
      decide)
  have h2 := h1.run hpoll
  obtain ⟨c', m', b, o, hserve⟩ := h2.can_serve rfl Nat.one_pos
  have hdrained : DrainedStep .demo _ .serve _ := ⟨hserve, fun _ => h0.empty, nofun⟩
  have h3 := relaying_step h2 hdrained.payload hserve
  obtain ⟨buf, hbuf, hbuffered, -, -⟩ := h2.served hserve
  obtain ⟨m'', hleave⟩ := h3.can_leave rfl rfl
  have h4 := relaying_step (l := .leave) h3 (fun _ heq => nomatch heq) hleave
  obtain ⟨t, hforward, hplaced⟩ := h4.can_forward rfl rfl (fun hempty => by
    rw [← LoopState.buffered_eq_nil_iff] at hempty
    cases hbuffered.symm.trans hempty) (show 0 < vhostVringSize by decide)
  have hrun := (((hsend.append hpoll).snoc hdrained).snoc (hleave.quiet nofun nofun)).snoc
    (hforward.quiet nofun nofun)
  obtain ⟨st, lb, hfirst, hlast, -, hpath⟩ := hrun.path .kick
  have hstart : RingsConfigured .demo (st 0) := by
    rw [hfirst]
    exact h0
  refine ⟨st, lb, _, hstart, fun i hi => (hpath i hi).step, ?_,
    (loop_back_iff hstart (fun i hi => (hpath i hi).step) fun i hi => (hpath i hi).payload).mpr
      fun i hi => (hpath i hi).drained⟩
  rw [hlast, hplaced]
  cases hbuf
  exact hbuffered

/-- **A packet is lost when the server consumes two of them in one pass**: the client puts two
packets and kicks, and the server reads the kicks. -/
theorem loop_back_loses : ∃ s ls t, RingsConfigured .demo s ∧
    Transition.Run (LoopStep .demo) s ls t ∧ (∀ buf, .put buf ∈ ls → TxPayload buf) ∧
    t.consumed = [[1], [2]] ∧ t.placed = [] ∧ t.buffered = [[2]] ∧ ¬ t.LoopsBack := by
  obtain ⟨w, hw⟩ := Session.demo.opened_exists 10 Mem.zero
  have h0 := hw.configured kickFds false
  obtain ⟨c, m, hsend⟩ := h0.relaying.send_packet ⟨rfl, rfl, rfl⟩
    (show 0 < vhostVringSize by decide) [1] (by decide)
  have h1 := h0.relaying.run hsend
  obtain ⟨c', m', hsend'⟩ := h1.send_packet ⟨rfl, rfl, rfl⟩ (show 1 < vhostVringSize by decide)
    [2] (by decide)
  have h2 := h1.run hsend'
  have hlisted : (kickFds.findFdNode 7).isSome = true := by decide
  have hslot : kickFds kickSlot = ⟨7, some .kickServer⟩ := by decide
  have hkicks : eventfdWrite (eventfdWrite 0) ≠ 0 := eventfdWrite_ne_zero _
  obtain ⟨a, ls, hkick⟩ := h2.enter_kicked (k := kickSlot) rfl rfl hslot hkicks
    (decide_eq_true ⟨by decide, hlisted, .inr (.inr ⟨rfl, hkicks⟩)⟩)
    fun i hi => selected_of_quiet rfl rfl (by
      show (kickFds i).fd ≠ 7
      revert i
      decide)
  have h3 := h2.run hkick
  have hpre := (hsend.append hsend').append hkick
  obtain ⟨c3, m3, b, o, hserve⟩ := h3.can_serve rfl (show 0 < 2 by decide)
  have h4 := relaying_step (l := .serve) h3 (fun _ heq => nomatch heq) hserve
  obtain ⟨c4, m4, b', o', hserve'⟩ := h4.can_serve rfl (show 1 < 2 by decide)
  obtain ⟨buf, hbuf, hbuffered, -, hconsumed⟩ := h4.served hserve'
  cases hbuf
  have hlabels := hpre.label (A := fun l => ∀ buf, l = .put buf → TxPayload buf)
    fun _ _ _ hstep => hstep.payload
  refine ⟨_, _, _, h0, ((hpre.mono fun _ _ _ hstep => hstep.step).snoc hserve).snoc hserve', ?_,
    hconsumed, rfl, hbuffered, fun hlaw => ?_⟩
  · intro buf hput
    rw [List.append_assoc, List.mem_append] at hput
    rcases hput with hput | hput
    · exact hlabels _ hput buf rfl
    · cases hput with
      | tail _ hput => exact nomatch hput
  · have hle : 2 ≤ 1 := hlaw.length_le
    exact absurd hle (by decide)

end Vapp
