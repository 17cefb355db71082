import Vapp.EchoLoop

/-! # Packets that come back

What the client can rely on: which packets come back and in which order, and that a kick of the
server is never lost.
-/
namespace Vapp

/-! ### The kicks of the server -/

/-- The client is in `process_avail_vring`, or will be woken up, while there is something on
the RX ring. -/
structure RxAwake (e : EchoState) : Prop where
  awaiting : e.awaiting = false
  calling : e.rxCursor ≠ none → e.mustKick = false
  awake : e.rxOutcomes.length < e.placed.length →
    e.rxKicks ≠ 0 ∨ e.rxMustKick = true ∨ e.rxCursor ≠ none

section Awake
variable {S : Session} {e f : EchoState} {l : EchoLabel}

theorem EchoConfigured.rxAwake (h : EchoConfigured S e) : RxAwake e := by
  refine ⟨h.running.awaiting, fun hne => absurd h.rxCursor hne, fun hlt => ?_⟩
  rw [h.rings.placed] at hlt
  exact absurd hlt (Nat.not_lt_zero _)

/-- The producer of a ring never runs more than the ring ahead. -/
theorem Echoing.placed_le (h : Echoing S e) : e.placed.length ≤ vhostVringSize := by
  have hle : e.placed.length ≤ 0 + vhostVringSize := h.rx.sent_le h.placed
  rwa [Nat.zero_add] at hle

/-- A call of `process_avail_vring` that ends has consumed everything. -/
theorem Echoing.rx_left (h : Echoing S e) {a : UInt16} {fuel : Nat}
    (hturn : availTurn (regionSpace S.clientBase) fuel e.client rxIdx a e.world.mem =
      .ret none) : e.rxOutcomes.length = e.placed.length :=
  h.rx.all_consumed h.placed hturn

theorem rxAwake_step (h : RxAwake e) (he : Echoing S e) (hs : EchoStep S e l f) : RxAwake f := by
  cases hs with
  | @loop l t hclient hserver hs =>
      cases hs with
      | send hunsent _ =>
          rw [he.unsent] at hunsent
          cases hunsent
      | put _ _ =>
          exact ⟨h.awaiting, fun hne => absurd (hclient rfl) hne, fun hlt =>
            (h.awake hlt).imp_right (Or.imp_left fun hk => by rw [hk]; rfl)⟩
      | kick _ =>
          exact ⟨h.awaiting, fun _ => rfl, fun hlt =>
            (h.awake hlt).imp_right (Or.imp_left fun hk => by rw [hk]; rfl)⟩
      | receive _ _ hqueue _ =>
          rw [he.queue] at hqueue
          cases hqueue
      | forward _ _ hfull _ =>
          refine ⟨h.awaiting, h.calling, fun _ => .inr (.inl ?_)⟩
          rw [Bool.or_eq_true]
          exact .inr (decide_eq_true ⟨rfl, hfull⟩)
      | _ =>
          exact ⟨h.awaiting, h.calling, fun hlt =>
            (h.awake hlt).imp_right (Or.imp_left fun hk => by rw [hk]; rfl)⟩
  | rxKick _ => exact ⟨h.awaiting, h.calling, fun _ => .inl (eventfdWrite_ne_zero _)⟩
  | rxRead hrun _ _ _ =>
      exact ⟨h.awaiting, fun _ => hrun.mustKick, fun _ => .inr (.inr (Option.some_ne_none _))⟩
  | rxServe hcur _ =>
      have hne : e.rxCursor ≠ none := by
        rw [hcur]
        exact Option.some_ne_none _
      exact ⟨h.awaiting, fun _ => h.calling hne, fun _ => .inr (.inr (Option.some_ne_none _))⟩
  | rxLeave hcur hturn _ =>
      refine ⟨h.awaiting, fun hne => absurd rfl hne, fun hlt => ?_⟩
      exact absurd (he.rx_left hturn) (Nat.ne_of_lt hlt)

end Awake

/-! ### A call of the client -/

/-- What came back are the first packets of the RX ring. -/
theorem Echoing.echoed_eq {S : Session} {e : EchoState} (h : Echoing S e) :
    e.echoed = (e.placed.take e.rxOutcomes.length).map callOf := h.rx.delivered_eq h.placed

/-- When everything on the RX ring has been consumed, all of it has come back. -/
theorem Echoing.echoed_all {S : Session} {e : EchoState} (h : Echoing S e)
    (hall : e.rxOutcomes.length = e.placed.length) : e.echoed = e.placed.map callOf := by
  rw [h.echoed_eq, hall, List.take_length]

/-- The RX ring as it is in a state of the ring alone. -/
def EchoState.withRx (e : EchoState) (t : RingState ServerContext Unit) : EchoState :=
  { e with
    client := t.cons
    world := { e.world with mem := t.mem }
    rxCursor := t.cursor
    rxOutcomes := t.outcomes
    rxPublished := t.published }

section Drain
variable {S : Session} {e f : EchoState}

/-- The parts of a call on the ring are steps of the client. -/
theorem QuietStep.of_serve {t u : RingState ServerContext Unit}
    (h : RingStep S.rxEnv t .serve u) : QuietStep S (e.withRx t) .rxServe (e.withRx u) := by
  cases h with
  | serve hcur hturn => exact ⟨.rxServe (e := e.withRx _) hcur hturn, nofun⟩

theorem QuietStep.of_leave {t u : RingState ServerContext Unit}
    (h : RingStep S.rxEnv t .leave u) : QuietStep S (e.withRx t) .rxLeave (e.withRx u) := by
  cases h with
  | leave hcur hturn hidx => exact ⟨.rxLeave (e := e.withRx _) hcur hturn hidx, nofun⟩

theorem run_of_rxServes (n : Nat) {t : RingState ServerContext Unit} :
    ∀ {u : RingState ServerContext Unit},
    Transition.Run (RingStep S.rxEnv) t (List.replicate n .serve) u →
    Transition.Run (QuietStep S) (e.withRx t) (List.replicate n .rxServe) (e.withRx u) := by
  induction n with
  | zero =>
      intro u h
      rw [h.eq_of_nil]
      exact .nil
  | succ n ih =>
      intro u h
      rw [List.replicate_succ'] at h ⊢
      obtain ⟨v, hv, hlast⟩ := h.split
      exact (ih hv).snoc (.of_serve hlast.of_singleton)

/-- **A call of `process_avail_vring` under way** can consume everything and return. -/
theorem Echoing.finish_call (h : Echoing S e) {a : UInt16} (hcur : e.rxCursor = some a) :
    ∃ n g, Transition.Run (QuietStep S) e (List.replicate n .rxServe ++ [.rxLeave]) g ∧
      g.rxCursor = none := by
  have hle : e.rxOutcomes.length ≤ e.placed.length := h.rx.counters.consumedLe
  obtain ⟨n, hn⟩ := Nat.exists_eq_add_of_le' hle
  obtain ⟨c, m, b, os, hos, hserves⟩ := Tracked.can_serves n h.rx h.placed hcur
    (show e.rxOutcomes.length + n ≤ e.placed.length by omega)
  have hturns := run_of_rxServes (e := e) n hserves
  have hall : (e.rxOutcomes ++ os).length = e.placed.length := by
    rw [List.length_append, hos, hn, Nat.add_comm]
  have ht := tracked_run h.rx hserves
  obtain ⟨m', hleave⟩ := ht.wired.can_leave ht.counters rfl hall
  exact ⟨n, _, hturns.snoc (.of_leave hleave), rfl⟩

/-- The client reads a kick of the server. -/
theorem Echoing.can_read (h : Echoing S e) (hrun : e.Running) (hidle : e.rxCursor = none)
    (hkicks : e.rxKicks ≠ 0) :
    ∃ a, QuietStep S e .rxRead { e with rxKicks := 0, rxCursor := some a } := by
  have henter := availEnter_of_num h.rx.wired.consNum (by decide)
  exact ⟨_, .rxRead hrun hidle hkicks henter, nofun⟩

end Drain

/-! ### A packet that comes back -/

section Demo
variable {S : Session} {e : EchoState} {t : LoopState}

/-- Every run of the two loops is one of the whole system, in which the server kicks at once. -/
theorem run_of_loop {step : LoopState → LoopLabel → LoopState → Prop}
    (hle : ∀ s l t, step s l t → LoopStep S s l t ∧ ∀ buf, l = .put buf → TxPayload buf)
    {ls : List LoopLabel} (hmust : e.rxMustKick = false) (hidle : e.rxCursor = none)
    (hrun : Transition.Run step e.toLoopState ls t) :
    ∃ ms k, Transition.Run (PayloadStep S) e ms
      { e with toLoopState := t, rxKicks := k, rxMustKick := false } := by
  induction hrun with
  | nil =>
      refine ⟨[], e.rxKicks, ?_⟩
      rw [← hmust]
      exact .nil
  | @snoc ls t u l hrun hs ih =>
      obtain ⟨ms, k, hms⟩ := ih
      obtain ⟨hstep, hput⟩ := hle _ _ _ hs
      have hstep := EchoStep.loop
        (e := { e with toLoopState := t, rxKicks := k, rxMustKick := false })
        (fun _ => hidle) (fun _ => rfl) hstep
      have hpayload : ∀ buf, EchoLabel.loop l = .loop (.put buf) → TxPayload buf :=
        fun buf heq => hput buf (EchoLabel.loop.inj heq)
      by_cases hkick : l = .forward ∧ t.world.context.bufferSize ≠ 0
      · exact ⟨_, _, (hms.snoc ⟨hstep, hpayload⟩).snoc
          (QuietStep.payload ⟨.rxKick (decide_eq_true hkick), nofun⟩)⟩
      · refine ⟨_, k, hms.snoc ⟨?_, hpayload⟩⟩
        have hafter : (false || decide (l = .forward ∧ t.world.context.bufferSize ≠ 0)) = false :=
          decide_eq_false hkick
        rwa [hafter] at hstep

/-- Both programs when the rings have been set up and nothing was sent. -/
def Session.echoOpened (S : Session) (w : World) (fds : FdList) (isPolling : Bool) : EchoState :=
  { toLoopState := S.loopOpened w fds isPolling
    rxKicks := 0
    rxMustKick := false
    rxCursor := none
    rxOutcomes := []
    rxPublished := 0 }

theorem Session.Opened.echoConfigured {sock : Int} {m : Mem} {w : World} (h : S.Opened sock m w)
    (fds : FdList) (isPolling : Bool) : EchoConfigured S (S.echoOpened w fds isPolling) :=
  ⟨h.configured fds isPolling, ⟨rfl, rfl, rfl⟩, rfl, rfl, rfl, rfl, rfl⟩

/-- A polling server puts a packet of the client on the RX ring. -/
theorem echo_demo_run : ∃ e ls f, EchoConfigured .demo e ∧
    Transition.Run (PayloadStep .demo) e ls f ∧ f.placed = [[1, 2, 3]] ∧ f.rxOutcomes = [] := by
  obtain ⟨w, hw⟩ := Session.demo.opened_exists 10 Mem.zero
  have h0 := hw.configured openFds true
  obtain ⟨c, m, hsend⟩ := h0.relaying.send_packet ⟨rfl, rfl, rfl⟩
    (show 0 < vhostVringSize by decide) [1, 2, 3] (by decide)
  have h1 := h0.relaying.run hsend
  obtain ⟨a, ls, hpoll⟩ := h1.enter_polling rfl rfl rfl fun i =>
    selected_of_quiet rfl rfl (by
      show (openFds i).fd ≠ 7
      revert i
      decide)
  have h2 := h1.run hpoll
  obtain ⟨c', m', b, o, hserve⟩ := h2.can_serve rfl Nat.one_pos
  have hdrained : DrainedStep .demo _ .serve _ := ⟨hserve, fun _ => h0.empty, nofun⟩
  have h3 := relaying_step h2 hdrained.payload hserve
  obtain ⟨buf, hbuf, hbuffered, -, -⟩ := h2.served hserve
  obtain ⟨m'', hleave⟩ := h3.can_leave rfl rfl
  have h4 := relaying_step (l := .leave) h3 (fun _ heq => nomatch heq) hleave
  obtain ⟨t, hforward, hplaced⟩ := h4.can_forward rfl rfl (fun hempty => by
    rw [← LoopState.buffered_eq_nil_iff] at hempty
    cases hbuffered.symm.trans hempty) (show 0 < vhostVringSize by decide)
  have hrun := (((hsend.append hpoll).snoc hdrained).snoc (hleave.quiet nofun nofun)).snoc
    (hforward.quiet nofun nofun)
  obtain ⟨ms, k, hms⟩ := run_of_loop (e := Session.demo.echoOpened w openFds true)
    (fun _ _ _ hs => ⟨hs.step, hs.payload⟩) rfl rfl hrun
  refine ⟨_, ms, _, hw.echoConfigured openFds true, hms, ?_, rfl⟩
  cases hbuf
  exact hplaced.trans hbuffered

/-- At the end of a pass the private buffer is empty. -/
theorem LoopStep.forwarded {s t : LoopState} (hs : LoopStep S s .forward t) :
    t.sent = s.sent ∧ t.buffered = [] ∧ t.outcomes = s.outcomes := by
  cases hs with
  | forwardNone _ _ hempty => exact ⟨rfl, (LoopState.buffered_eq_nil_iff _).mpr hempty, rfl⟩
  | forward _ _ _ _ => exact ⟨rfl, rfl, rfl⟩

/-- A polling server takes two packets in one call, and puts the second on the RX ring. -/
theorem overtaken_demo_run : ∃ e ls f, EchoConfigured .demo e ∧
    Transition.Run (PayloadStep .demo) e ls f ∧ f.sent = [[1], [2]] ∧ f.placed = [[2]] ∧
    f.buffered = [] ∧ f.outcomes.length = 2 := by
  obtain ⟨w, hw⟩ := Session.demo.opened_exists 10 Mem.zero
  have h0 := hw.configured openFds true
  obtain ⟨c, m, hsend⟩ := h0.relaying.send_packet ⟨rfl, rfl, rfl⟩
    (show 0 < vhostVringSize by decide) [1] (by decide)
  have h1 := h0.relaying.run hsend
  obtain ⟨c', m', hsend'⟩ := h1.send_packet ⟨rfl, rfl, rfl⟩
    (show 1 < vhostVringSize by decide) [2] (by decide)
  have h2 := h1.run hsend'
  obtain ⟨a, ls, hpoll⟩ := h2.enter_polling rfl rfl rfl fun i =>
    selected_of_quiet rfl rfl (by
      show (openFds i).fd ≠ 7
      revert i
      decide)
  have h3 := h2.run hpoll
  obtain ⟨t1, m1, b1, o1, hserve⟩ := h3.can_serve rfl (show 0 < 2 by decide)
  have h4 := relaying_step (l := .serve) h3 nofun hserve
  obtain ⟨t2, m2, b2, o2, hserve'⟩ := h4.can_serve rfl (show 1 < 2 by decide)
  have h5 := relaying_step (l := .serve) h4 nofun hserve'
  obtain ⟨buf, hbuf, hbuffered, -, -⟩ := h4.served hserve'
  cases hbuf
  obtain ⟨m3, hleave⟩ := h5.can_leave rfl rfl
  have h6 := relaying_step (l := .leave) h5 nofun hleave
  obtain ⟨t, hforward, hplaced⟩ := h6.can_forward rfl rfl (fun hempty => by
    rw [← LoopState.buffered_eq_nil_iff] at hempty
    cases hbuffered.symm.trans hempty) (show 0 < vhostVringSize by decide)
  have hpayload : ∀ s l t, DrainedStep .demo s l t →
      LoopStep .demo s l t ∧ ∀ buf, l = .put buf → TxPayload buf :=
    fun _ _ _ hs => ⟨hs.step, hs.payload⟩
  have hrun := ((((((hsend.append hsend').append hpoll).mono hpayload).snoc
    ⟨hserve, nofun⟩).snoc ⟨hserve', nofun⟩).snoc ⟨hleave, nofun⟩).snoc ⟨hforward, nofun⟩
  obtain ⟨ms, k, hms⟩ := run_of_loop (e := Session.demo.echoOpened w openFds true)
    (fun _ _ _ => id) rfl rfl hrun
  obtain ⟨hsent, hempty, houtcomes⟩ := hforward.forwarded
  exact ⟨_, ms, _, hw.echoConfigured openFds true, hms, hsent, hplaced.trans hbuffered, hempty,
    congrArg List.length houtcomes⟩

end Demo

section Results
variable {S : Session} {e f : EchoState} {ls : List EchoLabel} {lost : List (List UInt8)}

/-- Where the packets that were sent are: back at the client or on the RX ring, in the private
buffer, on the TX ring, all in the order in which they were sent, or among those lost. -/
structure EchoState.Accounts (f : EchoState) (lost : List (List UInt8)) : Prop where
  ordered : (f.placed ++ (f.buffered ++ f.sent.drop f.outcomes.length)).Sublist f.sent
  counted : (f.placed ++ (f.buffered ++ f.sent.drop f.outcomes.length) ++ lost).Perm f.sent
  echoed : f.echoed = (f.placed.take f.rxOutcomes.length).map callOf
  sublist : (f.echoed.map HandlerCall.buf).Sublist f.sent

/-- What a relay keeps of the packets and of their order. -/
theorem Relayed.accounts {ms : List Unit} {y : Relay (List UInt8)}
    (h : Relayed f y) (hy : Transition.Run Relay.Step Relay.empty ms y) (hlost : y.lost = lost)
    (hechoed : f.echoed = (f.placed.take f.rxOutcomes.length).map callOf) :
    f.Accounts lost := by
  obtain ⟨hordered, hcounted⟩ := Relay.accounted_of_run hy
  rw [h.kept, h.sent] at hordered hcounted
  refine ⟨hordered, hlost ▸ hcounted, hechoed, ?_⟩
  rw [hechoed, List.map_map]
  refine List.Sublist.trans ?_ hordered
  rw [show (HandlerCall.buf ∘ callOf : List UInt8 → List UInt8) = id from rfl, List.map_id]
  exact (List.take_sublist _ _).trans (List.sublist_append_left _ _)

theorem EchoConfigured.rxAwake_run (h : EchoConfigured S e)
    (hrun : Transition.Run (PayloadStep S) e ls f) : Echoing S f ∧ RxAwake f :=
  Transition.Run.preserves (I := fun e => Echoing S e ∧ RxAwake e)
    (fun _ _ _ hs hstep =>
      ⟨echoing_step hs.1 hstep.payload hstep.step, rxAwake_step hs.2 hs.1 hstep.step⟩)
    ⟨h.echoing, h.rxAwake⟩ hrun

/-- **The two programs implement the relay**: in every run in which the client puts only
payloads, the packets on the two rings, in the private buffer and at `avail_handler_client` are
those of a run of `Relay`. -/
theorem echo_refines_relay (h : EchoConfigured S e)
    (hrun : Transition.Run (PayloadStep S) e ls f) :
    ∃ ms y, Transition.Run Relay.Step Relay.empty ms y ∧ Relayed f y ∧
      f.echoed = y.delivered.map callOf := by
  obtain ⟨lost, hnote⟩ := hrun.noting EchoState.overwritten []
  obtain ⟨ms, y, hy, hrel, -⟩ := h.refines hnote
  have hf := h.echoing.run hrun
  refine ⟨ms, y, hy, hrel, ?_⟩
  rw [hrel.delivered]
  exact hf.echoed_eq

theorem echo_refines_relay_demo : ∃ e ls f, EchoConfigured .demo e ∧
    Transition.Run (PayloadStep .demo) e ls f ∧ f.placed = [[1, 2, 3]] ∧
    ∃ ms y, Transition.Run Relay.Step Relay.empty ms y ∧ Relayed f y ∧
      f.echoed = y.delivered.map callOf := by
  obtain ⟨e, ls, f, h, hrun, hplaced, -⟩ := echo_demo_run
  exact ⟨e, ls, f, h, hrun, hplaced, echo_refines_relay h hrun⟩

/-- **Nothing comes back that was not sent**, nothing twice and nothing out of order.  Every
packet that was sent came back, is still on its way, or is one of those that the run overwrote
in the private buffer. -/
theorem echoed_in_order (h : EchoConfigured S e) (hrun : Overwrites S e ls f lost) :
    f.Accounts lost := by
  obtain ⟨ms, y, hy, hrel, hlost⟩ := h.refines hrun
  exact hrel.accounts hy hlost (h.echoing.run hrun.of_noting).echoed_eq

/-- The second packet came back, the first one was overwritten. -/
theorem echoed_in_order_demo : ∃ e ls f lost, EchoConfigured .demo e ∧
    Overwrites .demo e ls f lost ∧ f.sent = [[1], [2]] ∧ f.placed = [[2]] ∧ lost = [[1]] ∧
    f.Accounts lost := by
  obtain ⟨e, ls, f, h, hrun, hsent, hplaced, hbuffered, houtcomes⟩ := overtaken_demo_run
  obtain ⟨lost, hnote⟩ := hrun.noting EchoState.overwritten []
  have hall := echoed_in_order h hnote
  refine ⟨e, ls, f, lost, h, hnote, hsent, hplaced, ?_, hall⟩
  have hcounted := hall.counted
  rw [hplaced, hbuffered, houtcomes, hsent] at hcounted
  have hswap : ([[2], [1]] : List (List UInt8)).Perm [[1], [2]] := .swap _ _ _
  exact List.perm_singleton.mp ((List.perm_cons _).mp (hcounted.trans hswap.symm))

/-- **No kick of the server is lost.**  Whenever there is a packet on the RX ring that was not
handed to `avail_handler_client`, the client is in `process_avail_vring`, its kick descriptor can
be read, or `poll_server` is in front of its `kick`. -/
theorem no_rx_kick_lost (h : EchoConfigured S e)
    (hrun : Transition.Run (PayloadStep S) e ls f)
    (hlt : f.rxOutcomes.length < f.placed.length) :
    f.rxKicks ≠ 0 ∨ f.rxMustKick = true ∨ f.rxCursor ≠ none :=
  (h.rxAwake_run hrun).2.awake hlt

theorem no_rx_kick_lost_demo : ∃ e ls f, EchoConfigured .demo e ∧
    Transition.Run (PayloadStep .demo) e ls f ∧ f.rxOutcomes.length < f.placed.length ∧
    (f.rxKicks ≠ 0 ∨ f.rxMustKick = true ∨ f.rxCursor ≠ none) := by
  obtain ⟨e, ls, f, h, hrun, hplaced, hnone⟩ := echo_demo_run
  have hlt : f.rxOutcomes.length < f.placed.length := by
    rw [hplaced, hnone]
    exact Nat.one_pos
  exact ⟨e, ls, f, h, hrun, hlt, no_rx_kick_lost h hrun hlt⟩

/-- **The server sends back no more than one ring of packets**: it never reclaims what the
client has used, and with the last descriptor gone its `put_vring` reads past the descriptor
table, whatever there is to send. -/
theorem echo_ends_with_ring (h : EchoConfigured S e)
    (hrun : Transition.Run (PayloadStep S) e ls f) :
    f.placed.length ≤ vhostVringSize ∧
    (f.placed.length = vhostVringSize → ∀ buf,
      putVring f.world.space f.world.server.table rxIdx buf f.world.mem =
        .fault (.subscript vringIdxNone.toNat)) := by
  have hf := h.echoing.run hrun
  refine ⟨hf.placed_le, fun hfull buf => ?_⟩
  obtain ⟨free, heads, hl⟩ := hf.rx.ledger hf.placed.allFit
  have hhead : (f.world.server.table.vring rxIdx).lastAvailIdx = vringIdxNone := by
    by_contra hne
    have hroom : f.placed.length - 0 < vhostVringSize := hl.head_ne_iff.mp hne
    omega
  have hfault : putVring (regionSpace S.serverBase) f.world.server.table rxIdx buf f.world.mem =
      _ := putVring_of_out_of_range hf.rx.wired.prodDesc (by
    show ¬ (f.world.server.table.vring rxIdx).lastAvailIdx.toNat < vhostVringSize
    rw [hhead]
    decide)
  rw [hf.space]
  exact hhead ▸ hfault

end Results

end Vapp
