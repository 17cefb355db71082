import Vapp.LoopBack
import Vapp.Library.Relay

/-! # The way of a packet to the server and back

The client runs `process_avail_vring` for the RX ring when it reads a kick of the server.  With
these calls next to the loops of both programs, a packet goes from `send_packet` over the TX
ring into the private buffer of the server, and from there over the RX ring to
`avail_handler_client`.
-/
namespace Vapp

/-! ### A step of one ring, seen from another -/

/-- What a step of the ring `E` leaves alone: every other ring of both tables, and every other
shared object. -/
structure Beside {κ μ : Type} (E : RingEnv) (s t : RingState κ μ) : Prop where
  prod : ∀ i, i ≠ E.vIdx → t.prod.vring i = s.prod.vring i
  prodTranslate : ∀ a, t.prod.translate a = s.prod.translate a
  prodHandlers : t.prod.handlers = s.prod.handlers
  cons : ∀ i, i ≠ E.vIdx → t.cons.vring i = s.cons.vring i
  consTranslate : ∀ a, t.cons.translate a = s.cons.translate a
  desc : ∀ l : Loc, l.shm ≠ E.shm → t.mem.desc l = s.mem.desc l
  avail : ∀ l : Loc, l.shm ≠ E.shm → t.mem.avail l = s.mem.avail l
  used : ∀ l : Loc, l.shm ≠ E.shm → t.mem.used l = s.mem.used l
  byte : ∀ l : Loc, l.shm ≠ E.shm → t.mem.byte l = s.mem.byte l

section Beside
variable {κ μ : Type} {E E' : RingEnv} {s t : RingState κ μ} {l : RingLabel}

theorem ne_of_shm {l l' : Loc} (h : l.shm ≠ l'.shm) : some l' ≠ some l := fun heq =>
  h (congrArg Loc.shm (Option.some.inj heq).symm)

/-- **A step of a ring stays in its own object and its own member of the tables.** -/
theorem ringStep_beside (h : Tracked E s) (hfit : AllFit s) (hs : RingStep E s l t) :
    Beside E s t := by
  have hw := h.wired
  cases hs with
  | put hput =>
      have hf := putVring_putFrame hput
      exact
        { prod := hf.other
          prodTranslate := translate_of_eq hf.handlers hf.context
          prodHandlers := hf.handlers
          cons := fun _ _ => rfl
          consTranslate := fun _ => rfl
          desc := fun _ hl => hf.desc _ (hw.prodDesc.trans_ne (ne_of_shm hl))
          avail := fun _ hl => hf.avail _ (hw.prodAvail.trans_ne (ne_of_shm hl))
          used := fun _ _ => congrFun hf.used _
          byte := fun _ hl => h.putVring_byte hfit hput hl }
  | reclaim hcall =>
      have hf := processUsedVring_usedFrame hcall
      exact
        { prod := hf.other
          prodTranslate := translate_of_eq hf.handlers hf.context
          prodHandlers := hf.handlers
          cons := fun _ _ => rfl
          consTranslate := fun _ => rfl
          desc := fun _ hl => hf.desc _ (hw.prodDesc.trans_ne (ne_of_shm hl))
          avail := fun _ _ => congrFun hf.avail _
          used := fun _ _ => congrFun hf.used _
          byte := fun _ _ => congrFun hf.byte _ }
  | enter _ _ =>
      exact ⟨fun _ _ => rfl, fun _ => rfl, rfl, fun _ _ => rfl, fun _ => rfl, fun _ _ => rfl,
        fun _ _ => rfl, fun _ _ => rfl, fun _ _ => rfl⟩
  | serve _ hturn =>
      have hf := availTurn_availFrame hturn
      exact
        { prod := fun _ _ => rfl
          prodTranslate := fun _ => rfl
          prodHandlers := rfl
          cons := hf.other
          consTranslate := hf.translate
          desc := fun _ _ => congrFun hf.desc _
          avail := fun _ _ => congrFun hf.avail _
          used := fun _ hl => hf.used _ (hw.consUsed.trans_ne (ne_of_shm hl))
          byte := fun _ _ => congrFun hf.byte _ }
  | leave _ _ hidx =>
      obtain ⟨U, hU, hidx⟩ := Outcome.bind_eq_ret.mp hidx
      cases hidx
      refine ⟨fun _ _ => rfl, fun _ => rfl, rfl, fun _ _ => rfl, fun _ => rfl, fun _ _ => rfl,
        fun _ _ => rfl, fun l hl => Function.update_of_ne ?_ _ _, fun _ _ => rfl⟩
      rintro rfl
      cases hw.consUsed.symm.trans (deref_eq_ret.mp hU)
      exact hl rfl

/-- The same step as a ring sees it on which the two parties have changed places. -/
theorem Beside.frame (h : Beside E s t) (hidx : E'.vIdx ≠ E.vIdx) (hshm : E'.shm ≠ E.shm)
    {s' t' : RingState μ κ}
    (hs : s'.prod = s.cons ∧ s'.cons = s.prod ∧ s'.mem = s.mem)
    (ht : t' = { s' with prod := t.cons, cons := t.prod, mem := t.mem }) :
    RingFrame E' s' t' := by
  obtain ⟨hprod, hcons, hmem⟩ := hs
  subst ht
  exact
    { prod := hprod ▸ h.cons _ hidx
      prodTranslate := fun a => hprod ▸ h.consTranslate a
      cons := hcons ▸ h.prod _ hidx
      consTranslate := fun a => hcons ▸ h.prodTranslate a
      handlers := hcons ▸ h.prodHandlers
      desc := hmem ▸ h.desc _ hshm
      avail := hmem ▸ h.avail _ hshm
      used := hmem ▸ h.used _ hshm
      byte := fun l hl => hmem ▸ h.byte l (hl ▸ hshm)
      cursor := rfl, sent := rfl, outcomes := rfl, published := rfl, seen := rfl }

end Beside

/-! ### The system -/

/-- Both loops, with the client's side of the RX ring: the counter of its kick descriptor, and
the slot that a call of `process_avail_vring` under way is at.  `rxMustKick` says that
`poll_server` is between `put_vring` and `kick`.  The last two components are history. -/
structure EchoState extends LoopState where
  rxKicks : Nat
  rxMustKick : Bool
  rxCursor : Option UInt16
  rxOutcomes : List (Option HandlerCall)
  rxPublished : Nat

/-- The RX ring, with the calls of the client. -/
def EchoState.rxRing (e : EchoState) : RingState ServerContext Unit where
  prod := e.world.server.table
  cons := e.client
  mem := e.world.mem
  cursor := e.rxCursor
  sent := e.placed
  outcomes := e.rxOutcomes
  published := e.rxPublished
  seen := 0

/-- The steps of the client in `LoopStep`. -/
def LoopLabel.ofClient : LoopLabel → Bool
  | send | put _ | kick | reclaim => true
  | _ => false

inductive EchoLabel where
  | loop (l : LoopLabel)
  | rxKick
  | rxRead
  | rxServe
  | rxLeave

/-- One step of either program.  The client makes no other step during its call of
`process_avail_vring`, and the server none between its `put_vring` and its `kick`.  Apart from
that the steps of the client come in any order: that `loop_client` runs `poll_client`, which
puts packets, between two calls of `_kick_client` is not said.  Every run of the two programs is
one of this system, but it has more; so results about it are about all runs. -/
inductive EchoStep (S : Session) : EchoState → EchoLabel → EchoState → Prop
  | loop {e : EchoState} {l : LoopLabel} {t : LoopState}
      (hclient : l.ofClient = true → e.rxCursor = none)
      (hserver : l.ofClient = false → e.rxMustKick = false)
      (h : LoopStep S e.toLoopState l t) :
      EchoStep S e (.loop l)
        { e with
          toLoopState := t
          rxMustKick := e.rxMustKick || (l = .forward ∧ e.world.context.bufferSize ≠ 0) }
  /-- the `kick` of `poll_server` -/
  | rxKick {e : EchoState} (h : e.rxMustKick = true) :
      EchoStep S e .rxKick { e with rxKicks := eventfdWrite e.rxKicks, rxMustKick := false }
  /-- `_kick_client` reads the counter and enters `process_avail_vring` -/
  | rxRead {e : EchoState} {a : UInt16} (hrun : e.Running) (hidle : e.rxCursor = none)
      (hkicks : e.rxKicks ≠ 0) (henter : availEnter e.client rxIdx = .ret a) :
      EchoStep S e .rxRead { e with rxKicks := 0, rxCursor := some a }
  | rxServe {e : EchoState} {a : UInt16} {fuel : Nat} {r : AvailTurn Unit}
      (hcur : e.rxCursor = some a)
      (h : availTurn (regionSpace S.clientBase) fuel e.client rxIdx a e.world.mem =
        .ret (some r)) :
      EchoStep S e .rxServe
        { e with
          client := r.table
          world := { e.world with mem := r.mem }
          rxCursor := some r.aIdx
          rxOutcomes := e.rxOutcomes ++ [r.call] }
  | rxLeave {e : EchoState} {a : UInt16} {fuel : Nat} {m : Mem} (hcur : e.rxCursor = some a)
      (h : availTurn (regionSpace S.clientBase) fuel e.client rxIdx a e.world.mem = .ret none)
      (hidx : availLeave (regionSpace S.clientBase) e.client rxIdx e.world.mem = .ret m) :
      EchoStep S e .rxLeave
        { e with
          world := { e.world with mem := m }
          rxCursor := none
          rxPublished := e.rxOutcomes.length }

/-! ### The invariant -/

/-- Both rings are set up; only payloads were put on either. -/
structure Echoing (S : Session) (e : EchoState) : Prop where
  unsent : e.unsent = []
  queue : e.queue = []
  space : e.world.space = regionSpace S.serverBase
  tx : Tracked S.txEnv e.tx
  rx : Tracked S.rxEnv e.rxRing
  payloads : ∀ buf ∈ e.sent, TxPayload buf
  placed : SentFit e.rxRing
  packet : PacketFits e.world

/-- A configured system in which the client has not used the RX ring yet. -/
structure EchoConfigured (S : Session) (e : EchoState) : Prop where
  rings : RingsConfigured S e.toLoopState
  running : e.Running
  rxKicks : e.rxKicks = 0
  rxMustKick : e.rxMustKick = false
  rxCursor : e.rxCursor = none
  rxOutcomes : e.rxOutcomes = []
  rxPublished : e.rxPublished = 0

section Keep
variable {S : Session} {e f : EchoState} {l : EchoLabel}

theorem EchoConfigured.echoing (h : EchoConfigured S e) : Echoing S e := by
  have hr := h.rings.relaying
  have hrx : e.rxRing = e.rx := by
    simp only [EchoState.rxRing, LoopState.rx, h.rxCursor, h.rxOutcomes, h.rxPublished]
  exact ⟨hr.unsent, hr.queue, hr.space, hr.tx, hrx ▸ hr.rx, hr.payloads, hrx ▸ hr.placed,
    hr.packet⟩

namespace Echoing

theorem sentFit (h : Echoing S e) : SentFit e.tx := fun buf hbuf => (h.payloads buf hbuf).2

theorem packet_fits (h : Echoing S e) : Fits e.world.context.packet := by
  rw [Fits, ServerContext.packet, List.length_map, List.length_range]
  exact h.packet.size

/-- A step of the TX ring keeps the account of the RX ring. -/
theorem rx_of_txStep (h : Echoing S e) {l : RingLabel} {t : RingState Unit ServerContext}
    (hs : RingStep S.txEnv e.tx l t) :
    Tracked S.rxEnv { e.rxRing with prod := t.cons, cons := t.prod, mem := t.mem } :=
  ((ringStep_beside h.tx h.sentFit.allFit hs).frame (by decide : rxIdx ≠ txIdx) S.shm_ne.symm
    ⟨rfl, rfl, rfl⟩ rfl).tracked h.rx

/-- A step of the RX ring keeps the account of the TX ring. -/
theorem tx_of_rxStep (h : Echoing S e) {l : RingLabel} {t : RingState ServerContext Unit}
    (hs : RingStep S.rxEnv e.rxRing l t) :
    Tracked S.txEnv { e.tx with prod := t.cons, cons := t.prod, mem := t.mem } :=
  ((ringStep_beside h.rx h.placed.allFit hs).frame (by decide : txIdx ≠ rxIdx) S.shm_ne
    ⟨rfl, rfl, rfl⟩ rfl).tracked h.tx

/-- A step that leaves both rings and the messages alone. -/
theorem congr (h : Echoing S e) (hunsent : f.unsent = e.unsent) (hqueue : f.queue = e.queue)
    (hspace : f.world.space = e.world.space) (htx : f.tx = e.tx) (hrx : f.rxRing = e.rxRing) :
    Echoing S f := by
  have htable : f.world.server.table = e.world.server.table := congrArg RingState.cons htx
  have hsent : f.sent = e.sent := congrArg RingState.sent htx
  refine ⟨hunsent.trans h.unsent, hqueue.trans h.queue, hspace.trans h.space, htx ▸ h.tx,
    hrx ▸ h.rx, hsent ▸ h.payloads, hrx ▸ h.placed, h.packet.congr (by rw [htable]) ?_⟩
  rw [World.context, htable]
  rfl

/-- A step of the client on the TX ring. -/
theorem txStep (h : Echoing S e) {l : RingLabel} (hl : ∀ buf, l = .put buf → TxPayload buf)
    {t : RingState Unit ServerContext} (hs : RingStep S.txEnv e.tx l t)
    (htx : f.tx = t) (hunsent : f.unsent = e.unsent) (hqueue : f.queue = e.queue)
    (hspace : f.world.space = e.world.space)
    (hrx : f.rxRing = { e.rxRing with prod := t.cons, cons := t.prod, mem := t.mem })
    (hpacket : PacketFits f.world) : Echoing S f := by
  have hsent : f.sent = t.sent := congrArg RingState.sent htx
  refine ⟨hunsent.trans h.unsent, hqueue.trans h.queue, hspace.trans h.space,
    htx ▸ tracked_step h.tx hs, hrx ▸ h.rx_of_txStep hs, ?_, ?_, hpacket⟩
  · rw [hsent]
    cases hs with
    | @put buf r p m _ =>
        intro b hb
        by_cases hr : r = 0
        · rw [if_pos hr] at hb
          rcases List.mem_append.mp hb with hb | hb
          · exact h.payloads b hb
          · rw [List.mem_singleton.mp hb]
            exact hl buf rfl
        · rw [if_neg hr] at hb
          exact h.payloads b hb
    | reclaim _ | enter _ _ | serve _ _ | leave _ _ _ => exact h.payloads
  · rw [hrx]
    exact h.placed

/-- What a turn of `process_avail_vring` leaves in the private buffer fits. -/
theorem packet_serve (h : Echoing S e) {a : UInt16} {fuel : Nat} {r : AvailTurn ServerContext}
    (hturn : availTurn e.world.space fuel e.world.server.table txIdx a e.world.mem =
      .ret (some r)) : PacketFits { e.world.setTable r.table with mem := r.mem } := by
  have hf := availTurn_availFrame hturn
  obtain ⟨_, d, -, -, hdesc, -, htable, -⟩ := availTurn_some hturn
  have hJ : HandlerKeeps SizeFits e.world.server.table.handlers :=
    h.packet.handlers ▸ handlerKeeps_server
  refine ⟨hf.handlers.trans h.packet.handlers, ?_⟩
  show SizeFits r.table.context
  rw [htable]
  exact processDesc_context hJ hdesc h.packet.size

/-- The `put_vring` of `poll_server`; the private buffer, which is emptied, is no part of either
ring. -/
theorem forward (h : Echoing S e) {r : Int} {t : VringTable ServerContext} {m : Mem} {b : Bool}
    (hput : putVring e.world.space e.world.server.table rxIdx e.world.context.packet
      e.world.mem = .ret (r, t, m)) :
    r = 0 ∧ Echoing S
      { e with
        world := { e.world.setTable
          { t with context := { t.context with bufferSize := 0 } } with mem := m }
        stage := .idle
        placed := if r = 0 then e.placed ++ [e.world.context.packet] else e.placed
        rxMustKick := b } := by
  have hf := putVring_putFrame hput
  rw [h.space] at hput
  have hstep := RingStep.put (E := S.rxEnv) (s := e.rxRing) hput
  have hbuf : ∀ buf, RingLabel.put e.world.context.packet = .put buf → Fits buf := by
    rintro buf ⟨⟩
    exact h.packet_fits
  obtain ⟨free, heads, hl⟩ := h.rx.ledger h.placed.allFit
  have hplaced := sentFit_step hbuf h.placed hstep
  have hhandlers := hf.handlers.trans h.packet.handlers
  have htranslate : ∀ a, VringTable.translate
      { t with context := { t.context with bufferSize := 0 } } a = t.translate a := fun a =>
    (translate_server (t := { t with context := { t.context with bufferSize := 0 } }) hhandlers
      a).trans (translate_server hhandlers a).symm
  refine ⟨hl.put_ret h.rx.wired h.packet_fits hput, h.unsent, h.queue, h.space, ?_, ?_,
    h.payloads, hplaced,
    ⟨hhandlers, show 0 + virtioNetHdrSize < ethPacketSize by decide⟩⟩
  · refine RingFrame.tracked ?_ (h.tx_of_rxStep hstep)
    exact ⟨rfl, fun _ => rfl, rfl, htranslate, rfl, rfl, rfl, rfl, fun _ _ => rfl, rfl, rfl, rfl,
      rfl, rfl⟩
  · refine RingFrame.tracked ?_ (tracked_step h.rx hstep)
    exact ⟨rfl, htranslate, rfl, fun _ => rfl, rfl, rfl, rfl, rfl, fun _ _ => rfl, rfl, rfl, rfl,
      rfl, rfl⟩

/-- A step of the client on the RX ring. -/
theorem rxStep (h : Echoing S e) {l : RingLabel} (hl : ∀ buf, l ≠ .put buf)
    {t : RingState ServerContext Unit} (hs : RingStep S.rxEnv e.rxRing l t)
    (hrx : f.rxRing = t) (hunsent : f.unsent = e.unsent) (hqueue : f.queue = e.queue)
    (hspace : f.world.space = e.world.space) (hserver : f.world.server = e.world.server)
    (htx : f.tx = { e.tx with prod := t.cons, cons := t.prod, mem := t.mem }) :
    Echoing S f := by
  have hsent : f.sent = e.sent := (congrArg RingState.sent htx).trans rfl
  refine ⟨hunsent.trans h.unsent, hqueue.trans h.queue, hspace.trans h.space,
    htx ▸ h.tx_of_rxStep hs, hrx ▸ tracked_step h.rx hs, hsent ▸ h.payloads, hrx ▸ ?_,
    h.packet.congr (by rw [hserver]) (by rw [World.context, hserver]; rfl)⟩
  exact sentFit_step (fun buf heq => absurd heq (hl buf)) h.placed hs

end Echoing

/-- **Every step keeps the invariant**, as long as the client puts only payloads. -/
theorem echoing_step (h : Echoing S e) (hl : ∀ buf, l = .loop (.put buf) → TxPayload buf)
    (hs : EchoStep S e l f) : Echoing S f := by
  cases hs with
  | @loop l t hclient hserver hs =>
      cases hs with
      | send hunsent _ =>
          rw [h.unsent] at hunsent
          cases hunsent
      | @put buf r t m hrun hput =>
          exact h.txStep (fun b heq => RingLabel.put.inj heq ▸ hl buf rfl)
            (.put hput) rfl rfl rfl rfl rfl (h.packet.congr rfl rfl)
      | reclaim hrun hcall =>
          exact h.txStep (l := .reclaim) nofun (.reclaim hcall) rfl rfl rfl rfl rfl
            (h.packet.congr rfl rfl)
      | receive _ _ hqueue _ =>
          rw [h.queue] at hqueue
          cases hqueue
      | kicked hvisit _ _ henter =>
          exact h.txStep (l := .enter) nofun (.enter hvisit.cursor henter) rfl rfl rfl rfl rfl
            h.packet
      | pollEnter _ hcur _ _ _ henter =>
          exact h.txStep (l := .enter) nofun (.enter hcur henter) rfl rfl rfl rfl rfl h.packet
      | serve hcur hturn =>
          have hpacket := h.packet_serve hturn
          rw [h.space] at hturn
          exact h.txStep (l := .serve) nofun (.serve hcur hturn) rfl rfl rfl rfl rfl hpacket
      | leave hcur hturn hidx =>
          rw [h.space] at hturn hidx
          exact h.txStep (l := .leave) nofun (.leave hcur hturn hidx) rfl rfl rfl rfl rfl
            (h.packet.congr rfl rfl)
      | forward _ _ _ hput => exact (h.forward hput).2
      | _ => exact h.congr rfl rfl rfl rfl rfl
  | rxKick _ => exact h.congr rfl rfl rfl rfl rfl
  | rxRead _ hidle _ henter =>
      exact h.rxStep (l := .enter) nofun (.enter hidle henter) rfl rfl rfl rfl rfl rfl
  | rxServe hcur hturn =>
      exact h.rxStep (l := .serve) nofun (.serve hcur hturn) rfl rfl rfl rfl rfl rfl
  | rxLeave hcur hturn hidx =>
      exact h.rxStep (l := .leave) nofun (.leave hcur hturn hidx) rfl rfl rfl rfl rfl rfl

/-! ### The relay it implements -/

/-- The packets handed to `avail_handler_client`. -/
def EchoState.echoed (e : EchoState) : List HandlerCall := e.rxOutcomes.filterMap id

/-- What a step overwrites in the private buffer: the packet that is consumed takes the place
of what is there. -/
def EchoState.overwritten (e : EchoState) : EchoLabel → List (List UInt8)
  | .loop .serve => e.buffered
  | _ => []

/-- The relay that a state stands for, up to the packets that were lost. -/
structure Relayed (e : EchoState) (y : Relay (List UInt8)) : Prop where
  sent : y.sent = e.sent
  up : y.up = e.sent.drop e.outcomes.length
  slot : y.slot.toList = e.buffered
  down : y.down = e.placed.drop e.rxOutcomes.length
  delivered : y.delivered = e.placed.take e.rxOutcomes.length

theorem Relayed.congr {e g : EchoState} {y : Relay (List UInt8)} (h : Relayed e y)
    (hsent : g.sent = e.sent) (houtcomes : g.outcomes = e.outcomes)
    (hbuffered : g.buffered = e.buffered) (hplaced : g.placed = e.placed)
    (hrx : g.rxOutcomes = e.rxOutcomes) : Relayed g y :=
  ⟨hsent ▸ h.sent, hsent ▸ houtcomes ▸ h.up, hbuffered ▸ h.slot, hplaced ▸ hrx ▸ h.down,
    hplaced ▸ hrx ▸ h.delivered⟩

/-- A packet that is put is sent. -/
theorem Relayed.put {e g : EchoState} {y : Relay (List UInt8)} (h : Relayed e y)
    (hle : e.outcomes.length ≤ e.sent.length) {r : Int} {buf : List UInt8}
    (hsent : g.sent = if r = 0 then e.sent ++ [buf] else e.sent)
    (houtcomes : g.outcomes = e.outcomes) (hbuffered : g.buffered = e.buffered)
    (hplaced : g.placed = e.placed) (hrx : g.rxOutcomes = e.rxOutcomes) :
    ∃ ms z, Transition.Run Relay.Step y ms z ∧ Relayed g z ∧ z.lost = y.lost := by
  by_cases hr : r = 0
  · rw [if_pos hr] at hsent
    refine ⟨_, _, .one (.send y buf), ⟨?_, ?_, hbuffered ▸ h.slot, hplaced ▸ hrx ▸ h.down,
      hplaced ▸ hrx ▸ h.delivered⟩, rfl⟩
    · exact hsent ▸ congrArg (· ++ [buf]) h.sent
    · show y.up ++ [buf] = g.sent.drop g.outcomes.length
      rw [hsent, houtcomes, h.up, List.drop_append_of_le_length hle]
  · rw [if_neg hr] at hsent
    exact ⟨[], y, .nil, h.congr hsent houtcomes hbuffered hplaced hrx, rfl⟩

/-- What the relay has kept is what is on the way and what came back. -/
theorem Relayed.kept {e : EchoState} {y : Relay (List UInt8)} (h : Relayed e y) :
    y.kept = e.placed ++ (e.buffered ++ e.sent.drop e.outcomes.length) := by
  rw [Relay.kept, h.slot, h.up, h.down, h.delivered, ← List.append_assoc, List.take_append_drop]

/-- The producer is no more than one ring ahead of what it has reclaimed. -/
theorem Tracked.sent_le {κ μ : Type} {E : RingEnv} {s : RingState κ μ} (h : Tracked E s)
    (hsent : SentFit s) : s.sent.length ≤ s.seen + vhostVringSize := by
  obtain ⟨free, heads, hl⟩ := h.ledger hsent.allFit
  have hlen := hl.length
  omega

/-- Where `process_avail_vring` finds nothing more, everything has been consumed. -/
theorem Tracked.all_consumed {κ μ : Type} {E : RingEnv} {s : RingState κ μ} (h : Tracked E s)
    (hsent : SentFit s) {a : UInt16} {fuel : Nat}
    (hturn : availTurn E.consSpace fuel s.cons E.vIdx a s.mem = .ret none) :
    s.outcomes.length = s.sent.length := by
  obtain ⟨A, hA, hlast⟩ := availTurn_none hturn
  cases h.wired.consAvail.symm.trans hA
  have hc := h.counters
  have heq : Counter16.of s.outcomes.length = Counter16.of s.sent.length :=
    hc.lastAvail.symm.trans (hlast.trans hc.availIdx)
  have hseen := Nat.le_trans hc.seenLe hc.publishedLe
  have hroom := h.sent_le hsent
  rw [vhostVringSize_eq] at hroom
  exact (Counter16.of_eq_of_iff hc.consumedLe (by omega)).mp heq

/-- What a consumer was handed are the first packets put. -/
theorem Tracked.delivered_eq {κ μ : Type} {E : RingEnv} {s : RingState κ μ} (h : Tracked E s)
    (hsent : SentFit s) : s.delivered = (s.sent.take s.outcomes.length).map callOf := by
  obtain ⟨free, heads, hl⟩ := h.ledger hsent.allFit
  have hle := h.counters.consumedLe
  have hall : s.outcomes = (s.sent.take s.outcomes.length).map fun buf => some (callOf buf) := by
    refine List.ext_getElem? fun k => ?_
    rw [List.getElem?_map, List.getElem?_take]
    by_cases hk : k < s.outcomes.length
    · have hbuf := List.getElem?_eq_getElem (Nat.lt_of_lt_of_le hk hle)
      have ho := List.getElem?_eq_getElem hk
      rw [if_pos hk, hbuf, ho, hl.handed k _ _ hbuf ho]
      rfl
    · rw [if_neg hk, List.getElem?_eq_none (Nat.not_lt.mp hk)]
      rfl
  rw [RingState.delivered]
  conv_lhs => rw [hall]
  rw [List.filterMap_map]
  exact congrFun List.filterMap_eq_map _

namespace Echoing

/-- **A packet that is consumed takes the place of what is in the buffer.** -/
theorem served (h : Echoing S e) {a : UInt16} {fuel : Nat} {r : AvailTurn ServerContext}
    (hcur : e.cursor = some a)
    (hturn : availTurn e.world.space fuel e.world.server.table txIdx a e.world.mem =
      .ret (some r)) :
    ∃ buf, e.sent.drop e.outcomes.length = buf :: e.sent.drop (e.outcomes.length + 1) ∧
      r.table.context.bufferSize ≠ 0 ∧ r.table.context.packet = buf := by
  rw [h.space] at hturn
  have hstep := RingStep.serve (E := S.txEnv) (s := e.tx) hcur hturn
  have hlt : e.outcomes.length < e.sent.length := by
    have : (e.outcomes ++ [r.call]).length ≤ e.sent.length :=
      (tracked_step h.tx hstep).counters.consumedLe
    rwa [List.length_append, List.length_singleton] at this
  have hpayload := h.payloads _ (List.getElem_mem hlt)
  obtain ⟨free, heads, hl⟩ := h.tx.ledger h.sentFit.allFit
  have hcall := (hl.serve_fits h.tx.wired h.tx.counters hcur (List.getElem?_eq_getElem hlt)
    hpayload.2 hturn).1
  have hcontext : r.table.context =
      availHandlerServer.consume e.world.context (callOf e.sent[e.outcomes.length]) :=
    availTurn_context hturn (by rw [h.packet.handlers]; rfl) hcall
  obtain ⟨hsize, hpacket⟩ := packet_consume e.world.context hpayload.lt
  rw [← hcontext] at hsize hpacket
  refine ⟨_, List.drop_eq_getElem_cons hlt, fun hzero => ?_, hpacket⟩
  rw [hzero] at hsize
  exact hpayload.1 (List.length_eq_zero_iff.mp hsize.symm)

end Echoing

/-- **Each step is at most one of the relay**, which loses what the step overwrites. -/
theorem relayed_step (h : Echoing S e) {y : Relay (List UInt8)} (hy : Relayed e y)
    (hs : EchoStep S e l f) :
    ∃ ms z, Transition.Run Relay.Step y ms z ∧ Relayed f z ∧
      z.lost = y.lost ++ e.overwritten l := by
  -- most steps leave the relay as it is
  have hsame : ∀ {g : EchoState}, g.sent = e.sent → g.outcomes = e.outcomes →
      g.world.context = e.world.context → g.placed = e.placed →
      g.rxOutcomes = e.rxOutcomes →
      ∃ ms z, Transition.Run Relay.Step y ms z ∧ Relayed g z ∧ z.lost = y.lost ++ [] := by
    intro g hsent houtcomes hcontext hplaced hrx
    refine ⟨[], y, .nil, hy.congr hsent houtcomes ?_ hplaced hrx, (List.append_nil _).symm⟩
    rw [LoopState.buffered, LoopState.buffered, hcontext]
  cases hs with
  | @loop l t hclient hserver hs =>
      cases hs with
      | put _ _ =>
          rw [show e.overwritten (.loop (.put _)) = [] from rfl, List.append_nil]
          exact hy.put h.tx.counters.consumedLe rfl rfl rfl rfl rfl
      | @serve a fuel r hcur hturn =>
          obtain ⟨buf, hdrop, hsize, hpacket⟩ := h.served hcur hturn
          refine ⟨_, _, .one (.take y buf _ (hy.up.trans hdrop)), ⟨hy.sent, ?_, ?_, hy.down,
            hy.delivered⟩, congrArg (y.lost ++ ·) hy.slot⟩
          · show _ = e.sent.drop (e.outcomes ++ [r.call]).length
            rw [List.length_append, List.length_singleton]
          · show [buf] = if r.table.context.bufferSize = 0 then [] else [r.table.context.packet]
            rw [if_neg hsize, hpacket]
      | @forward r t m _ _ hfull hput =>
          obtain rfl := (h.forward (b := true) hput).1
          have hbuffered : e.buffered = [e.world.context.packet] := if_neg hfull
          have hslot : y.slot = some e.world.context.packet := by
            cases hslot : y.slot with
            | none =>
                have hlist := hy.slot.trans hbuffered
                rw [hslot] at hlist
                cases hlist
            | some p =>
                have hlist := hy.slot.trans hbuffered
                rw [hslot] at hlist
                exact congrArg some (List.cons.inj hlist).1
          have hle : e.rxOutcomes.length ≤ e.placed.length := h.rx.counters.consumedLe
          refine ⟨_, _, .one (.forward y _ hslot), ⟨hy.sent, hy.up, rfl, ?_, ?_⟩,
            (List.append_nil _).symm⟩
          · show y.down ++ _ = (e.placed ++ _).drop e.rxOutcomes.length
            rw [hy.down, List.drop_append_of_le_length hle]
          · show y.delivered = (e.placed ++ _).take e.rxOutcomes.length
            rw [hy.delivered, List.take_append_of_le_length hle]
      | receive _ _ hqueue _ =>
          rw [h.queue] at hqueue
          cases hqueue
      | _ => exact hsame rfl rfl rfl rfl rfl
  | rxKick _ => exact hsame rfl rfl rfl rfl rfl
  | rxRead _ _ _ _ => exact hsame rfl rfl rfl rfl rfl
  | @rxServe a fuel r hcur hturn =>
      have hstep := RingStep.serve (E := S.rxEnv) (s := e.rxRing) hcur hturn
      have hlt : e.rxOutcomes.length < e.placed.length := by
        have : (e.rxOutcomes ++ [r.call]).length ≤ e.placed.length :=
          (tracked_step h.rx hstep).counters.consumedLe
        rwa [List.length_append, List.length_singleton] at this
      have hdrop := List.drop_eq_getElem_cons hlt
      refine ⟨_, _, .one (.deliver y _ _ (hy.down.trans hdrop)), ⟨hy.sent, hy.up, hy.slot, ?_, ?_⟩,
        (List.append_nil _).symm⟩
      · show _ = e.placed.drop (e.rxOutcomes ++ [r.call]).length
        rw [List.length_append, List.length_singleton]
      · show y.delivered ++ _ = e.placed.take (e.rxOutcomes ++ [r.call]).length
        rw [hy.delivered, List.length_append, List.length_singleton,
          List.take_append_getElem hlt]
  | rxLeave _ _ _ => exact hsame rfl rfl rfl rfl rfl

end Keep

/-! ### Runs -/

/-- A step in which the client puts nothing but payloads. -/
structure PayloadStep (S : Session) (e : EchoState) (l : EchoLabel) (f : EchoState) : Prop where
  step : EchoStep S e l f
  payload : ∀ buf, l = .loop (.put buf) → TxPayload buf

/-- A step in which the client puts nothing. -/
structure QuietStep (S : Session) (e : EchoState) (l : EchoLabel) (f : EchoState) : Prop where
  step : EchoStep S e l f
  quiet : ∀ buf, l ≠ .loop (.put buf)

section Runs
variable {S : Session} {e f : EchoState} {l : EchoLabel} {ls : List EchoLabel}

theorem QuietStep.payload (h : QuietStep S e l f) : PayloadStep S e l f :=
  ⟨h.step, fun buf heq => absurd heq (h.quiet buf)⟩

theorem run_of_quiet (h : Transition.Run (QuietStep S) e ls f) :
    Transition.Run (PayloadStep S) e ls f := h.mono fun _ _ _ => QuietStep.payload

theorem Echoing.run (h : Echoing S e) (hrun : Transition.Run (PayloadStep S) e ls f) :
    Echoing S f :=
  Transition.Run.preserves (fun _ _ _ hs hstep => echoing_step hs hstep.payload hstep.step) h hrun

theorem EchoConfigured.relayed (h : EchoConfigured S e) : Relayed e Relay.empty := by
  refine ⟨h.rings.sent.symm, ?_, ?_, ?_, ?_⟩
  · rw [h.rings.sent, List.drop_nil]
    rfl
  · exact ((e.buffered_eq_nil_iff).mpr h.rings.empty).symm
  · rw [h.rings.placed, List.drop_nil]
    rfl
  · rw [h.rings.placed, List.take_nil]
    rfl

/-- A run, and what it overwrites in the private buffer. -/
abbrev Overwrites (S : Session) (e : EchoState) (ls : List EchoLabel) (f : EchoState)
    (lost : List (List UInt8)) : Prop :=
  Transition.Run (Transition.Noting (PayloadStep S) EchoState.overwritten) (e, []) ls (f, lost)

/-- **The two programs implement the relay**, and what they overwrite is what it loses. -/
theorem EchoConfigured.refines (h : EchoConfigured S e) {lost : List (List UInt8)}
    (hrun : Overwrites S e ls f lost) :
    ∃ ms y, Transition.Run Relay.Step Relay.empty ms y ∧ Relayed f y ∧ y.lost = lost := by
  obtain ⟨ms, y, hy, -, hrel⟩ := Transition.Run.simulate_rel
    (R := fun (x : EchoState × List (List UInt8)) y =>
      Echoing S x.1 ∧ Relayed x.1 y ∧ y.lost = x.2) (fun s l t y hx hs => by
      obtain ⟨hecho, hrel, hlost⟩ := hx
      obtain ⟨hs, hnote⟩ := hs
      obtain ⟨ms, z, hz, hrel', hlost'⟩ := relayed_step hecho hrel hs.step
      exact ⟨ms, z, hz, echoing_step hecho hs.payload hs.step, hrel',
        hlost'.trans (by rw [hlost, hnote])⟩)
    ⟨h.echoing, h.relayed, rfl⟩ hrun
  exact ⟨ms, y, hy, hrel⟩

end Runs

end Vapp
