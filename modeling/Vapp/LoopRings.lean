import Vapp.LoopSystem
import Vapp.RingChannel
import Vapp.ServerPackets

/-! # Both rings of the loop

The TX ring and the RX ring lie in shared objects of their own, and the two programs keep
them in tables with a member for each.  A step that uses one of the rings leaves the other
alone, so that the invariant of `RingRuns` holds of both in every state that the loop reaches
once it has been set up.
-/
namespace Vapp

/-! ### A step of one ring, seen from the other -/

section Frames
variable {κ μ : Type} {E : RingEnv} {s : RingState κ μ} {buf : List UInt8} {r : Int}
  {t : VringTable κ} {m : Mem}

/-- `put_vring` writes no packet bytes but those of its own shared object. -/
theorem Tracked.putVring_byte (h : Tracked E s) (hfit : AllFit s)
    (hput : putVring E.prodSpace s.prod E.vIdx buf s.mem = .ret (r, t, m)) {l : Loc}
    (hl : l.shm ≠ E.shm) : m.byte l = s.mem.byte l := by
  rcases putVring_ret hput with ⟨-, -, rfl⟩ | ⟨rfl, -⟩
  · rfl
  · obtain ⟨free, heads, hledger⟩ := h.ledger hfit
    obtain ⟨free', rfl, -⟩ := hledger.put h.wired h.counters hput
    obtain ⟨-, -, rfl⟩ := putVring_wired h.wired (hledger.fresh _ (List.mem_cons_self ..)) hput
    exact Mem.setBytes_byte_of_outside _ _ _ _ (.inl hl)

theorem translate_of_eq {t t' : VringTable κ} (hhandlers : t'.handlers = t.handlers)
    (hcontext : t'.context = t.context) (a : UInt64) : t'.translate a = t.translate a := by
  rw [VringTable.translate, VringTable.translate, hhandlers, hcontext]

/-- The two rings of a session lie in different objects. -/
theorem Session.shm_ne (S : Session) : S.txEnv.shm ≠ S.rxEnv.shm :=
  show (txIdx : Nat) ≠ rxIdx by decide

theorem loc_ne {a b : Nat} (h : a ≠ b) (off off' : Nat) :
    some (⟨a, off⟩ : Loc) ≠ some ⟨b, off'⟩ := fun heq =>
  h (congrArg Loc.shm (Option.some.inj heq))

end Frames

/-! ### The invariant -/

/-- Both rings are configured and have not been used yet; the server is between two passes,
in kick mode or in polling mode. -/
structure RingsConfigured (S : Session) (s : LoopState) : Prop where
  client : s.client = S.clientTable
  opened : ∃ sock m w, S.Opened sock m w ∧ s.world.space = w.space ∧ s.world.mem = w.mem ∧
    s.world.server.table = w.server.table
  stage : s.stage = .idle
  cursor : s.cursor = none
  unsent : s.unsent = []
  queue : s.queue = []
  sent : s.sent = []
  outcomes : s.outcomes = []
  published : s.published = 0
  seen : s.seen = 0
  placed : s.placed = []

/-- A packet of at least one byte that leaves a byte of the local buffer of `_process_desc`
free. -/
def TxPayload (buf : List UInt8) : Prop := buf ≠ [] ∧ Fits buf

instance (buf : List UInt8) : Decidable (TxPayload buf) := inferInstanceAs (Decidable (_ ∧ _))

/-- The invariant of the loop once it has been set up. -/
structure Relaying (S : Session) (s : LoopState) : Prop where
  unsent : s.unsent = []
  queue : s.queue = []
  space : s.world.space = regionSpace S.serverBase
  tx : Tracked S.txEnv s.tx
  rx : Tracked S.rxEnv s.rx
  payloads : ∀ buf ∈ s.sent, TxPayload buf
  placed : SentFit s.rx
  packet : PacketFits s.world

section Keep
variable {S : Session} {s t : LoopState} {l : LoopLabel}

theorem RingsConfigured.relaying (h : RingsConfigured S s) : Relaying S s := by
  obtain ⟨sock, m, w, hw, hspace, hmem, htable⟩ := h.opened
  obtain ⟨hspace', -, htable'⟩ := hw.eqs
  have htx : s.tx = S.txState w := by
    simp only [LoopState.tx, Session.txState, h.client, htable, hmem, h.cursor, h.sent,
      h.outcomes, h.published, h.seen]
  have hrx : s.rx = S.rxState w := by
    simp only [LoopState.rx, Session.rxState, h.client, htable, hmem, h.placed]
  refine ⟨h.unsent, h.queue, hspace.trans hspace', ?_, ?_, ?_, ?_, ?_, ?_⟩
  · rw [htx]
    exact (S.tx_start hw).tracked
  · rw [hrx]
    exact (S.rx_start hw).tracked
  · rw [h.sent]
    exact nofun
  · rw [hrx]
    exact nofun
  · rw [htable, htable']
    rfl
  · rw [World.context, htable, htable']
    exact show 0 + virtioNetHdrSize < ethPacketSize by decide

namespace Relaying

theorem sentFit (h : Relaying S s) : SentFit s.tx := fun buf hbuf => (h.payloads buf hbuf).2

theorem rx_allFit (s : LoopState) : AllFit s.rx := fun _ _ hk _ => absurd hk (Nat.not_lt_zero _)

/-- **What was placed is what the avail slots of the RX ring hold.** -/
theorem rx_held (h : Relaying S s) : s.rx.held S.rxEnv = s.placed.map .ret :=
  held_eq h.rx h.placed

/-- What is in the private buffer fits. -/
theorem packet_fits (h : Relaying S s) : Fits s.world.context.packet := by
  rw [Fits, ServerContext.packet, List.length_map, List.length_range]
  exact h.packet.size

/-- A step that leaves both rings and the messages alone. -/
theorem congr (h : Relaying S s) (hunsent : t.unsent = s.unsent) (hqueue : t.queue = s.queue)
    (hspace : t.world.space = s.world.space) (htx : t.tx = s.tx) (hrx : t.rx = s.rx) :
    Relaying S t := by
  have htable : t.world.server.table = s.world.server.table := congrArg RingState.cons htx
  have hsent : t.sent = s.sent := congrArg RingState.sent htx
  refine ⟨hunsent.trans h.unsent, hqueue.trans h.queue, hspace.trans h.space, htx ▸ h.tx,
    hrx ▸ h.rx, hsent ▸ h.payloads, hrx ▸ h.placed, h.packet.congr (by rw [htable]) ?_⟩
  rw [World.context, htable]
  rfl

/-- The `put_vring` of the client leaves the RX ring alone. -/
theorem put (h : Relaying S s) {buf : List UInt8} {r : Int} {t : VringTable Unit} {m : Mem}
    (hbuf : TxPayload buf)
    (hput : putVring (regionSpace S.clientBase) s.client txIdx buf s.world.mem = .ret (r, t, m)) :
    Relaying S
      { s with
        client := t
        world := { s.world with mem := m }
        sent := if r = 0 then s.sent ++ [buf] else s.sent
        mustKick := r = 0 } := by
  have hf := putVring_putFrame hput
  have htx := h.tx.wired
  refine ⟨h.unsent, h.queue, h.space, tracked_step h.tx (.put hput), ?_, ?_, h.placed,
    h.packet.congr rfl rfl⟩
  · refine RingFrame.tracked ?_ h.rx
    exact
      { prod := rfl
        prodTranslate := fun _ => rfl
        cons := hf.other rxIdx (by decide)
        consTranslate := translate_of_eq hf.handlers hf.context
        handlers := hf.handlers
        desc := hf.desc _ (htx.prodDesc.trans_ne (loc_ne S.shm_ne _ _))
        avail := hf.avail _ (htx.prodAvail.trans_ne (loc_ne S.shm_ne _ _))
        used := congrFun hf.used _
        byte := fun l hl => h.tx.putVring_byte h.sentFit.allFit hput fun heq =>
          S.shm_ne (heq.symm.trans hl)
        cursor := rfl, sent := rfl, outcomes := rfl, published := rfl, seen := rfl }
  · intro b hb
    dsimp only at hb
    split at hb
    · rcases List.mem_append.mp hb with hb | hb
      · exact h.payloads b hb
      · rw [List.mem_singleton.mp hb]
        exact hbuf
    · exact h.payloads b hb

/-- So does its `process_used_vring`. -/
theorem reclaim (h : Relaying S s) {fuel : Nat} {u : UsedLoop Unit}
    (hcall : processUsedVring (regionSpace S.clientBase) fuel s.client txIdx s.world.mem = .ret u) :
    Relaying S
      { s with
        client := u.table
        world := { s.world with mem := u.mem }
        seen := s.published } := by
  have hf := processUsedVring_usedFrame hcall
  refine ⟨h.unsent, h.queue, h.space, tracked_step h.tx (.reclaim hcall), ?_, h.payloads,
    h.placed, h.packet.congr rfl rfl⟩
  refine RingFrame.tracked ?_ h.rx
  exact
    { prod := rfl
      prodTranslate := fun _ => rfl
      cons := hf.other rxIdx (by decide)
      consTranslate := translate_of_eq hf.handlers hf.context
      handlers := hf.handlers
      desc := hf.desc _ (h.tx.wired.prodDesc.trans_ne (loc_ne S.shm_ne _ _))
      avail := congrFun hf.avail _
      used := congrFun hf.used _
      byte := fun l _ => congrFun hf.byte l
      cursor := rfl, sent := rfl, outcomes := rfl, published := rfl, seen := rfl }

/-- A turn of `process_avail_vring` for the TX ring leaves the RX ring alone. -/
theorem serve (h : Relaying S s) {a : UInt16} {fuel : Nat} {r : AvailTurn ServerContext}
    (hcur : s.cursor = some a)
    (hturn : availTurn s.world.space fuel s.world.server.table txIdx a s.world.mem =
      .ret (some r)) :
    Relaying S
      { s with
        world := { s.world.setTable r.table with mem := r.mem }
        cursor := some r.aIdx
        outcomes := s.outcomes ++ [r.call] } := by
  have hf := availTurn_availFrame hturn
  rw [h.space] at hturn hf
  refine ⟨h.unsent, h.queue, h.space, tracked_step h.tx (.serve hcur hturn), ?_, h.payloads,
    h.placed, ?_⟩
  · refine RingFrame.tracked ?_ h.rx
    exact
      { prod := hf.other rxIdx (by decide)
        prodTranslate := hf.translate
        cons := rfl
        consTranslate := fun _ => rfl
        handlers := rfl
        desc := congrFun hf.desc _
        avail := congrFun hf.avail _
        used := hf.used _ (h.tx.wired.consUsed.trans_ne (loc_ne S.shm_ne _ _))
        byte := fun l _ => congrFun hf.byte l
        cursor := rfl, sent := rfl, outcomes := rfl, published := rfl, seen := rfl }
  · obtain ⟨_, d, -, -, hdesc, -, htable, -⟩ := availTurn_some hturn
    refine ⟨hf.handlers.trans h.packet.handlers, ?_⟩
    have hJ : HandlerKeeps SizeFits s.world.server.table.handlers :=
      h.packet.handlers ▸ handlerKeeps_server
    show SizeFits r.table.context
    rw [htable]
    exact processDesc_context hJ hdesc h.packet.size

/-- So does its end. -/
theorem leave (h : Relaying S s) {a : UInt16} {fuel : Nat} {m : Mem} (hcur : s.cursor = some a)
    (hturn : availTurn s.world.space fuel s.world.server.table txIdx a s.world.mem = .ret none)
    (hidx : availLeave s.world.space s.world.server.table txIdx s.world.mem = .ret m) :
    Relaying S
      { s with
        world := { s.world with mem := m }
        cursor := none
        published := s.outcomes.length } := by
  rw [h.space] at hturn hidx
  refine ⟨h.unsent, h.queue, h.space, tracked_step h.tx (.leave hcur hturn hidx), ?_, h.payloads,
    h.placed, h.packet.congr rfl rfl⟩
  obtain ⟨U, hU, hidx⟩ := Outcome.bind_eq_ret.mp hidx
  cases hidx
  refine RingFrame.tracked ?_ h.rx
  exact
    { prod := rfl
      prodTranslate := fun _ => rfl
      cons := rfl
      consTranslate := fun _ => rfl
      handlers := rfl
      desc := rfl
      avail := rfl
      used := by
        refine Function.update_of_ne ?_ _ _
        rintro rfl
        cases h.tx.wired.consUsed.symm.trans (deref_eq_ret.mp hU)
      byte := fun _ _ => rfl
      cursor := rfl, sent := rfl, outcomes := rfl, published := rfl, seen := rfl }

/-- The `put_vring` of the server leaves the TX ring alone, and the context is no part of
either ring. -/
theorem forward (h : Relaying S s) {r : Int} {t : VringTable ServerContext} {m : Mem}
    (hput : putVring s.world.space s.world.server.table rxIdx s.world.context.packet
      s.world.mem = .ret (r, t, m)) :
    Relaying S
      { s with
        world := { s.world.setTable
          { t with context := { t.context with bufferSize := 0 } } with mem := m }
        stage := .idle
        placed := if r = 0 then s.placed ++ [s.world.context.packet] else s.placed } := by
  have hf := putVring_putFrame hput
  rw [h.space] at hput hf
  have hstep := RingStep.put (E := S.rxEnv) (s := s.rx) hput
  have hbuf : ∀ buf, RingLabel.put s.world.context.packet = .put buf → Fits buf := by
    rintro buf ⟨⟩
    exact h.packet_fits
  have hplaced := sentFit_step hbuf h.placed hstep
  have hhandlers := hf.handlers.trans h.packet.handlers
  have htranslate : ∀ a, VringTable.translate
      { t with context := { t.context with bufferSize := 0 } } a = t.translate a := fun a =>
    (translate_server (t := { t with context := { t.context with bufferSize := 0 } }) hhandlers
      a).trans (translate_server hhandlers a).symm
  refine ⟨h.unsent, h.queue, h.space, ?_, ?_, h.payloads,
    hplaced,
    ⟨hhandlers, show 0 + virtioNetHdrSize < ethPacketSize by decide⟩⟩
  · refine RingFrame.tracked ?_ h.tx
    exact
      { prod := rfl
        prodTranslate := fun _ => rfl
        cons := hf.other txIdx (by decide)
        consTranslate := fun a => (htranslate a).trans (translate_of_eq hf.handlers hf.context a)
        handlers := hf.handlers
        desc := hf.desc _ (h.rx.wired.prodDesc.trans_ne (loc_ne S.shm_ne.symm _ _))
        avail := hf.avail _ (h.rx.wired.prodAvail.trans_ne (loc_ne S.shm_ne.symm _ _))
        used := congrFun hf.used _
        byte := fun l hl => h.rx.putVring_byte (rx_allFit s) hput fun heq =>
          S.shm_ne (hl.symm.trans heq)
        cursor := rfl, sent := rfl, outcomes := rfl, published := rfl, seen := rfl }
  · refine RingFrame.tracked ?_ (tracked_step h.rx hstep)
    exact
      { prod := rfl
        prodTranslate := htranslate
        cons := rfl
        consTranslate := fun _ => rfl
        handlers := rfl
        desc := rfl
        avail := rfl
        used := rfl
        byte := fun _ _ => rfl
        cursor := rfl, sent := rfl, outcomes := rfl, published := rfl, seen := rfl }

end Relaying

/-- **Every step keeps it**, as long as only payloads are put. -/
theorem relaying_step (h : Relaying S s) (hl : ∀ buf, l = .put buf → TxPayload buf)
    (hs : LoopStep S s l t) : Relaying S t := by
  cases hs with
  | send hunsent _ =>
      rw [h.unsent] at hunsent
      cases hunsent
  | put hrun hput => exact h.put (hl _ rfl) hput
  | kick _ => exact h.congr rfl rfl rfl rfl rfl
  | reclaim hrun hcall => exact h.reclaim hcall
  | select _ => exact h.congr rfl rfl rfl rfl rfl
  | skip _ _ _ _ => exact h.congr rfl rfl rfl rfl rfl
  | accept _ => exact h.congr rfl rfl rfl rfl rfl
  | receive _ _ hqueue _ =>
      rw [h.queue] at hqueue
      cases hqueue
  | unkicked _ _ => exact h.congr rfl rfl rfl rfl rfl
  | dropped _ _ _ => exact h.congr rfl rfl rfl rfl rfl
  | kicked hvisit _ _ henter =>
      exact ⟨h.unsent, h.queue, h.space, tracked_step h.tx (.enter hvisit.cursor henter), h.rx,
        h.payloads, h.placed, h.packet⟩
  | serve hcur hturn => exact h.serve hcur hturn
  | leave hcur hturn hidx => exact h.leave hcur hturn hidx
  | endSlots _ _ => exact h.congr rfl rfl rfl rfl rfl
  | pollUnset _ _ _ => exact h.congr rfl rfl rfl rfl rfl
  | pollQuiet _ _ _ _ => exact h.congr rfl rfl rfl rfl rfl
  | pollEnter _ hcur _ _ _ henter =>
      exact ⟨h.unsent, h.queue, h.space, tracked_step h.tx (.enter hcur henter), h.rx,
        h.payloads, h.placed, h.packet⟩
  | forwardNone _ _ _ => exact h.congr rfl rfl rfl rfl rfl
  | forward _ _ _ hput => exact h.forward hput

end Keep

end Vapp
