import Vapp.RingLedger
import Vapp.ServerSteps
import Vapp.Session

/-! # The packets that the server forwards

The private buffer of the server holds a packet that `_process_desc` has copied, without
its header.  `_process_desc` leaves a byte of its own buffer free, so what `poll_server`
passes to `put_vring` is a packet that fits.
-/
namespace Vapp

variable {κ : Type} {sp : AddrSpace} {t : VringTable κ} {i : RingIdx} {m : Mem} {fuel : Nat}

/-! ### What a handler is called with -/

/-- The copy loop never fills the local buffer. -/
theorem copyLoop_short {desc : UInt64} {s c : CopyLoop} (hs : s.len.toNat < ethPacketSize)
    (h : Outcome.loop (copyTurn sp t desc m) fuel s = .ret c) : c.len.toNat < ethPacketSize := by
  have hturn : ∀ {s : CopyLoop} {x : CopyLoop ⊕ CopyLoop}, s.len.toNat < ethPacketSize →
      copyTurn sp t desc m s = .ret x → (x.elim id id).len.toNat < ethPacketSize := by
    intro s x hs h
    obtain ⟨d, _, h⟩ := Outcome.bind_eq_ret.mp h
    split at h
    · rename_i hlt
      have hlen : (s.len + d.len).toNat < ethPacketSize := UInt32.lt_iff_toNat_lt.mp hlt
      obtain ⟨_, _, h⟩ := Outcome.bind_eq_ret.mp h
      obtain ⟨bytes, _, h⟩ := Outcome.bind_eq_ret.mp h
      split at h
      · cases h
        exact hlen
      · cases h
        exact hlen
    · cases h
      exact hs
  refine Outcome.loop_invariant (I := fun s : CopyLoop => s.len.toNat < ethPacketSize)
    (Q := fun c => c.len.toNat < ethPacketSize) ?_ ?_ hs h
  · exact fun s s' hs hb => hturn hs hb
  · exact fun s c hs hb => hturn hs hb

/-- What `avail_handler` is told to do keeps a property of the context. -/
def HandlerKeeps (J : κ → Prop) (h : ProcessHandler κ) : Prop :=
  ∀ hd ∈ h.availHandler, ∀ ctx (c : CopyLoop), J ctx → c.len.toNat < ethPacketSize →
    hd.accepts (packetCall c) → J (hd.consume ctx (packetCall c))

theorem processDesc_context {J : κ → Prop} (hJ : HandlerKeeps J t.handlers) {a : UInt16}
    {r : DescResult κ} (h : processDesc sp fuel t i a m = .ret r) (ht : J t.context) :
    J r.table.context := by
  obtain ⟨_, c, hcopy, ⟨_, rfl⟩ | ⟨_, m', _, h⟩⟩ := processDesc_cases h
  · exact ht
  · unfold consumePacket at h
    split at h
    · cases h
      exact ht
    · rename_i hd hhd
      obtain ⟨_, hacc, h⟩ := Outcome.bind_eq_ret.mp h
      cases h
      refine hJ hd hhd t.context c ht (copyLoop_short ?_ hcopy) (Outcome.require_eq_ret.mp hacc)
      show 0 < ethPacketSize
      decide

/-- **A property of the context that the handler keeps** is kept by `process_avail_vring`. -/
theorem processAvailVring_context {J : κ → Prop} (hJ : HandlerKeeps J t.handlers)
    {c : AvailLoop κ} (h : processAvailVring sp fuel t i m = .ret c) (ht : J t.context) :
    c.table.handlers = t.handlers ∧ J c.table.context := by
  obtain ⟨s, m', hs, _, _, rfl⟩ := processAvailVring_rule
    (I := fun s => s.table.handlers = t.handlers ∧ J s.table.context) (fun _ _ => ⟨rfl, ht⟩)
    (fun s r ⟨hhd, hs⟩ hturn => by
      obtain ⟨_, d, _, _, hdesc, hf, htable, _⟩ := availTurn_some hturn
      have hkeep := processDesc_context (hhd ▸ hJ) hdesc hs
      show r.table.handlers = _ ∧ J r.table.context
      rw [htable]
      exact ⟨hf.handlers.trans hhd, hkeep⟩) h
  exact hs

/-! ### The private buffer -/

/-- A packet of this size fits behind a header. -/
def SizeFits (c : ServerContext) : Prop := c.bufferSize.toNat + virtioNetHdrSize < ethPacketSize

/-- `avail_handler_server` is never told to copy more than what was in the local buffer. -/
theorem handlerKeeps_server : HandlerKeeps SizeFits serverHandlers := by
  rintro hd hhd ctx c _ hshort hacc
  cases hhd
  have hE : ethPacketSize = 1518 := rfl
  have hH : virtioNetHdrSize = 10 := rfl
  have hsize : (c.len.toUInt64 - .ofNat virtioNetHdrSize).toNat ≤ bufferSize :=
    of_decide_eq_true hacc
  have hB : bufferSize = 1528 := rfl
  show (c.len.toUInt64 - .ofNat virtioNetHdrSize).toUInt32.toNat + virtioNetHdrSize < _
  rw [UInt64.toNat_sub, UInt32.toNat_toUInt64, hH] at hsize
  rw [UInt64.toNat_toUInt32, UInt64.toNat_sub, UInt32.toNat_toUInt64, hH]
  have h10 : (UInt64.ofNat 10).toNat = 10 := rfl
  rw [h10] at hsize ⊢
  omega

/-- The server has its own callbacks, and its private buffer a packet that fits. -/
structure PacketFits (w : World) : Prop where
  handlers : w.server.table.handlers = serverHandlers
  size : SizeFits w.context

/-- The callbacks and the private buffer belong to no message. -/
theorem inMsgServer_packet {maps : Nat → Option MapResult} {w w' : World} {msg msg' : ServerMsg}
    {r : Int} (hout : (inMsgServer maps w msg).out = .ret (r, msg', w')) :
    w'.server.table.handlers = w.server.table.handlers ∧
      (w'.context.buffer, w'.context.bufferSize) = (w.context.buffer, w.context.bufferSize) := by
  obtain ⟨req, -, -, hout⟩ := inMsgServer_cases hout
  cases msgHandler_cases hout with
  | table hloop =>
      obtain ⟨_, _, rfl⟩ := setMemTableLoop_frame _ hloop
      exact ⟨rfl, rfl⟩
  | num _ | addr _ _ | base _ => exact ⟨rfl, rfl⟩
  | @kick i validfd _ _ =>
      rw [World.context, setKick_table]
      cases validfd with
      | false => exact ⟨rfl, rfl⟩
      | true => exact ⟨rfl, rfl⟩
  | @call i validfd _ _ =>
      cases validfd with
      | false => exact ⟨rfl, rfl⟩
      | true => exact ⟨rfl, rfl⟩
  | answered _ | ignored _ => exact ⟨rfl, rfl⟩

namespace PacketFits
variable {w w' : World}

/-- A change that leaves the callbacks and the private buffer alone. -/
theorem congr (h : PacketFits w) (hhd : w'.server.table.handlers = w.server.table.handlers)
    (hsize : w'.context.bufferSize = w.context.bufferSize) : PacketFits w' := by
  refine ⟨hhd.trans h.handlers, ?_⟩
  rw [SizeFits, hsize]
  exact h.size

theorem pollAvailVring {i : RingIdx} (h : PacketFits w)
    (hout : (pollAvailVring fuel w i).out = .ret w') : PacketFits w' := by
  rcases pollAvailVring_cases hout with ⟨_, s, hs, rfl⟩ | ⟨_, rfl⟩
  · have hJ : HandlerKeeps SizeFits w.server.table.handlers := h.handlers ▸ handlerKeeps_server
    obtain ⟨hhd, hsize⟩ := processAvailVring_context hJ hs h.size
    exact ⟨hhd.trans h.handlers, hsize⟩
  · exact h

theorem pollTx (h : PacketFits w) (hout : (pollTx fuel w).out = .ret w') : PacketFits w' := by
  rcases pollTx_cases hout with ⟨_, hout⟩ | ⟨_, rfl⟩
  · exact h.pollAvailVring hout
  · exact h

theorem pollRx (h : PacketFits w) (hout : (pollRx w).out = .ret w') : PacketFits w' := by
  rcases pollRx_cases hout with ⟨_, r, t, m, hput, rfl⟩ | ⟨_, rfl⟩
  · refine ⟨?_, show 0 + virtioNetHdrSize < ethPacketSize by decide⟩
    rcases putVring_ret hput with ⟨_, ht, _⟩ | ⟨_, D, A, _, _, _, _, ht, _⟩
    · show t.handlers = _
      rw [ht]
      exact h.handlers
    · show t.handlers = _
      rw [ht]
      exact h.handlers
  · exact h

/-- No message changes the callbacks or the private buffer. -/
theorem inMsgServer {maps : Nat → Option MapResult} {msg msg' : ServerMsg} {r : Int}
    (h : PacketFits w) (hout : (inMsgServer maps w msg).out = .ret (r, msg', w')) :
    PacketFits w' := by
  obtain ⟨hhandlers, hpacket⟩ := inMsgServer_packet hout
  exact h.congr hhandlers (congrArg Prod.snd hpacket)

/-- No event lets the private buffer hold more than fits. -/
theorem exec {e : Event} (h : PacketFits w) (hout : (exec fuel w e).out = .ret w') :
    PacketFits w' := by
  cases exec_cases hout with
  | accept _ => exact h.congr rfl rfl
  | message _ hmsg => exact h.inMsgServer hmsg
  | hangup _ => exact h.congr rfl rfl
  | kick _ hkick =>
      rcases kickServer_cases hkick with ⟨_, rfl⟩ | ⟨_, rfl⟩ | ⟨_, hpoll⟩
      · exact h
      · exact h.congr rfl rfl
      · exact h.pollAvailVring hpoll
  | poll hpoll =>
      rcases pollServer_cases hpoll with ⟨_, w1, h1, h2⟩ | ⟨_, rfl⟩
      · exact (h.pollTx h1).pollRx h2
      · exact h
  | peer => exact h.congr rfl rfl
  | notListening _ | unreadMessage _ | unreadHangup _ | unreadKick _ => exact h

end PacketFits

/-! ### What is sent on the RX ring -/

/-- The packet that `poll_server` passes to `put_vring` for the RX ring after some events,
if it gets there. -/
def sentAfter (fuel : Nat) (w : World) (es : List Event) : Option (List UInt8) :=
  match (execAll fuel w es).out with
  | .ret w =>
      if (w.vring rxIdx).desc ≠ 0 then
        match (pollTx fuel w).out with
        | .ret w => if w.context.bufferSize ≠ 0 then some w.context.packet else none
        | _ => none
      else
        none
  | _ => none

/-- A packet that some server process sends on the RX ring. -/
def Sendable (buf : List UInt8) : Prop :=
  ∃ (fuel : Nat) (sock : Int) (isListen : Bool) (space : AddrSpace) (mem : Mem)
    (es : List Event), sentAfter fuel ⟨newVhostServer sock isListen, space, mem⟩ es = some buf

/-- **What the server sends fits.** -/
theorem Sendable.fits {buf : List UInt8} (h : Sendable buf) : Fits buf := by
  obtain ⟨fuel, sock, isListen, space, mem, es, h⟩ := h
  have hstart : PacketFits ⟨newVhostServer sock isListen, space, mem⟩ :=
    ⟨rfl, show 0 + virtioNetHdrSize < ethPacketSize by decide⟩
  unfold sentAfter at h
  split at h
  · rename_i w hrun
    have hw := Traced.runAll_invariant (fun _ _ _ h hout => PacketFits.exec h hout) es hstart hrun
    split at h
    · split at h
      · rename_i w' hpoll
        have hsize := (hw.pollTx hpoll).size
        split at h
        · cases h
          rw [Fits, ServerContext.packet, List.length_map, List.length_range]
          exact hsize
        · cases h
      · cases h
    · cases h
  · cases h

/-- Both rings are set up, and the client has put a packet of one byte. -/
def oneByteEvents (S : Session) : List Event :=
  [.accept 11,
    .message 11 S.memTable S.maps,
    .message 11 (stateMsg .setVringNum ⟨1, .ofNat vhostVringSize⟩) S.maps,
    .message 11 (fileMsg .setVringKick 1 (S.kickfd txIdx)) S.maps,
    .message 11 (addrMsg (vringAddr 0 (S.clientBase rxIdx))) S.maps,
    .message 11 (addrMsg (vringAddr 1 (S.clientBase txIdx))) S.maps,
    .peer { Mem.zero with
      desc := fun _ _ => ⟨S.clientBase txIdx, 11, 0, 0⟩
      avail := fun _ => ⟨1, fun _ => 0⟩ },
    .kick (S.kickfd txIdx) 8]

/-- The server forwards that packet. -/
theorem sendable_zero : Sendable [0] :=
  ⟨1, 10, true, [], Mem.zero, oneByteEvents .demo, by decide +kernel⟩

end Vapp
