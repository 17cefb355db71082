import Mathlib.Data.List.Find
import Vapp.SessionRings
import Vapp.ServerPackets
import Vapp.RingProgress
import Vapp.RingChannel
import Vapp.SetupTurns

/-! # A session after others

Between two clients the server resets nothing: its mappings, its rings, its descriptors and
its private buffer stay.  The messages of the set-up overwrite all that the rings depend on,
so both rings of the next client start afresh, whatever happened before.  The private buffer
does not belong to a session, and what an earlier client left there goes to the next one.
-/
namespace Vapp

/-- A packet that fits, put on a ring that nobody has used, is handed over by the next
call. -/
theorem Start.handed {κ μ : Type} {E : RingEnv} {s r : RingState κ μ} {buf : List UInt8}
    (h : Start E s) (hput : RingStep E s (.put buf) r) (hfit : Fits buf) (hsent : r.sent = [buf])
    (hidle : r.cursor = none) (hnone : r.outcomes = []) :
    ∃ t, Transition.Run (RingStep E) r (callLabels 1 ++ [.leave]) t ∧
      t.outcomes = [some (callOf buf)] := by
  have ht : Tracked E r := tracked_step h.tracked hput
  have hone : SentFit r := by
    intro b hb
    rw [hsent, List.mem_singleton] at hb
    rwa [hb]
  obtain ⟨c, m, os, hcount, hrun⟩ := ht.can_call hone hidle
  rw [hsent, hnone] at hcount hrun
  obtain ⟨o, rfl⟩ := List.length_eq_one_iff.mp ((Nat.zero_add _).symm.trans hcount)
  refine ⟨_, hrun, ?_⟩
  obtain ⟨free, heads, hl⟩ := (tracked_run ht hrun).ledger fun k b _ hb => by
    refine hone b ?_
    rw [hsent]
    exact List.mem_of_getElem? hb
  rw [hl.handed 0 buf o rfl rfl]
  rfl

/-! ### The memory table -/

/-- Two tables with the same regions translate alike. -/
theorem VhostServerMemory.mapAddr_congr {a b : VhostServerMemory}
    (hn : a.nregions = b.nregions) (hr : ∀ k, k < b.nregions.toNat → a.regions k = b.regions k)
    (base : VhostServerMemoryRegion → UInt64) (addr : UInt64) :
    a.mapAddr base addr = b.mapAddr base addr := by
  have hfind : (List.range b.nregions.toNat).find? (fun k =>
        decide (base (a.regions k) ≤ addr ∧
          addr < base (a.regions k) + (a.regions k).memorySize)) =
      (List.range b.nregions.toNat).find? fun k =>
        decide (base (b.regions k) ≤ addr ∧
          addr < base (b.regions k) + (b.regions k).memorySize) :=
    List.find?_congr fun k hk => by rw [hr k (List.mem_range.mp hk)]
  simp only [mapAddr, hn, hfind]
  split
  · rename_i k hk
    rw [hr k (List.mem_range.mp (List.mem_of_find?_eq_some hk))]
  · rfl

/-- What one address space shows, a larger one that begins with it shows too. -/
theorem resolve_append {sp : AddrSpace} {a : UInt64} {l : Loc} (h : sp.resolve a = some l)
    (old : AddrSpace) : AddrSpace.resolve (sp ++ old) a = some l := by
  rw [AddrSpace.resolve] at h ⊢
  rw [List.findSome?_append, h]
  rfl

theorem Shows.append {sp : AddrSpace} {a : UInt64} {n : Nat} {l : Loc} (h : Shows sp a n l)
    (old : AddrSpace) : Shows (sp ++ old) a n l := fun k hk => resolve_append (h k hk) old

namespace Session
variable (S : Session)

/-- The server has the regions of the client, whatever it had before. -/
structure Knows (w : World) : Prop where
  nregions : w.context.memory.nregions = 2
  regions : ∀ i : RingIdx, w.context.memory.regions i = S.memory.regions i

variable {S} in
theorem Knows.mapAddr {w : World} (h : S.Knows w) (base : VhostServerMemoryRegion → UInt64)
    (addr : UInt64) : w.context.memory.mapAddr base addr = S.memory.mapAddr base addr :=
  VhostServerMemory.mapAddr_congr h.nregions
    (fun k hk => h.regions ⟨k, Nat.lt_of_lt_of_eq hk rfl⟩) base addr

variable {S} in
theorem knows_of_updates {w : World} {old : Nat → VhostServerMemoryRegion}
    (h : w.context.memory = ⟨2, Function.update (Function.update old rxIdx.val
      (S.memory.regions rxIdx)) txIdx.val (S.memory.regions txIdx)⟩) : S.Knows w := by
  refine ⟨congrArg VhostServerMemory.nregions h, fun i => ?_⟩
  rw [h]
  dsimp only
  rcases ringIdx_cases i with rfl | rfl
  · rw [Function.update_of_ne (by decide), Function.update_self]
  · rw [Function.update_self]

/-- **`VHOST_USER_SET_MEM_TABLE`** installs both regions and adds their mappings. -/
theorem inMsgServer_memTable_again (w : World) :
    ∃ w' msg, (inMsgServer S.maps w S.memTable).out = .ret (0, msg, w') ∧
      w'.space = regionSpace S.serverBase ++ w.space ∧ w'.mem = w.mem ∧ S.Knows w' ∧
      w'.context.buffer = w.context.buffer ∧ w'.context.bufferSize = w.context.bufferSize ∧
      w'.server.table.handlers = w.server.table.handlers := by
  have hcall : inMsgServer S.maps w S.memTable = setMemTable S.maps w S.memTable := rfl
  have hn : S.memTable.msg.payload.nregions.toNat = 2 := by
    rw [show S.memTable.msg.payload.nregions = _ from nregions_foldl _ _ _,
      Payload.nregions, Payload.u32At_setU32]
    rfl
  have hloop : ∀ w, setMemTableLoop S.memTable S.maps 2 0 w = _ := fun w => by
    show (setMemTableTurn S.memTable (S.maps rxIdx) rxIdx w >>= fun w =>
      setMemTableTurn S.memTable (S.maps txIdx) txIdx w >>= fun w => .ret w) = _
    rw [S.setMemTableTurn_eq, Outcome.ret_bind, S.setMemTableTurn_eq, Outcome.ret_bind]
  rw [hcall, setMemTable, hn, hloop]
  exact ⟨_, _, rfl, rfl, rfl, knows_of_updates rfl, rfl, rfl, rfl⟩

/-- The messages for one ring, once the server has the regions. -/
theorem serveMsgs_ring_again {w : World} {old : AddrSpace} (i : RingIdx)
    (hspace : w.space = regionSpace S.serverBase ++ old) (hknows : S.Knows w) :
    ∃ w', (serveMsgs S.maps w
        (setHostVring (.ofNat i) (S.clientBase i) (S.kickfd i) (S.callfd i))).out = .ret w' ∧
      w'.space = w.space ∧ w'.mem = w.mem ∧
      w'.server.table =
        w.server.table.setVring i (S.serverVring i (w.mem.used ⟨i, offsetofUsed⟩).idx) := by
  have hmap : ∀ off, off < vhostClientPageSize.toNat →
      mapUserAddr w.context.memory (S.clientBase i + .ofNat off) = S.serverBase i + .ofNat off :=
    fun off hoff => (hknows.mapAddr _ _).trans (S.mapUserAddr_eq i hoff)
  have hU : w.space.resolve (mapUserAddr w.context.memory
      (S.clientBase i + .ofNat offsetofUsed)) = some ⟨i, offsetofUsed⟩ := by
    rw [hmap _ (by decide), hspace]
    exact resolve_append (S.server.resolve i (by decide)) old
  obtain ⟨w', hout, hs, hm, ht⟩ :=
    serveMsgs_setHostVring S.maps w i (S.kickfd_pos i) (S.callfd_pos i) hU
  rw [hmap _ (by decide), hmap _ (by decide), hmap _ (by decide)] at ht
  exact ⟨w', hout, hs, hm, ht⟩

/-- The server, which was in state `w` before, has the regions of the client beside what it
had mapped. -/
structure Beside (w w' : World) : Prop where
  space : w'.space = regionSpace S.serverBase ++ w.space
  knows : S.Knows w'
  handlers : w'.server.table.handlers = w.server.table.handlers

/-- The messages before the first `VHOST_USER_SET_VRING_ADDR`. -/
def frontMsgs : List ServerMsg :=
  [vhostIoctl .setOwner 0 zeroPayload [], vhostIoctl .getFeatures 0 zeroPayload [], S.memTable] ++
    [stateMsg .setVringNum ⟨0, .ofNat vhostVringSize⟩, stateMsg .setVringBase ⟨0, 0⟩,
      fileMsg .setVringKick 0 (S.kickfd rxIdx), fileMsg .setVringCall 0 (S.callfd rxIdx)]

/-- The message that sets up the RX ring. -/
def rxAddrMsg : ServerMsg := addrMsg (vringAddr 0 (S.clientBase rxIdx))

/-- The messages after it, for the TX ring. -/
def txMsgs : List ServerMsg :=
  setHostVring 1 (S.clientBase txIdx) (S.kickfd txIdx) (S.callfd txIdx)

theorem setupMsgs_eq : S.setupMsgs = S.frontMsgs ++ S.rxAddrMsg :: S.txMsgs := rfl

/-- What the messages up to the RX ring make of a server. -/
structure RxOpened (w w' : World) : Prop extends S.Beside w w' where
  served : (serveMsgs S.maps w (S.frontMsgs ++ [S.rxAddrMsg])).out = .ret w'
  mem : w'.mem = w.mem
  vring : w'.vring rxIdx = S.serverVring rxIdx (w.mem.used ⟨rxIdx, offsetofUsed⟩).idx
  packet : w'.context.packet = w.context.packet
  size : w'.context.bufferSize = w.context.bufferSize

/-- **Any server handles the messages up to the RX ring.** -/
theorem rx_opens (w : World) : ∃ w', S.RxOpened w w' := by
  obtain ⟨w0, _, h0, hs0, hm0, hk0, hb0, hsize0, hh0⟩ := S.inMsgServer_memTable_again w
  obtain ⟨w1, h1, hs1, hm1, ht1⟩ := S.serveMsgs_ring_again rxIdx hs0 hk0
  have hctx1 : w1.context = w0.context := by
    rw [World.context, ht1, VringTable.setVring_context]
    rfl
  have hfirst : (serveMsgs S.maps w [vhostIoctl .setOwner 0 zeroPayload [],
      vhostIoctl .getFeatures 0 zeroPayload [], S.memTable]).out = .ret w0 := by
    have howner : (inMsgServer S.maps w (vhostIoctl .setOwner 0 zeroPayload [])).out =
      .ret (0, _, w) := rfl
    have hfeatures : (inMsgServer S.maps w (vhostIoctl .getFeatures 0 zeroPayload [])).out =
      .ret (1, _, w) := rfl
    rw [serveMsgs_cons S.maps _ howner, serveMsgs_cons S.maps _ hfeatures,
      serveMsgs_cons S.maps _ h0]
    rfl
  have hknows : S.Knows w1 := by
    refine ⟨?_, ?_⟩
    · rw [hctx1]
      exact hk0.nregions
    · rw [hctx1]
      exact hk0.regions
  refine ⟨w1, ⟨hs1.trans hs0, hknows, ?_⟩, ?_, hm1.trans hm0, ?_, ?_, ?_⟩
  · rw [ht1]
    exact hh0
  · rw [frontMsgs, List.append_assoc]
    exact (serveMsgs_append S.maps _ hfirst).trans h1
  · rw [World.vring, ht1, VringTable.setVring_self, hm0]
  · rw [hctx1, ServerContext.packet, ServerContext.packet, hb0, hsize0]
  · rw [hctx1]
    exact hsize0

/-- What the messages for the TX ring make of a server that has the regions. -/
structure TxOpened (w w' : World) : Prop where
  served : (serveMsgs S.maps w S.txMsgs).out = .ret w'
  space : w'.space = w.space
  mem : w'.mem = w.mem
  table : w'.server.table =
    w.server.table.setVring txIdx (S.serverVring txIdx (w.mem.used ⟨txIdx, offsetofUsed⟩).idx)

theorem tx_opens {w : World} {old : AddrSpace}
    (hspace : w.space = regionSpace S.serverBase ++ old) (hknows : S.Knows w) :
    ∃ w', S.TxOpened w w' := by
  obtain ⟨w', hout, hs, hm, ht⟩ := S.serveMsgs_ring_again txIdx hspace hknows
  exact ⟨w', hout, hs, hm, ht⟩

section TxOpened
variable {S} {w w' : World}

theorem TxOpened.context (h : S.TxOpened w w') : w'.context = w.context := by
  rw [World.context, h.table]
  rfl

theorem TxOpened.rx (h : S.TxOpened w w') : w'.vring rxIdx = w.vring rxIdx := by
  rw [World.vring, h.table]
  exact VringTable.setVring_of_ne _ _ (by decide)

theorem TxOpened.tx (h : S.TxOpened w w') :
    w'.vring txIdx = S.serverVring txIdx (w.mem.used ⟨txIdx, offsetofUsed⟩).idx := by
  rw [World.vring, h.table, VringTable.setVring_self]

theorem TxOpened.beside (h : S.TxOpened w w') {w0 : World} (hbeside : S.Beside w0 w) :
    S.Beside w0 w' := by
  refine ⟨h.space.trans hbeside.space, ⟨?_, ?_⟩, ?_⟩
  · rw [h.context]
    exact hbeside.knows.nregions
  · rw [h.context]
    exact hbeside.knows.regions
  · rw [h.table]
    exact hbeside.handlers

end TxOpened

/-! ### The rings of the session -/

/-- The TX ring of a client, whose server has the mappings `old` of earlier ones. -/
def txEnvBeside (old : AddrSpace) : RingEnv :=
  { S.txEnv with consSpace := regionSpace S.serverBase ++ old }

/-- The RX ring of such a client. -/
def rxEnvBeside (old : AddrSpace) : RingEnv :=
  { S.rxEnv with prodSpace := regionSpace S.serverBase ++ old }

theorem resolve_beside (old : AddrSpace) (i : RingIdx) {off : Nat}
    (hoff : off < vhostClientPageSize.toNat) :
    AddrSpace.resolve (regionSpace S.serverBase ++ old) (S.serverBase i + .ofNat off) =
      some ⟨i, off⟩ :=
  resolve_append (S.server.resolve i hoff) old

section Layout
variable {S} {w : World} {m : Mem} (hmem : w.mem = S.layout m)
include hmem

theorem laid_desc (i : RingIdx) {d : Nat} (hd : d < vhostVringSize) :
    w.mem.desc ⟨i, offsetofDesc⟩ d =
      { addr := S.bufferAddr i d
        len := .ofNat bufferSize
        flags := virtioDescFWrite
        next := if d + 1 = vhostVringSize then vringIdxNone else .ofNat (d + 1) } := by
  rw [hmem]
  exact S.layout_desc_apply m i hd

theorem laid_indices (i : RingIdx) :
    (w.mem.avail ⟨i, offsetofAvail⟩).idx = 0 ∧ (w.mem.used ⟨i, offsetofUsed⟩).idx = 0 := by
  rw [hmem]
  exact ⟨S.layout_availIdx m i, S.layout_usedIdx m i⟩

end Layout

section Beside
variable {S} {w w' : World} {m : Mem} (h : S.Beside w w') (hmem : w'.mem = S.layout m)
include h

namespace Beside

/-- The server sees the buffers of either ring, whatever it had mapped before. -/
theorem shows (hhandlers : w.server.table.handlers = serverHandlers) (i : RingIdx) {d n : Nat}
    (hd : d < vhostVringSize) (hn : n ≤ virtioNetHdrSize + bufferSize) :
    Shows (regionSpace S.serverBase ++ w.space)
      (w'.server.table.translate (S.bufferAddr i d)) n
      ⟨i, sizeofVhostVring + bufferSize * d⟩ := by
  have htr : w'.server.table.translate (S.bufferAddr i d) =
      S.serverBase i + .ofNat (sizeofVhostVring + bufferSize * d) := by
    have hoff : sizeofVhostVring + bufferSize * d < vhostClientPageSize.toNat := by
      have := buffer_fits (n := 1) hd (by decide)
      omega
    rw [VringTable.translate, h.handlers, hhandlers]
    exact (h.knows.mapAddr _ _).trans (S.mapGuestAddr_eq i hoff)
  rw [htr]
  exact (S.server.shows i (buffer_fits hd hn)).append w.space

include hmem

/-- **The TX ring starts afresh.** -/
theorem tx_start (hhandlers : w.server.table.handlers = serverHandlers)
    (hcons : (S.txState w').cons.vring txIdx = S.serverVring txIdx 0) :
    Start (S.txEnvBeside w.space) (S.txState w') := by
  have hwired : Wired (S.txEnvBeside w.space) (S.txState w') :=
    { prodDesc := S.client.resolve txIdx (by decide)
      prodAvail := S.client.resolve txIdx (by decide)
      prodUsed := S.client.resolve txIdx (by decide)
      prodNum := rfl
      consDesc := hcons ▸ S.resolve_beside w.space txIdx (by decide)
      consAvail := hcons ▸ S.resolve_beside w.space txIdx (by decide)
      consUsed := hcons ▸ S.resolve_beside w.space txIdx (by decide)
      consNum := hcons ▸ rfl
      addr := fun d hd => congrArg VringDesc.addr (laid_desc hmem txIdx hd)
      prodBuf := fun d hd => S.client_shows txIdx hd (Nat.le_refl _)
      consBuf := fun d hd => h.shows hhandlers txIdx hd (Nat.le_add_left _ _)
      handler := by
        refine ⟨availHandlerServer, ?_, ?_⟩
        · exact congrArg ProcessHandler.availHandler (h.handlers.trans hhandlers)
        · exact fun call hcall => decide_eq_true (Nat.le_trans hcall (by decide)) }
  exact
    { wired := hwired
      len := fun d hd => congrArg VringDesc.len (laid_desc hmem txIdx hd)
      next := fun d hd => congrArg VringDesc.next (laid_desc hmem txIdx hd)
      availIdx := (laid_indices hmem txIdx).1
      usedIdx := (laid_indices hmem txIdx).2
      prodAvail := rfl
      prodUsed := rfl
      consAvail := congrArg Vring.lastAvailIdx hcons
      consUsed := congrArg Vring.lastUsedIdx hcons
      cursor := rfl
      sent := rfl
      outcomes := rfl
      published := rfl
      seen := rfl }

/-- **The RX ring starts afresh.** -/
theorem rx_start (hhandlers : w.server.table.handlers = serverHandlers)
    (hprod : (S.rxState w').prod.vring rxIdx = S.serverVring rxIdx 0) :
    Start (S.rxEnvBeside w.space) (S.rxState w') := by
  have hwired : Wired (S.rxEnvBeside w.space) (S.rxState w') :=
    { prodDesc := hprod ▸ S.resolve_beside w.space rxIdx (by decide)
      prodAvail := hprod ▸ S.resolve_beside w.space rxIdx (by decide)
      prodUsed := hprod ▸ S.resolve_beside w.space rxIdx (by decide)
      prodNum := hprod ▸ rfl
      consDesc := S.client.resolve rxIdx (by decide)
      consAvail := S.client.resolve rxIdx (by decide)
      consUsed := S.client.resolve rxIdx (by decide)
      consNum := rfl
      addr := fun d hd => congrArg VringDesc.addr (laid_desc hmem rxIdx hd)
      prodBuf := fun d hd => h.shows hhandlers rxIdx hd (Nat.le_refl _)
      consBuf := fun d hd => S.client_shows rxIdx hd (Nat.le_add_left _ _)
      handler := ⟨⟨fun _ => true, fun c _ => c⟩, rfl, fun _ _ => rfl⟩ }
  exact
    { wired := hwired
      len := fun d hd => congrArg VringDesc.len (laid_desc hmem rxIdx hd)
      next := fun d hd => congrArg VringDesc.next (laid_desc hmem rxIdx hd)
      availIdx := (laid_indices hmem rxIdx).1
      usedIdx := (laid_indices hmem rxIdx).2
      prodAvail := congrArg Vring.lastAvailIdx hprod
      prodUsed := congrArg Vring.lastUsedIdx hprod
      consAvail := rfl
      consUsed := rfl
      cursor := rfl
      sent := rfl
      outcomes := rfl
      published := rfl
      seen := rfl }

end Beside
end Beside

/-- Every run from a state of a ring loses nothing, doubles nothing and keeps the order of
the packets that were put, as long as they fit. -/
def Carries {κ μ : Type} (E : RingEnv) (s0 : RingState κ μ) : Prop :=
  ∀ ls s, Transition.Run (RingStep E) s0 ls s → (∀ buf, RingLabel.put buf ∈ ls → Fits buf) →
    s.sent = ls.filterMap RingLabel.packet? ∧ s.channel.Lossless ∧
      s.held E = (s.sent.drop s.outcomes.length).map .ret

/-- A server that has run for a while. -/
def Served (fuel : Nat) (w : World) : Prop :=
  ∃ sock isListen space mem es,
    (execAll fuel ⟨newVhostServer sock isListen, space, mem⟩ es).out = .ret w

theorem Served.packetFits {fuel : Nat} {w : World} (h : Served fuel w) : PacketFits w := by
  obtain ⟨sock, isListen, space, mem, es, hrun⟩ := h
  have hstart : PacketFits ⟨newVhostServer sock isListen, space, mem⟩ :=
    ⟨rfl, show 0 + virtioNetHdrSize < ethPacketSize by decide⟩
  exact Traced.runAll_invariant (fun _ _ _ h hout => PacketFits.exec h hout) es hstart hrun

/-- The other process may write at any time. -/
theorem Served.peer {fuel : Nat} {w : World} (h : Served fuel w) (mem : Mem) :
    Served fuel { w with mem := mem } := by
  obtain ⟨sock, isListen, space, mem0, es, hrun⟩ := h
  refine ⟨sock, isListen, space, mem0, es ++ [.peer mem], ?_⟩
  rw [execAll, Traced.runAll_append _ _ hrun]
  rfl

/-! ### The messages in the loop of the server -/

section Modes
variable {S}

/-- Only `VHOST_USER_SET_VRING_KICK` can ask for polling. -/
theorem not_asksPolling {maps : Nat → Option MapResult} {msg : ServerMsg}
    (req : VhostUserRequest) (hreq : msg.msg.request = req.word) (hne : req ≠ .setVringKick) :
    ¬ (Event.message 0 msg maps).AsksPolling := by
  rintro ⟨hkick, -⟩
  rw [hreq, VhostUserRequest.ofWord_word] at hkick
  exact hne (Option.some.inj hkick)

/-- The messages for one ring do not. -/
theorem setHostVring_mode (maps : Nat → Option MapResult) (i : RingIdx) (base : UInt64)
    (kickfd callfd : Int) : ∀ msg ∈ setHostVring (.ofNat i) base kickfd callfd,
    ¬ (Event.message 0 msg maps).AsksPolling := by
  intro msg hmsg
  simp only [setHostVring, List.mem_cons, List.not_mem_nil, or_false] at hmsg
  rcases hmsg with rfl | rfl | rfl | rfl | rfl
  · exact not_asksPolling .setVringNum rfl (by decide)
  · exact not_asksPolling .setVringBase rfl (by decide)
  · rintro ⟨-, j, hj⟩
    rw [u64_fileMsg, kickIndex_ofNat] at hj
    cases hj
  · exact not_asksPolling .setVringCall rfl (by decide)
  · exact not_asksPolling .setVringAddr rfl (by decide)

theorem setupMsgs_mode (S : Session) : ∀ msg ∈ S.setupMsgs,
    ¬ (Event.message 0 msg S.maps).AsksPolling := by
  intro msg hmsg
  rw [setupMsgs, List.mem_append, List.mem_append] at hmsg
  rcases hmsg with (hmsg | hmsg) | hmsg
  · simp only [List.mem_cons, List.not_mem_nil, or_false] at hmsg
    rcases hmsg with rfl | rfl | rfl
    · exact not_asksPolling .setOwner rfl (by decide)
    · exact not_asksPolling .getFeatures rfl (by decide)
    · exact not_asksPolling .setMemTable rfl (by decide)
  · exact setHostVring_mode S.maps rxIdx _ _ _ msg hmsg
  · exact setHostVring_mode S.maps txIdx _ _ _ msg hmsg

/-- Messages that do not ask for polling, and one with a kick descriptor among them. -/
theorem serveMsgs_isPolling {maps : Nat → Option MapResult} (msgs : List ServerMsg) :
    ∀ {w w' : World}, (serveMsgs maps w msgs).out = .ret w' →
    (∀ msg ∈ msgs, ¬ (Event.message 0 msg maps).AsksPolling) →
    (∃ msg ∈ msgs, VhostUserRequest.ofWord msg.msg.request = some .setVringKick) ∨
      w.server.isPolling = false → w'.server.isPolling = false := by
  induction msgs with
  | nil =>
      rintro w w' h - (⟨msg, hmsg, -⟩ | hw)
      · exact absurd hmsg List.not_mem_nil
      · cases h
        exact hw
  | cons msg msgs ih =>
      intro w w' h hmode hw
      obtain ⟨⟨r, msg', w1⟩, h1, hrest⟩ := Traced.bind_out_eq_ret.mp h
      have hfirst := hmode msg List.mem_cons_self
      refine ih hrest (fun msg hmsg => hmode msg (List.mem_cons_of_mem _ hmsg)) ?_
      rcases hw with ⟨msg2, hmsg2, hreq⟩ | hw
      · rcases List.mem_cons.mp hmsg2 with rfl | hmem
        · exact .inr (inMsgServer_isPolling hfirst (.inl hreq) h1)
        · exact .inl ⟨msg2, hmem, hreq⟩
      · exact .inr (inMsgServer_isPolling hfirst (.inr hw) h1)

theorem RxOpened.not_polling {w w' : World} (h : S.RxOpened w w') :
    w'.server.isPolling = false := by
  refine serveMsgs_isPolling _ h.served (fun msg hmsg => setupMsgs_mode S msg ?_) (.inl ?_)
  · rw [setupMsgs_eq, List.append_cons]
    exact List.mem_append_left _ hmsg
  · refine ⟨fileMsg .setVringKick 0 (S.kickfd rxIdx), ?_, rfl⟩
    simp [frontMsgs]

theorem RxOpened.rx_set {w w' : World} (h : S.RxOpened w w') : (w'.vring rxIdx).desc ≠ 0 := by
  intro hzero
  rw [h.vring] at hzero
  have hsum := S.server.toNat_add rxIdx (show offsetofDesc ≤ vhostClientPageSize.toNat by decide)
  have hpos : (S.serverBase rxIdx).toNat ≠ 0 := fun heq =>
    S.server.pos rxIdx (UInt64.toNat_inj.mp heq)
  have hnull : (S.serverBase rxIdx + .ofNat offsetofDesc).toNat = 0 := congrArg UInt64.toNat hzero
  omega

/-- The messages before the first `VHOST_USER_SET_VRING_ADDR` are no such message. -/
theorem frontMsgs_request (S : Session) : ∀ msg ∈ S.frontMsgs,
    VhostUserRequest.ofWord msg.msg.request ≠ some .setVringAddr := by
  intro msg hmsg
  simp only [frontMsgs, List.cons_append, List.nil_append, List.mem_cons, List.not_mem_nil,
    or_false] at hmsg
  rcases hmsg with rfl | rfl | rfl | rfl | rfl | rfl | rfl <;> exact nofun

end Modes

/-- **Every session has rings of its own.**  Whatever a server has been through, if its private
buffer is empty and it waits for kicks, then it handles the set-up of a client that has laid
out its rings, and from then on both rings carry packets as those of the first session do. -/
theorem later_session_carries {fuel past : Nat} {w : World} {m : Mem} {g : Int} {es : List Event}
    (hserved : Served past w) (hlaid : w.mem = S.layout m) (hease : w.AtEase) (hg : 0 ≤ g)
    (hconn : w.server.fdList.Registered g .receiveSockServer)
    (hturns : Turns g S.maps es S.setupMsgs) :
    ∃ w', (execAll fuel w es).out = .ret w' ∧
      Start (S.txEnvBeside w.space) (S.txState w') ∧
      Start (S.rxEnvBeside w.space) (S.rxState w') ∧
      Carries (S.txEnvBeside w.space) (S.txState w') ∧
      Carries (S.rxEnvBeside w.space) (S.rxState w') := by
  have hhandlers := hserved.packetFits.handlers
  obtain ⟨w1, h1⟩ := S.rx_opens w
  obtain ⟨w2, h2⟩ := S.tx_opens h1.space h1.knows
  have hserve : (serveMsgs S.maps w S.setupMsgs).out = .ret w2 := by
    rw [setupMsgs_eq, List.append_cons, serveMsgs_append S.maps _ h1.served]
    exact h2.served
  obtain ⟨hrun, -, -⟩ := execAll_turns fuel (I := World.AtEase) (fun _ h => h.poll) hturns
    hease hg
    hconn (fun msg hmsg _ _ _ _ h hout => h.inMsgServer (setupMsgs_mode S msg hmsg) hout) hserve
  have hbeside := h2.beside h1.toBeside
  have hmem : w2.mem = S.layout m := h2.mem.trans (h1.mem.trans hlaid)
  have htx : (S.txState w2).cons.vring txIdx = S.serverVring txIdx 0 := by
    refine h2.tx.trans ?_
    rw [h1.mem, hlaid, S.layout_usedIdx]
  have hrx : (S.rxState w2).prod.vring rxIdx = S.serverVring rxIdx 0 := by
    refine h2.rx.trans (h1.vring.trans ?_)
    rw [hlaid, S.layout_usedIdx]
  have htx := hbeside.tx_start hmem hhandlers htx
  have hrx := hbeside.rx_start hmem hhandlers hrx
  exact ⟨w2, hrun, htx, hrx, fun _ _ hrun hfit => ring_lossless htx hrun hfit,
    fun _ _ hrun hfit => ring_lossless hrx hrun hfit⟩

/-! ### What an earlier client left behind -/

/-- The server `w'`, which was in state `w` before the set-up, has put the packet `buf` on the
unused RX ring of the client, and the next call of the client hands it over. -/
def Hands (w w' : World) (buf : List UInt8) : Prop :=
  ∃ s r t : RingState ServerContext Unit, Start (S.rxEnvBeside w.space) s ∧
    RingStep (S.rxEnvBeside w.space) s (.put buf) r ∧
    w'.mem = r.mem ∧ w'.vring rxIdx = r.prod.vring rxIdx ∧
    Transition.Run (RingStep (S.rxEnvBeside w.space)) r (callLabels 1 ++ [.leave]) t ∧
    t.outcomes = [some (callOf buf)]

section Leftover
variable {S} {w w1 : World} {m : Mem}

/-- The first poll after the RX ring was set up. -/
theorem RxOpened.poll (h : S.RxOpened w w1) (fuel : Nat) (hlaid : w.mem = S.layout m)
    (hfits : PacketFits w) :
    ∃ w2, (pollServer fuel w1).out = .ret w2 ∧ w2.AtEase ∧ w2.space = w1.space ∧
      w2.context.memory = w1.context.memory ∧ w2.server.fdList = w1.server.fdList ∧
      (w.context.bufferSize ≠ 0 → S.Hands w w2 w.context.packet) := by
  have hring : (S.rxState w1).prod.vring rxIdx = S.serverVring rxIdx 0 := by
    refine h.vring.trans ?_
    rw [hlaid, S.layout_usedIdx]
  have hstart := h.toBeside.rx_start (h.mem.trans hlaid) hfits.handlers hring
  have hpolls : (pollServer fuel w1).out = (pollRx w1).out := by
    have htx : pollTx fuel w1 = pure w1 := by
      rw [pollTx, h.not_polling]
      rfl
    rw [pollServer, if_pos h.rx_set, htx]
    rfl
  rw [hpolls, pollRx, h.size, h.packet]
  by_cases hsize : w.context.bufferSize = 0
  · rw [if_neg (not_not_intro hsize)]
    exact ⟨w1, rfl, ⟨h.size.trans hsize, h.not_polling⟩, rfl, rfl, rfl,
      fun hne => absurd hsize hne⟩
  · have hfit : Fits w.context.packet := by
      rw [Fits, ServerContext.packet, List.length_map, List.length_range]
      exact hfits.size
    have hhead : (S.rxState w1).head (S.rxEnvBeside w.space) = 0 := hstart.prodAvail
    obtain ⟨table, mem, hput⟩ : ∃ table mem, putVring (S.rxEnvBeside w.space).prodSpace
        (S.rxState w1).prod rxIdx w.context.packet (S.rxState w1).mem = .ret (0, table, mem) := by
      refine ⟨_, _, putVring_fresh hstart.wired ?_ ?_ hfit.room⟩
      · rw [hhead]
        decide
      · rw [hhead]
        exact hstart.len 0 (by decide)
    obtain ⟨t, hrun, hhanded⟩ := hstart.handed (.put hput) hfit
      (List.nil_append _) rfl rfl
    have hcall : putVring w1.space w1.server.table rxIdx w.context.packet w1.mem =
        .ret (0, table, mem) := by
      rw [h.space]
      exact hput
    have hcontext : table.context = w1.server.table.context := by
      rcases putVring_ret hcall with ⟨hr, -, -⟩ | ⟨-, D, A, -, -, -, -, rfl, -⟩
      · exact absurd hr (by decide)
      · rfl
    rw [if_pos hsize, hcall]
    refine ⟨_, rfl, ⟨rfl, h.not_polling⟩, rfl, ?_, rfl,
      fun _ => ⟨_, _, t, hstart, .put hput, rfl, rfl, hrun, hhanded⟩⟩
    show table.context.memory = w1.server.table.context.memory
    rw [hcontext]

/-- **The private buffer outlives a session.**  If no earlier client has set up an RX ring, then
the first one that does gets the packet of an earlier one, if one is left: `poll_server` sends
it as soon as the RX ring is set up, and the client takes it. -/
theorem leftover_reaches_next_client (fuel : Nat) {past : Nat} {g : Int} {es : List Event}
    (hserved : Served past w) (hlaid : w.mem = S.layout m) (hnone : w.NoRx) (hg : 0 ≤ g)
    (hconn : w.server.fdList.Registered g .receiveSockServer)
    (hturns : Turns g S.maps es S.setupMsgs) :
    ∃ w', (execAll fuel w es).out = .ret w' ∧ w'.context.bufferSize = 0 ∧
      (w.context.bufferSize ≠ 0 → S.Hands w w' w.context.packet) := by
  rw [setupMsgs_eq] at hturns
  obtain ⟨es1, es2, rfl, hfront, hrest⟩ := hturns.split
  obtain ⟨polls, rest, rfl, hpolls, hlast⟩ := hrest.first
  obtain ⟨w1, h1⟩ := S.rx_opens w
  obtain ⟨w0, hserve, hone⟩ := serveMsgs_split h1.served
  -- up to here polls do nothing, since there is no RX ring
  obtain ⟨hrun0, hnone0, hconn0⟩ := execAll_turns fuel (I := World.NoRx)
    (fun _ h => h.poll) hfront hnone hg hconn
    (fun msg hmsg _ _ _ _ h hout => h.inMsgServer (frontMsgs_request S msg hmsg) hout) hserve
  obtain ⟨hidle, -, -⟩ := execAll_turns fuel (I := World.NoRx) (fun _ h => h.poll)
    hpolls hnone0 hg hconn0 (fun msg hmsg => absurd hmsg List.not_mem_nil) rfl
  obtain ⟨⟨r, msg', w1'⟩, hmsg, hend⟩ := Traced.bind_out_eq_ret.mp hone
  obtain rfl : w1' = w1 := by
    cases hend
    rfl
  obtain ⟨w2, hpoll, hease, hspace, hmemory, hlist, hleft⟩ :=
    h1.poll fuel hlaid hserved.packetFits
  -- from here on they do nothing, since the buffer is empty
  have hknows : S.Knows w2 := by
    refine ⟨?_, ?_⟩
    · rw [hmemory]
      exact h1.knows.nregions
    · rw [hmemory]
      exact h1.knows.regions
  obtain ⟨w3, h3⟩ := S.tx_opens (hspace.trans h1.space) hknows
  have hconn2 : w2.server.fdList.Registered g .receiveSockServer := by
    rw [hlist]
    exact inMsgServer_registered (by omega) hmsg hconn0
  have htxMode : ∀ msg ∈ S.txMsgs, ¬ (Event.message 0 msg S.maps).AsksPolling := by
    intro msg hmem
    refine setupMsgs_mode S msg ?_
    rw [setupMsgs_eq]
    exact List.mem_append_right _ (List.mem_cons_of_mem _ hmem)
  obtain ⟨hrun3, -, -⟩ := execAll_turns fuel (I := World.AtEase) (fun _ h => h.poll)
    hlast hease hg hconn2
    (fun msg hmem _ _ _ _ h hout => h.inMsgServer (htxMode msg hmem) hout) h3.served
  refine ⟨w3, ?_, ?_, fun hsize => ?_⟩
  · rw [execAll, Traced.runAll_append _ _ hrun0, Traced.runAll_append _ _ hidle]
    refine Traced.bind_out_eq_ret.mpr ⟨w1', exec_message_ret hconn0 hmsg, ?_⟩
    exact Traced.bind_out_eq_ret.mpr ⟨w2, hpoll, hrun3⟩
  · rw [h3.context]
    exact hease.size
  · obtain ⟨s, r, t, hs, hput, hmem, hring, hrun, hhanded⟩ := hleft hsize
    exact ⟨s, r, t, hs, hput, h3.mem.trans hmem, h3.rx.trans hring, hrun, hhanded⟩

end Leftover

/-! ### Two sessions -/

/-- What some events leave for a client that is connected through `g`: the packet in the
private buffer, the RX ring, whether the server is polling and whether it reads the
connection. -/
def leftAfter (fuel : Nat) (w : World) (es : List Event) (g : Int) :
    Option (List UInt8 × UInt64 × Bool × Bool) :=
  match (execAll fuel w es).out with
  | .ret w => some (w.context.packet, (w.vring rxIdx).desc, w.server.isPolling,
      w.server.fdList.Registered g .receiveSockServer)
  | _ => none

/-- A second client, whose regions are mapped beside those of the first one. -/
def second : Session where
  clientBase i := if i = rxIdx then 0x7f5000000000 else 0x7f5010000000
  serverBase i := if i = rxIdx then 0x7f6010000000 else 0x7f6000000000
  kickfd i := 15 + 2 * i
  callfd i := 16 + 2 * i
  shmFd i := 13 + i
  client := ⟨by decide, by decide, by decide, by decide⟩
  server := ⟨by decide, by decide, by decide, by decide⟩
  kickfd_pos := by decide
  callfd_pos := by decide
  shmFd_pos := by decide

/-- The packet of one byte of the first client, who then makes way for the second one. -/
def putAndGo (S : Session) : List Event :=
  [.peer { Mem.zero with
      desc := fun _ _ => ⟨S.clientBase txIdx, 11, 0, 0⟩
      avail := fun _ => ⟨1, fun _ => 0⟩ },
    .kick (S.kickfd txIdx) 8, .poll, .hangup 11, .accept 12]

/-- The first client sets up both rings. -/
def wholeClient (S : Session) : List Event :=
  .accept 11 :: ((S.setupMsgs.flatMap fun msg => [.message 11 msg S.maps, .poll]) ++ putAndGo S)

/-- The first client sets up its TX ring only. -/
def halfClient (S : Session) : List Event :=
  .accept 11 :: .message 11 S.memTable S.maps ::
    ((S.txMsgs.flatMap fun msg => [.message 11 msg S.maps, .poll]) ++ putAndGo S)

/-- A server that some events have left so, when the second client has laid out its rings. -/
theorem served_demo {es : List Event} {buf : List UInt8} {d : UInt64} {b : Bool}
    (h : leftAfter 1 ⟨newVhostServer 10 true, [], Mem.zero⟩ es 12 = some (buf, d, b, true)) :
    ∃ w, Served 1 w ∧ w.mem = second.layout Mem.zero ∧ w.context.packet = buf ∧
      (w.vring rxIdx).desc = d ∧ w.server.isPolling = b ∧
      w.server.fdList.Registered 12 .receiveSockServer := by
  unfold leftAfter at h
  split at h
  · rename_i w hrun
    have hserved : Served 1 w := ⟨10, true, [], Mem.zero, es, hrun⟩
    have heq := Option.some.inj h
    refine ⟨_, hserved.peer (second.layout Mem.zero), rfl, congrArg Prod.fst heq,
      congrArg (fun v => v.2.1) heq, congrArg (fun v => v.2.2.1) heq, ?_⟩
    exact of_decide_eq_true (congrArg (fun v => v.2.2.2) heq)
  · cases h

theorem bufferSize_eq_zero_iff (w : World) :
    w.context.bufferSize = 0 ↔ w.context.packet = [] := by
  rw [ServerContext.packet, List.map_eq_nil_iff, List.range_eq_nil, ← UInt32.toNat_inj]
  rfl

/-- The second client comes after one that has used both rings. -/
theorem later_session_carries_demo : ∃ w w', Served 1 w ∧
    (execAll 1 w (second.setupMsgs.flatMap fun msg => [.message 12 msg second.maps, .poll])).out =
      .ret w' ∧
    Start (second.txEnvBeside w.space) (second.txState w') ∧
    Start (second.rxEnvBeside w.space) (second.rxState w') ∧
    Carries (second.txEnvBeside w.space) (second.txState w') ∧
    Carries (second.rxEnvBeside w.space) (second.rxState w') := by
  have hleft : leftAfter 1 ⟨newVhostServer 10 true, [], Mem.zero⟩ (wholeClient .demo) 12 =
    some ([], Session.demo.serverBase rxIdx + 8, false, true) := by decide +kernel
  obtain ⟨w, hserved, hlaid, hpacket, -, hmode, hconn⟩ := served_demo hleft
  have hease : w.AtEase := ⟨(bufferSize_eq_zero_iff w).mpr hpacket, hmode⟩
  obtain ⟨w', h⟩ := later_session_carries second hserved hlaid hease (by decide) hconn
    (turns_each 12 second.maps second.setupMsgs)
  exact ⟨w, w', hserved, h⟩

/-- The second client takes the packet of the first one, who had no RX ring. -/
theorem leftover_reaches_next_client_demo : ∃ w w', Served 1 w ∧
    (execAll 1 w (second.setupMsgs.flatMap fun msg => [.message 12 msg second.maps, .poll])).out =
      .ret w' ∧
    w'.context.bufferSize = 0 ∧ second.Hands w w' [0] := by
  have hleft : leftAfter 1 ⟨newVhostServer 10 true, [], Mem.zero⟩ (halfClient .demo) 12 =
    some ([0], 0, false, true) := by decide +kernel
  obtain ⟨w, hserved, hlaid, hpacket, hnone, -, hconn⟩ := served_demo hleft
  obtain ⟨w', hrun, hempty, hhands⟩ := leftover_reaches_next_client 1 hserved hlaid hnone
    (by decide) hconn (turns_each 12 second.maps second.setupMsgs)
  have hsize : w.context.bufferSize ≠ 0 := by
    rw [Ne, bufferSize_eq_zero_iff, hpacket]
    exact nofun
  rw [hpacket] at hhands
  exact ⟨w, w', hserved, hrun, hempty, hhands hsize⟩

end Session
end Vapp
