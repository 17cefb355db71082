import Vapp.Ioctl
import Vapp.ServerCalls

/-! # What the handlers read of a message

The encoder, the size field, the receive path and the handler have to agree on which bytes
of a message are sent.  They do, request by request, but for one: `vhost_ioctl` sends
`VHOST_USER_GET_VRING_BASE` without the ring index that `_get_vring_base` reads.
-/
namespace Vapp

open LittleEndian

/-- The fields and descriptors that a handler reads. -/
inductive HandlerInput where
  | nothing
  | state (state : VhostVringState)
  | index (index : UInt32)
  | addr (addr : VhostVringAddr)
  | table (regions : List (VhostUserMemoryRegion × Int)) (fdNum : Nat)
  | file (u : UInt64) (fds : List Int)
  deriving DecidableEq, Repr

/-- What the handler of a request reads of a message. -/
def handlerInput (msg : ServerMsg) : VhostUserRequest → HandlerInput
  | .setMemTable =>
      .table ((List.range msg.msg.payload.nregions.toNat).map fun i =>
        (msg.msg.payload.region i, msg.fds i)) msg.fdNum
  | .setVringNum | .setVringBase => .state msg.msg.payload.state
  | .setVringAddr => .addr msg.msg.payload.addr
  | .getVringBase => .index msg.msg.payload.state.index
  | .setVringKick | .setVringCall =>
      .file msg.msg.payload.u64 ((List.range msg.fdNum).map msg.fds)
  | _ => .nothing

/-- What the argument of a call of `vhost_ioctl` says of these fields. -/
def Ioctl.argument (shmFds : Nat → Int) : Ioctl → HandlerInput
  | .setMemTable memory =>
      .table ((List.range memory.nregions.toNat).map fun i => (memory.regions i, shmFds i))
        memory.nregions.toNat
  | .setVringNum state | .setVringBase state => .state state
  | .setVringAddr addr => .addr addr
  | .getVringBase state => .index state.index
  | .setVringKick file | .setVringCall file =>
      .file file.index.toUInt64 (if 0 ≤ file.fd then [file.fd] else [])
  | _ => .nothing

/-! ### The handlers read nothing else -/

section Congruence
variable {msg msg' : ServerMsg} {maps : Nat → Option MapResult}

theorem setMemTableLoop_congr (hnum : msg.fdNum = msg'.fdNum) (todo : Nat) :
    ∀ (idx : Nat) (w : World),
      (∀ i, idx ≤ i → i < idx + todo →
        msg.msg.payload.region i = msg'.msg.payload.region i ∧ msg.fds i = msg'.fds i) →
      setMemTableLoop msg maps todo idx w = setMemTableLoop msg' maps todo idx w := by
  induction todo with
  | zero => exact fun _ _ _ => rfl
  | succ todo ih =>
      intro idx w h
      obtain ⟨hregion, hfd⟩ := h idx (Nat.le_refl idx) (by omega)
      have hturn : setMemTableTurn msg (maps idx) idx w =
          setMemTableTurn msg' (maps idx) idx w := by
        simp only [setMemTableTurn, hregion, hfd, hnum]
      rw [setMemTableLoop, setMemTableLoop, hturn]
      exact congrArg (setMemTableTurn msg' (maps idx) idx w >>= ·)
        (funext fun w => ih (idx + 1) w fun i hi hi' => h i (by omega) (by omega))

/-- The number of descriptors, and the first one if it is the only one. -/
theorem fds_of_list
    (h : (List.range msg.fdNum).map msg.fds = (List.range msg'.fdNum).map msg'.fds) :
    msg.fdNum = msg'.fdNum ∧ (msg'.fdNum = 1 → msg.fds 0 = msg'.fds 0) := by
  have hn : msg.fdNum = msg'.fdNum := by
    have := congrArg List.length h
    rwa [List.length_map, List.length_map, List.length_range, List.length_range] at this
  refine ⟨hn, fun h1 => ?_⟩
  rw [hn, h1] at h
  exact List.head_eq_of_cons_eq h

/-- The result and the new state of a call. -/
def outcome (x : Call (Int × ServerMsg × World)) : Run (Int × World) := do
  let (r, _, w) ← x.out
  return (r, w)

/-- The two handlers of event descriptors read the first descriptor only if it is the only
one. -/
theorem fileHandler_congr {u : UInt64} (hn : msg.fdNum = msg'.fdNum)
    (hfd : msg'.fdNum = 1 → msg.fds 0 = msg'.fds 0) (f : RingIdx → Option Int → World) :
    outcome (do
      let (i, validfd) ← Traced.lift (kickIndex u)
      if validfd then
        let _ ← Traced.lift (Outcome.require (msg.fdNum = 1) .assertion)
        return (0, msg, f i (some (msg.fds 0)))
      else
        return (0, msg, f i none)) =
    outcome (do
      let (i, validfd) ← Traced.lift (kickIndex u)
      if validfd then
        let _ ← Traced.lift (Outcome.require (msg'.fdNum = 1) .assertion)
        return (0, msg', f i (some (msg'.fds 0)))
      else
        return (0, msg', f i none)) := by
  rw [hn]
  rcases kickIndex u with ⟨i, _ | _⟩ | _ | _
  · rfl
  · by_cases h1 : msg'.fdNum = 1
    · simp only [hfd h1, Outcome.require_pos h1]
      rfl
    · simp only [Outcome.require_neg h1]
      rfl
  · rfl
  · rfl

/-- **What a handler does is decided by the fields that it reads.** -/
theorem msgHandler_congr {r : VhostUserRequest} (h : handlerInput msg r = handlerInput msg' r)
    (w : World) : outcome (msgHandler maps r w msg) = outcome (msgHandler maps r w msg') := by
  cases r with
  | setMemTable =>
      obtain ⟨hlist, hnum⟩ := HandlerInput.table.inj h
      have hn : msg.msg.payload.nregions.toNat = msg'.msg.payload.nregions.toNat := by
        have := congrArg List.length hlist
        rwa [List.length_map, List.length_map, List.length_range, List.length_range] at this
      have hloop : ∀ w, setMemTableLoop msg maps msg.msg.payload.nregions.toNat 0 w =
          setMemTableLoop msg' maps msg'.msg.payload.nregions.toNat 0 w := by
        intro w
        rw [← hn]
        rw [← hn] at hlist
        refine setMemTableLoop_congr hnum _ 0 w fun i _ hi => ?_
        have := List.map_inj_left.mp hlist i (List.mem_range.mpr (by omega))
        exact Prod.mk.inj this
      simp only [msgHandler, setMemTable, hloop]
      cases setMemTableLoop msg' maps msg'.msg.payload.nregions.toNat 0 _ <;> rfl
  | setVringNum =>
      simp only [msgHandler, setVringNum, HandlerInput.state.inj h]
      cases ringIndex msg'.msg.payload.state.index <;> rfl
  | setVringBase =>
      simp only [msgHandler, setVringBase, HandlerInput.state.inj h]
      cases ringIndex msg'.msg.payload.state.index <;> rfl
  | setVringAddr =>
      simp only [msgHandler, setVringAddr, HandlerInput.addr.inj h]
      cases ringIndex msg'.msg.payload.addr.index with
      | ret i =>
          simp only [Traced.lift_ret_bind, Traced.act_bind, outcome]
          cases loadUsedIdx w.space w.mem
            (mapUserAddr w.context.memory msg'.msg.payload.addr.usedUserAddr) <;> rfl
      | fault e => rfl
      | spent => rfl
  | getVringBase =>
      simp only [msgHandler, getVringBase, HandlerInput.index.inj h]
      cases ringIndex msg'.msg.payload.state.index <;> rfl
  | setVringKick =>
      obtain ⟨hu, hfds⟩ := HandlerInput.file.inj h
      obtain ⟨hn, hfd⟩ := fds_of_list hfds
      rw [msgHandler, setVringKick, setVringKick, hu]
      exact fileHandler_congr hn hfd w.setKick
  | setVringCall =>
      obtain ⟨hu, hfds⟩ := HandlerInput.file.inj h
      obtain ⟨hn, hfd⟩ := fds_of_list hfds
      rw [msgHandler, setVringCall, setVringCall, hu]
      exact fileHandler_congr hn hfd w.setCall
  | _ => rfl

end Congruence

/-! ### What arrives -/

section Arrived
variable (m : VhostUserMsg) (fds : List Int) (old : ServerMsg) {off : Nat}

theorem u32At_arrived (h : off + 4 ≤ m.size.toNat) :
    (arrived m fds old).msg.payload.u32At off = m.payload.u32At off :=
  congrArg UInt32.ofNat (read_congr 4 fun i _ hi => if_pos (by omega))

theorem u64At_arrived (h : off + 8 ≤ m.size.toNat) :
    (arrived m fds old).msg.payload.u64At off = m.payload.u64At off :=
  congrArg UInt64.ofNat (read_congr 8 fun i _ hi => if_pos (by omega))

theorem state_arrived (h : 8 ≤ m.size.toNat) :
    (arrived m fds old).msg.payload.state = m.payload.state := by
  rw [Payload.state, u32At_arrived m fds old (by omega), u32At_arrived m fds old (by omega)]
  rfl

theorem addr_arrived (h : 40 ≤ m.size.toNat) :
    (arrived m fds old).msg.payload.addr = m.payload.addr := by
  simp (disch := omega) only [Payload.addr, u32At_arrived, u64At_arrived]

theorem region_arrived {i : Nat} (h : 8 + 32 * (i + 1) ≤ m.size.toNat) :
    (arrived m fds old).msg.payload.region i = m.payload.region i := by
  simp (disch := omega) only [Payload.region, u64At_arrived]

/-- Where no payload is sent, the handler reads what the stack held. -/
theorem state_arrived_of_empty (h : m.size.toNat = 0) :
    (arrived m fds old).msg.payload.state = old.msg.payload.state := by
  have hbyte : (arrived m fds old).msg.payload = old.msg.payload :=
    funext fun i => if_neg (by omega)
  rw [hbyte]

end Arrived

/-! ### The argument of the caller -/

section Argument
variable {shmFds : Nat → Int}

theorem nregions_payload (memory : VhostUserMemory) :
    memory.payload.nregions = memory.nregions := by
  rw [VhostUserMemory.payload, Payload.nregions, Payload.u32At_setU32_of_ne _ (by decide)]
  refine (nregions_foldl _ _ _).trans ?_
  exact Payload.u32At_setU32 0 _

theorem region_payload (memory : VhostUserMemory) {i : Nat} (h : i < vhostMemoryMaxNregions) :
    memory.payload.region i = memory.regions i := by
  rw [← region_foldl memory.regions (zeroPayload.setU32 0 memory.nregions) _ h]
  simp (disch := omega) only [VhostUserMemory.payload, memoryPayload, Payload.region,
    Payload.u64At_setU32_of_ne]

/-- The memory table arrives whole, each region with its descriptor. -/
theorem handlerInput_memTable {memory : VhostUserMemory}
    (h : memory.nregions.toNat ≤ vhostMemoryMaxNregions) (old : ServerMsg) :
    handlerInput (arrived ((Ioctl.setMemTable memory).msg shmFds)
        ((Ioctl.setMemTable memory).fds shmFds) old) .setMemTable =
      (Ioctl.setMemTable memory).argument shmFds := by
  have hsize : ((Ioctl.setMemTable memory).msg shmFds).size.toNat =
      8 + 32 * memory.nregions.toNat := Ioctl.tableSize_toNat h
  have hnregions : (arrived ((Ioctl.setMemTable memory).msg shmFds)
      ((Ioctl.setMemTable memory).fds shmFds) old).msg.payload.nregions = memory.nregions :=
    (u32At_arrived _ _ old (by omega)).trans (nregions_payload memory)
  have hlen : ((Ioctl.setMemTable memory).fds shmFds).length = memory.nregions.toNat := by
    rw [Ioctl.fds, Ioctl.body, List.length_map, List.length_range]
  rw [handlerInput, hnregions, Ioctl.argument]
  refine congr (congrArg HandlerInput.table (List.map_congr_left fun i hi => ?_)) hlen
  have hi := List.mem_range.mp hi
  refine Prod.ext ?_ ?_
  · exact (region_arrived _ _ old (by omega)).trans (region_payload memory (by omega))
  · show (((List.range memory.nregions.toNat).map shmFds)[i]?).getD _ = _
    rw [List.getElem?_map, List.getElem?_range hi]
    rfl

/-- The requests from `VHOST_USER_GET_FEATURES` to `VHOST_USER_GET_VRING_BASE`. -/
def Ioctl.InRange (c : Ioctl) : Prop :=
  VhostUserRequest.getFeatures.word ≤ c.request.word ∧
    c.request.word ≤ VhostUserRequest.getVringBase.word

instance (c : Ioctl) : Decidable c.InRange := inferInstanceAs (Decidable (_ ∧ _))

/-- **Every field of the argument arrives**, except the index of
`VHOST_USER_GET_VRING_BASE`: there the handler reads what its stack held. -/
theorem handlerInput_arrived {c : Ioctl} (hrange : c.InRange) (hfits : c.TableFits)
    (old : ServerMsg) :
    handlerInput (arrived (c.msg shmFds) (c.fds shmFds) old) c.request = c.argument shmFds ↔
      ∀ state, c = .getVringBase state → old.msg.payload.state.index = state.index := by
  cases c with
  | setMemTable memory => exact iff_of_true (handlerInput_memTable hfits old) nofun
  | setVringNum state =>
      refine iff_of_true (congrArg HandlerInput.state ?_) nofun
      exact (state_arrived ((Ioctl.setVringNum state).msg shmFds) _ old (Nat.le_refl 8)).trans
        (Payload.state_setState state)
  | setVringBase state =>
      refine iff_of_true (congrArg HandlerInput.state ?_) nofun
      exact (state_arrived ((Ioctl.setVringBase state).msg shmFds) _ old (Nat.le_refl 8)).trans
        (Payload.state_setState state)
  | setVringAddr addr =>
      refine iff_of_true (congrArg HandlerInput.addr ?_) nofun
      exact (addr_arrived ((Ioctl.setVringAddr addr).msg shmFds) _ old (Nat.le_refl 40)).trans
        (Payload.addr_setAddr addr)
  | getVringBase state =>
      have hempty := state_arrived_of_empty ((Ioctl.getVringBase state).msg shmFds)
        ((Ioctl.getVringBase state).fds shmFds) old rfl
      show HandlerInput.index (arrived _ _ old).msg.payload.state.index = .index state.index ↔ _
      rw [hempty, HandlerInput.index.injEq]
      refine ⟨fun h s hs => ?_, fun h => h state rfl⟩
      cases hs
      exact h
  | none => exact absurd hrange (by decide)
  | setVringKick _ =>
      exact absurd hrange.2
        (by decide : ¬ VhostUserRequest.setVringKick.word ≤ VhostUserRequest.getVringBase.word)
  | setVringCall _ =>
      exact absurd hrange.2
        (by decide : ¬ VhostUserRequest.setVringCall.word ≤ VhostUserRequest.getVringBase.word)
  | setVringErr _ =>
      exact absurd hrange.2
        (by decide : ¬ VhostUserRequest.setVringErr.word ≤ VhostUserRequest.getVringBase.word)
  | _ => exact iff_of_true rfl nofun

end Argument

/-! ### The reply -/

/-- What the handler of a call that asks for a reply computes for its argument. -/
def Ioctl.answer (w : World) : Ioctl → Option Reply
  | .getFeatures => some (.features 0)
  | .getVringBase state =>
      if h : state.index.toNat < vhostClientVringNum then
        some (.base ⟨state.index, (w.vring ⟨state.index.toNat, h⟩).lastAvailIdx.toUInt32⟩)
      else
        Option.none
  | _ => Option.none

section Reply
variable {shmFds : Nat → Int} {maps : Nat → Option MapResult} {w w' : World} {c : Ioctl}
  {old msg : ServerMsg}

/-- What is stored comes from the eight bytes of the reply. -/
theorem replyOf_arrived {m : VhostUserMsg} (h : 8 ≤ m.size.toNat) (fds : List Int)
    (old : ServerMsg) : c.replyOf (arrived m fds old).msg.payload = c.replyOf m.payload := by
  cases c with
  | getFeatures => exact congrArg (fun u => some (Reply.features u)) (u64At_arrived m fds old h)
  | getVringBase _ => exact congrArg (fun s => some (Reply.base s)) (state_arrived m fds old h)
  | _ => rfl

/-- The client receives the reply and stores its payload. -/
theorem exchange_of_reply (hfits : c.TableFits) (hneed : c.needReply = true)
    (hcall : (inMsgServer maps w (arrived (c.msg shmFds) (c.fds shmFds) old)).out =
      .ret (1, msg, w'))
    (hrequest : msg.msg.request = c.request.word) (hflags : msg.msg.flags = vhostUserVersion)
    (hsize : msg.msg.size = 8) :
    exchange shmFds maps w c old = .ret (c.replyOf msg.msg.payload, w') := by
  have hrecv := Ioctl.receive_send shmFds hfits old []
  rw [List.append_nil] at hrecv
  have hsize' : msg.msg.asReply.size.toNat = 8 := congrArg UInt32.toNat hsize
  -- the reply carries eight bytes of payload and no descriptor
  have hreply : vhostUserRecvFds .whole 0 { c.msg shmFds with request := 0, flags := 0 }
      (fun _ => 0) (onWire msg.msg.asReply [] ++ []) = _ :=
    vhostUserRecvFds_whole (by rw [hsize']; decide) (Nat.le_refl 0) (by decide)
      (by rw [hsize']; decide) ⟨{ c.msg shmFds with request := 0, flags := 0 }, 0, fun _ => 0⟩
  rw [List.append_nil] at hreply
  have hstore : ∀ old, c.store (arrived msg.msg.asReply [] old).msg =
      .ret (c.replyOf msg.msg.payload) := by
    intro old
    have hversion : msg.msg.asReply.flags &&& Ioctl.versionMask = vhostUserVersion := by
      have hreplied : msg.msg.asReply.flags = _ :=
        congrArg (fun f => (f &&& ~~~Ioctl.versionMask ||| vhostUserVersion) |||
          Ioctl.replyMask) hflags
      rw [hreplied]
      decide
    have hstored := replyOf_arrived (c := c) (Nat.le_of_eq hsize'.symm) [] old
    simp only [Ioctl.store, arrived, VhostUserMsg.asReply] at hversion hstored ⊢
    simp only [hrequest, hversion, Outcome.require_pos, Outcome.ret_bind, hstored]
    rfl
  simp only [exchange, Ioctl.send_eq hfits, Outcome.ret_bind, hrecv, hcall, hneed, if_true,
    replyMsg, if_pos Int.one_pos]
  refine (congrArg (· >>= _) hreply).trans ?_
  rw [Outcome.ret_bind, hstore]
  rfl

/-- What `_get_vring_base` replies. -/
theorem getVringBase_out {i : RingIdx} (hi : ringIndex msg.msg.payload.state.index = .ret i) :
    (getVringBase w msg).out =
      .ret (1, { msg with msg := { msg.msg with
        payload := msg.msg.payload.setU32 4 (w.vring i).lastAvailIdx.toUInt32, size := 8 } },
        w) := by
  rw [getVringBase, hi]
  rfl

theorem state_setU32_num (p : Payload) (num : UInt32) :
    (p.setU32 4 num).state = ⟨p.state.index, num⟩ := by
  rw [Payload.state, Payload.u32At_setU32, Payload.u32At_setU32_of_ne _ (by decide)]
  rfl

/-- **Each reply stores what the handler computed for the argument.** -/
theorem exchange_answer (hfits : c.TableFits)
    (hindex : ∀ state, c = .getVringBase state → old.msg.payload.state.index = state.index)
    {a : Reply} (ha : c.answer w = some a) :
    exchange shmFds maps w c old = .ret (some a, w) := by
  cases c with
  | getFeatures =>
      cases ha
      have hcall : (inMsgServer maps w (arrived (Ioctl.getFeatures.msg shmFds)
          (Ioctl.getFeatures.fds shmFds) old)).out = _ := rfl
      rw [exchange_of_reply hfits rfl hcall rfl rfl rfl]
      exact congrArg (fun u => Outcome.ret (some (Reply.features u), w))
        (Payload.u64At_setU64 0 0)
  | getVringBase state =>
      have harrived := state_arrived_of_empty ((Ioctl.getVringBase state).msg shmFds)
        ((Ioctl.getVringBase state).fds shmFds) old rfl
      rw [Ioctl.answer] at ha
      split at ha
      · rename_i hlt
        cases ha
        have hi : ringIndex (arrived ((Ioctl.getVringBase state).msg shmFds)
            ((Ioctl.getVringBase state).fds shmFds) old).msg.payload.state.index =
            .ret ⟨state.index.toNat, hlt⟩ := by
          rw [harrived, hindex state rfl]
          exact dif_pos hlt
        rw [exchange_of_reply hfits rfl (getVringBase_out (w := w) hi) rfl rfl rfl]
        simp only [Ioctl.replyOf, state_setU32_num, harrived, hindex state rfl]
      · cases ha
  | _ => cases ha

end Reply

/-- The message of a call reaches its handler with the argument of the caller, and a reply
brings back what the handler computed for that argument; `old` is what the stack of the
server holds where the message is received. -/
structure Survives (shmFds : Nat → Int) (maps : Nat → Option MapResult) (w : World) (c : Ioctl)
    (old : ServerMsg) : Prop where
  input : ∃ m fds msg, c.send shmFds = .ret (m, fds) ∧
    receiveSockServer .whole old (onWire m fds) = .ret (.message msg, []) ∧
    VhostUserRequest.ofWord msg.msg.request = some c.request ∧
    handlerInput msg c.request = c.argument shmFds
  reply : ∀ a, c.answer w = some a → ∃ w', exchange shmFds maps w c old = .ret (some a, w')

/-- The handler finds the argument exactly if it finds the fields. -/
theorem survives_input_iff {shmFds : Nat → Int} {c : Ioctl} (hfits : c.TableFits)
    (old : ServerMsg) :
    (∃ m fds msg, c.send shmFds = .ret (m, fds) ∧
      receiveSockServer .whole old (onWire m fds) = .ret (.message msg, []) ∧
      VhostUserRequest.ofWord msg.msg.request = some c.request ∧
      handlerInput msg c.request = c.argument shmFds) ↔
    handlerInput (arrived (c.msg shmFds) (c.fds shmFds) old) c.request = c.argument shmFds := by
  have hrecv := Ioctl.receive_send shmFds hfits old []
  rw [List.append_nil] at hrecv
  constructor
  · rintro ⟨m, fds, msg, hsend, hmsg, -, h⟩
    rw [Ioctl.send_eq hfits] at hsend
    cases hsend
    rw [hrecv] at hmsg
    cases hmsg
    exact h
  · intro h
    exact ⟨_, _, _, Ioctl.send_eq hfits, hrecv, VhostUserRequest.ofWord_word _, h⟩

/-- **The payload of a request survives the wire**, except that
`VHOST_USER_GET_VRING_BASE` is answered for whatever index the stack of the server held. -/
theorem payload_survives_iff (shmFds : Nat → Int) (maps : Nat → Option MapResult) (w : World)
    (c : Ioctl) (hrange : c.InRange) (hfits : c.TableFits) (old : ServerMsg) :
    Survives shmFds maps w c old ↔
      ∀ state, c = .getVringBase state → old.msg.payload.state.index = state.index := by
  constructor
  · intro h
    exact (handlerInput_arrived hrange hfits old).mp ((survives_input_iff hfits old).mp h.input)
  · intro h
    refine ⟨?_, fun a ha => ⟨w, exchange_answer hfits h ha⟩⟩
    exact (survives_input_iff hfits old).mpr ((handlerInput_arrived hrange hfits old).mpr h)

/-- What the stack holds after `VHOST_USER_SET_VRING_CALL` for the TX ring. -/
def staleTx : ServerMsg := fileMsg .setVringCall 1 6

theorem payload_survives_iff_staleTx :
    Survives (fun _ => 0) (fun _ => none) ⟨newVhostServer 0 true, [], Mem.zero⟩
        (.getVringBase ⟨1, 0⟩) staleTx ↔
      ∀ state, Ioctl.getVringBase ⟨1, 0⟩ = .getVringBase state →
        staleTx.msg.payload.state.index = state.index :=
  payload_survives_iff _ _ _ (.getVringBase ⟨1, 0⟩) ⟨by decide, by decide⟩ trivial staleTx

/-- Asked for the base of the RX ring, the server answers with that of the TX ring. -/
theorem get_vring_base_answers_other_ring :
    ¬ Survives (fun _ => 0) (fun _ => none) ⟨newVhostServer 0 true, [], Mem.zero⟩
        (.getVringBase ⟨0, 0⟩) staleTx ∧
    ∀ (maps : Nat → Option MapResult) (w : World),
      exchange (fun _ => 0) maps w (.getVringBase ⟨0, 0⟩) staleTx =
        .ret (some (.base ⟨1, (w.vring txIdx).lastAvailIdx.toUInt32⟩), w) := by
  have hold : staleTx.msg.payload.state.index = 1 := by decide
  have harrived := state_arrived_of_empty ((Ioctl.getVringBase ⟨0, 0⟩).msg fun _ => 0)
    ((Ioctl.getVringBase ⟨0, 0⟩).fds fun _ => 0) staleTx rfl
  have hfits : (Ioctl.getVringBase ⟨0, 0⟩).TableFits := trivial
  have hrange : (Ioctl.getVringBase ⟨0, 0⟩).InRange := by decide
  constructor
  · intro h
    have hinput := (survives_input_iff hfits staleTx).mp h.input
    have := (handlerInput_arrived hrange hfits staleTx).mp hinput ⟨0, 0⟩ rfl
    rw [hold] at this
    exact absurd this (by decide)
  · intro maps w
    have hi : ringIndex (arrived ((Ioctl.getVringBase ⟨0, 0⟩).msg fun _ => 0)
        ((Ioctl.getVringBase ⟨0, 0⟩).fds fun _ => 0) staleTx).msg.payload.state.index =
        .ret txIdx := by
      rw [harrived, hold]
      rfl
    rw [exchange_of_reply hfits rfl (getVringBase_out (w := w) hi) rfl rfl rfl]
    simp only [Ioctl.replyOf, state_setU32_num, harrived, hold]

end Vapp
