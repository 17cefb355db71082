import Vapp.RingCalls
import Vapp.ServerSteps
import Vapp.SessionRings

/-! # The loops of both programs

The client sends the messages of `init_vhost_client` and then puts packets and kicks; the
server runs the passes of `loop_server`.  A pass is taken apart into the `select`, the slots
of the descriptor list, the turns of `process_avail_vring` and `poll_server`, so that the
steps of the client may fall anywhere in it.
-/
namespace Vapp

/-! ### The kick descriptor -/

/-- The largest value of an `eventfd` counter. -/
def eventfdMax : Nat := 2 ^ 64 - 2

/-- `write` of `1`; the descriptor does not block, and `kick` ignores that it failed. -/
def eventfdWrite (n : Nat) : Nat := if n < eventfdMax then n + 1 else n

theorem eventfdWrite_ne_zero (n : Nat) : eventfdWrite n ≠ 0 := by
  have hmax : 0 < eventfdMax := by decide
  rw [eventfdWrite]
  split <;> omega

/-! ### The state of both loops -/

/-- Where `loop_server` is: between two passes, in `process_fd_set` at the slot `k` with the
descriptors that `select` left in the set, in front of `poll_server`, or in front of the part
of it that forwards a packet. -/
inductive Stage where
  | idle
  | slots (ready : Int → Bool) (k : Nat)
  | poll
  | forward

/-- Both processes and what is between them.  `cursor` is the slot that a call of
`process_avail_vring` for the TX ring under way is at; the pass goes on at `stage` when it
returns.  The last five components are history: those of the TX ring, and the packets that
were put on the RX ring. -/
structure LoopState where
  client : VringTable Unit
  world : World
  cursor : Option UInt16
  stage : Stage
  /-- the messages that are still to be sent -/
  unsent : List ServerMsg
  /-- the messages in the socket -/
  queue : List ServerMsg
  /-- the client waits for a reply -/
  awaiting : Bool
  /-- the client has connected and was not accepted yet -/
  backlog : Bool
  conn : Option Int
  /-- the counter of the kick descriptor of the TX ring -/
  kicks : Nat
  /-- the client is between `put_vring` and `kick` -/
  mustKick : Bool
  sent : List (List UInt8)
  outcomes : List (Option HandlerCall)
  published : Nat
  seen : Nat
  placed : List (List UInt8)

/-- The messages that `vhost_ioctl` waits for a reply to. -/
def ServerMsg.asksReply (msg : ServerMsg) : Bool :=
  msg.msg.request = VhostUserRequest.getFeatures.word ∨
    msg.msg.request = VhostUserRequest.getVringBase.word

namespace LoopState
variable (S : Session) (s : LoopState)

def fdList : FdList := s.world.server.fdList

/-- The TX ring. -/
def tx : RingState Unit ServerContext where
  prod := s.client
  cons := s.world.server.table
  mem := s.world.mem
  cursor := s.cursor
  sent := s.sent
  outcomes := s.outcomes
  published := s.published
  seen := s.seen

/-- The RX ring, as far as the server uses it. -/
def rx : RingState ServerContext Unit where
  prod := s.world.server.table
  cons := s.client
  mem := s.world.mem
  cursor := none
  sent := s.placed
  outcomes := []
  published := 0
  seen := 0

/-- A `read` from the descriptor would not block. -/
def Readable (fd : Int) : Prop :=
  (fd = s.world.server.sock ∧ s.backlog = true) ∨ (s.conn = some fd ∧ s.queue ≠ []) ∨
    (fd = S.kickfd txIdx ∧ s.kicks ≠ 0)

instance (fd : Int) : Decidable (s.Readable S fd) := inferInstanceAs (Decidable (_ ∨ _ ∨ _))

/-- What `select` leaves in the set: the descriptors of the list that can be read. -/
def selected (fd : Int) : Bool :=
  fd ≠ -1 ∧ (s.fdList.findFdNode fd).isSome = true ∧ s.Readable S fd

/-- `process_fd_set` is at the slot `k`, which holds `node`, and the descriptor is in the
set. -/
structure Visits (ready : Int → Bool) (k : Nat) (node : FdNode) : Prop where
  stage : s.stage = .slots ready k
  cursor : s.cursor = none
  slot : ∃ h : k < fdListSize, s.fdList ⟨k, h⟩ = node
  ready : ready node.fd = true

/-- The client is done with `init_vhost_client`. -/
structure Running : Prop where
  sent : s.unsent = []
  awaiting : s.awaiting = false
  mustKick : s.mustKick = false

end LoopState

/-- The state when both programs have been started: the client has laid out its rings and
connected, and has sent nothing yet. -/
def Session.loopStart (S : Session) (sock : Int) (m : Mem) : LoopState where
  client := S.clientTable
  world := serverWorld sock (S.layout m)
  cursor := none
  stage := .idle
  unsent := S.setupMsgs
  queue := []
  awaiting := false
  backlog := true
  conn := none
  kicks := 0
  mustKick := false
  sent := []
  outcomes := []
  published := 0
  seen := 0
  placed := []

/-! ### The steps -/

/-- What the client does, and the parts of a pass of the server. -/
inductive LoopLabel where
  | send
  | put (buf : List UInt8)
  | kick
  | reclaim
  | select
  | skip
  | accept (sock : Int)
  | receive
  | readKick
  | serve
  | leave
  | endSlots
  | poll
  | forward
  deriving DecidableEq, Repr

/-- One step of either program.  Every step is a call, or a part of one, that returned. -/
inductive LoopStep (S : Session) : LoopState → LoopLabel → LoopState → Prop
  /-- `vhost_ioctl` sends the next message of `init_vhost_client` -/
  | send {s : LoopState} {msg : ServerMsg} {rest : List ServerMsg} (h : s.unsent = msg :: rest)
      (hfree : s.awaiting = false) :
      LoopStep S s .send
        { s with unsent := rest, queue := s.queue ++ [msg], awaiting := msg.asksReply }
  /-- the `put_vring` of `send_packet`, which kicks only if it returned `0` -/
  | put {s : LoopState} {buf : List UInt8} {r : Int} {t : VringTable Unit} {m : Mem}
      (hrun : s.Running)
      (h : putVring (regionSpace S.clientBase) s.client txIdx buf s.world.mem = .ret (r, t, m)) :
      LoopStep S s (.put buf)
        { s with
          client := t
          world := { s.world with mem := m }
          sent := if r = 0 then s.sent ++ [buf] else s.sent
          mustKick := r = 0 }
  | kick {s : LoopState} (h : s.mustKick = true) :
      LoopStep S s .kick { s with kicks := eventfdWrite s.kicks, mustKick := false }
  /-- `process_used_vring` in `poll_client` -/
  | reclaim {s : LoopState} {fuel : Nat} {u : UsedLoop Unit} (hrun : s.Running)
      (h : processUsedVring (regionSpace S.clientBase) fuel s.client txIdx s.world.mem = .ret u) :
      LoopStep S s .reclaim
        { s with client := u.table, world := { s.world with mem := u.mem }, seen := s.published }
  /-- a pass begins with `select` -/
  | select {s : LoopState} (h : s.stage = .idle) :
      LoopStep S s .select { s with stage := .slots (s.selected S) 0 }
  /-- a slot whose descriptor is not in the set -/
  | skip {s : LoopState} {ready : Int → Bool} {k : Nat} (h : s.stage = .slots ready k)
      (hcur : s.cursor = none) (hk : k < fdListSize) (hout : ready (s.fdList ⟨k, hk⟩).fd = false) :
      LoopStep S s .skip { s with stage := .slots ready (k + 1) }
  /-- `accept_sock_server` -/
  | accept {s : LoopState} {ready : Int → Bool} {k : Nat} {fd sock : Int}
      (h : s.Visits ready k ⟨fd, some .acceptSockServer⟩) :
      LoopStep S s (.accept sock)
        { s with
          world := s.world.setFdList (s.fdList.addFdList sock .receiveSockServer).2
          backlog := false
          conn := some sock
          stage := .slots ready (k + 1) }
  /-- `receive_sock_server` takes one message, and replies if the handler says so -/
  | receive {s : LoopState} {ready : Int → Bool} {k : Nat} {fd r : Int} {msg msg' : ServerMsg}
      {rest : List ServerMsg} {w : World} (h : s.Visits ready k ⟨fd, some .receiveSockServer⟩)
      (hconn : s.conn = some fd) (hqueue : s.queue = msg :: rest)
      (hcall : (inMsgServer S.maps s.world msg).out = .ret (r, msg', w)) :
      LoopStep S s .receive
        { s with
          world := w
          queue := rest
          awaiting := if 0 < r then false else s.awaiting
          stage := .slots ready (k + 1) }
  /-- the `read` of `_kick_server` fails on a counter of `0` -/
  | unkicked {s : LoopState} {ready : Int → Bool} {k : Nat}
      (h : s.Visits ready k ⟨S.kickfd txIdx, some .kickServer⟩) (hkicks : s.kicks = 0) :
      LoopStep S s .readKick { s with stage := .slots ready (k + 1) }
  /-- the counter is read, but the TX ring is not set up -/
  | dropped {s : LoopState} {ready : Int → Bool} {k : Nat}
      (h : s.Visits ready k ⟨S.kickfd txIdx, some .kickServer⟩) (hkicks : s.kicks ≠ 0)
      (hdesc : (s.world.vring txIdx).desc = 0) :
      LoopStep S s .readKick { s with kicks := 0, stage := .slots ready (k + 1) }
  /-- the counter is read, and `process_avail_vring` is entered -/
  | kicked {s : LoopState} {ready : Int → Bool} {k : Nat} {a : UInt16}
      (h : s.Visits ready k ⟨S.kickfd txIdx, some .kickServer⟩) (hkicks : s.kicks ≠ 0)
      (hdesc : (s.world.vring txIdx).desc ≠ 0)
      (henter : availEnter s.world.server.table txIdx = .ret a) :
      LoopStep S s .readKick
        { s with kicks := 0, cursor := some a, stage := .slots ready (k + 1) }
  | serve {s : LoopState} {a : UInt16} {fuel : Nat} {r : AvailTurn ServerContext}
      (hcur : s.cursor = some a)
      (h : availTurn s.world.space fuel s.world.server.table txIdx a s.world.mem =
        .ret (some r)) :
      LoopStep S s .serve
        { s with
          world := { s.world.setTable r.table with mem := r.mem }
          cursor := some r.aIdx
          outcomes := s.outcomes ++ [r.call] }
  | leave {s : LoopState} {a : UInt16} {fuel : Nat} {m : Mem} (hcur : s.cursor = some a)
      (h : availTurn s.world.space fuel s.world.server.table txIdx a s.world.mem = .ret none)
      (hidx : availLeave s.world.space s.world.server.table txIdx s.world.mem = .ret m) :
      LoopStep S s .leave
        { s with
          world := { s.world with mem := m }
          cursor := none
          published := s.outcomes.length }
  | endSlots {s : LoopState} {ready : Int → Bool} (h : s.stage = .slots ready fdListSize)
      (hcur : s.cursor = none) : LoopStep S s .endSlots { s with stage := .poll }
  /-- `poll_server` does nothing before the RX ring is set up -/
  | pollUnset {s : LoopState} (h : s.stage = .poll) (hcur : s.cursor = none)
      (hdesc : (s.world.vring rxIdx).desc = 0) :
      LoopStep S s .poll { s with stage := .idle }
  /-- it leaves the TX ring to the kicks -/
  | pollQuiet {s : LoopState} (h : s.stage = .poll) (hcur : s.cursor = none)
      (hdesc : (s.world.vring rxIdx).desc ≠ 0)
      (hquiet : s.world.server.isPolling = false ∨ (s.world.vring txIdx).desc = 0) :
      LoopStep S s .poll { s with stage := .forward }
  /-- it polls the TX ring -/
  | pollEnter {s : LoopState} {a : UInt16} (h : s.stage = .poll) (hcur : s.cursor = none)
      (hdesc : (s.world.vring rxIdx).desc ≠ 0) (hpolling : s.world.server.isPolling = true)
      (hset : (s.world.vring txIdx).desc ≠ 0)
      (henter : availEnter s.world.server.table txIdx = .ret a) :
      LoopStep S s .poll { s with cursor := some a, stage := .forward }
  /-- the private buffer is empty -/
  | forwardNone {s : LoopState} (h : s.stage = .forward) (hcur : s.cursor = none)
      (hempty : s.world.context.bufferSize = 0) : LoopStep S s .forward { s with stage := .idle }
  /-- the packet in it is put on the RX ring -/
  | forward {s : LoopState} {r : Int} {t : VringTable ServerContext} {m : Mem}
      (h : s.stage = .forward) (hcur : s.cursor = none)
      (hfull : s.world.context.bufferSize ≠ 0)
      (hput : putVring s.world.space s.world.server.table rxIdx s.world.context.packet
        s.world.mem = .ret (r, t, m)) :
      LoopStep S s .forward
        { s with
          world := { s.world.setTable
            { t with context := { t.context with bufferSize := 0 } } with mem := m }
          stage := .idle
          placed := if r = 0 then s.placed ++ [s.world.context.packet] else s.placed }

/-! ### Whole calls

A kick and a poll with no step of the client in between are what `_kick_server` and
`poll_server` do. -/

section Calls
variable {S : Session} {s : LoopState} {w : World} {fuel : Nat}

/-- The TX ring as it is in a state of the ring alone. -/
def LoopState.withTx (s : LoopState) (t : RingState Unit ServerContext) : LoopState :=
  { s with
    client := t.prod
    world := { s.world.setTable t.cons with mem := t.mem }
    cursor := t.cursor
    sent := t.sent
    outcomes := t.outcomes
    published := t.published
    seen := t.seen }

/-- Where the two parties find the TX ring now. -/
def LoopState.txEnv (S : Session) (s : LoopState) : RingEnv :=
  { S.txEnv with consSpace := s.world.space }

/-- The turns of the ring are steps of the loop. -/
theorem LoopStep.of_serve {t u : RingState Unit ServerContext}
    (h : RingStep (s.txEnv S) t .serve u) : LoopStep S (s.withTx t) .serve (s.withTx u) := by
  cases h with
  | serve hcur hturn => exact .serve (s := s.withTx _) hcur hturn

theorem LoopStep.of_leave {t u : RingState Unit ServerContext}
    (h : RingStep (s.txEnv S) t .leave u) : LoopStep S (s.withTx t) .leave (s.withTx u) := by
  cases h with
  | leave hcur hturn hidx => exact .leave (s := s.withTx _) hcur hturn hidx

/-- A call of `process_avail_vring` for the TX ring. -/
theorem run_of_pollAvailVring (hcur : s.cursor = none) (hdesc : (s.world.vring txIdx).desc ≠ 0)
    (h : (pollAvailVring fuel s.world txIdx).out = .ret w) :
    ∃ a ls t, availEnter s.world.server.table txIdx = .ret a ∧
      Transition.Run (LoopStep S) { s with cursor := some a } ls (s.withTx t) ∧
      (s.withTx t).world = w ∧ t.cursor = none := by
  obtain ⟨c, hcall, rfl⟩ := ((pollAvailVring_cases h).resolve_right fun hn => hdesc hn.1).2
  obtain ⟨os, hall, -, -⟩ := run_of_processAvailVring (E := s.txEnv S) (s := s.tx) hcur hcall
  have hparts : Transition.Run (RingStep (s.txEnv S)) s.tx
      ([.enter] ++ (List.replicate os.length .serve ++ [.leave])) _ := hall
  obtain ⟨t1, henter, hrun⟩ := hparts.split
  obtain ⟨t2, hserve, hleave⟩ := hrun.split
  have hturns : ∀ n t, Transition.Run (RingStep (s.txEnv S)) t1 (List.replicate n .serve) t →
      Transition.Run (LoopStep S) (s.withTx t1) (List.replicate n .serve) (s.withTx t) := by
    intro n
    induction n with
    | zero =>
        intro t ht
        rw [ht.eq_of_nil]
        exact .nil
    | succ n ih =>
        intro t ht
        rw [List.replicate_succ'] at ht ⊢
        obtain ⟨u, hu, hlast⟩ := ht.split
        exact (ih u hu).snoc (.of_serve hlast.of_singleton)
  cases henter.of_singleton with
  | enter _ ha =>
      exact ⟨_, _, _, ha, (hturns _ _ hserve).snoc (.of_leave hleave.of_singleton), rfl, rfl⟩

/-- **`_kick_server`** on a counter that is not zero. -/
theorem run_of_kickServer {ready : Int → Bool} {k : Nat}
    (hvisit : s.Visits ready k ⟨S.kickfd txIdx, some .kickServer⟩) (hkicks : s.kicks ≠ 0)
    (h : (kickServer fuel s.world (S.kickfd txIdx) 8).out = .ret w) :
    ∃ ls t, Transition.Run (LoopStep S) s (.readKick :: ls) t ∧ t.world = w ∧ t.kicks = 0 ∧
      t.cursor = none ∧ t.stage = .slots ready (k + 1) := by
  rw [kickServer, if_neg (by decide), if_neg (by decide)] at h
  rcases pollAvailVring_cases h with ⟨hdesc, -⟩ | ⟨hdesc, rfl⟩
  · obtain ⟨a, ls, t, ha, hrun, hw, hcur⟩ := run_of_pollAvailVring (S := S)
      (s := { s with kicks := 0, stage := .slots ready (k + 1) }) hvisit.cursor hdesc h
    exact ⟨ls, _, (Transition.Run.one (.kicked hvisit hkicks hdesc ha)).append hrun, hw, rfl,
      hcur, rfl⟩
  · exact ⟨[], _, .one (.dropped hvisit hkicks hdesc), rfl, rfl, hvisit.cursor, rfl⟩

/-- The part of `poll_server` that forwards the packet. -/
theorem LoopStep.of_pollRx (hstage : s.stage = .forward) (hcur : s.cursor = none)
    (h : (pollRx s.world).out = .ret w) :
    ∃ t, LoopStep S s .forward t ∧ t.world = w ∧ t.cursor = none ∧ t.stage = .idle := by
  rcases pollRx_cases h with ⟨hsize, r, t, m, hput, rfl⟩ | ⟨hsize, rfl⟩
  · exact ⟨_, .forward hstage hcur hsize hput, rfl, hcur, rfl⟩
  · exact ⟨_, .forwardNone hstage hcur hsize, rfl, hcur, rfl⟩

/-- **`poll_server`**. -/
theorem run_of_pollServer (hstage : s.stage = .poll) (hcur : s.cursor = none)
    (h : (pollServer fuel s.world).out = .ret w) :
    ∃ ls t, Transition.Run (LoopStep S) s (.poll :: ls) t ∧ t.world = w ∧ t.cursor = none ∧
      t.stage = .idle := by
  rcases pollServer_cases h with ⟨hrx, w1, htx, hforward⟩ | ⟨hrx, rfl⟩
  · -- the TX ring is polled, or it is left alone
    have hpoll : ∃ ls t, Transition.Run (LoopStep S) s (.poll :: ls) t ∧ t.world = w1 ∧
        t.cursor = none ∧ t.stage = .forward := by
      rcases pollTx_cases htx with ⟨hpolling, htx⟩ | ⟨hoff, rfl⟩
      · rcases pollAvailVring_cases htx with ⟨hdesc, -⟩ | ⟨hdesc, rfl⟩
        · obtain ⟨a, ls, t, ha, hrun, hw, hcur'⟩ := run_of_pollAvailVring (S := S)
            (s := { s with stage := .forward }) hcur hdesc htx
          exact ⟨ls, _, (Transition.Run.one
            (.pollEnter hstage hcur hrx hpolling hdesc ha)).append hrun, hw, hcur', rfl⟩
        · exact ⟨[], _, .one (.pollQuiet hstage hcur hrx (.inr hdesc)), rfl, hcur, rfl⟩
      · exact ⟨[], _, .one (.pollQuiet hstage hcur hrx (.inl hoff)), rfl, hcur, rfl⟩
    obtain ⟨ls, t, hrun, hw, hcur', hstage'⟩ := hpoll
    rw [← hw] at hforward
    obtain ⟨u, hstep, hw', hcur'', hidle⟩ := LoopStep.of_pollRx (S := S) hstage' hcur' hforward
    have hall := hrun.snoc hstep
    rw [List.cons_append] at hall
    exact ⟨_, u, hall, hw', hcur'', hidle⟩
  · exact ⟨[], _, .one (.pollUnset hstage hcur hrx), rfl, hcur, rfl⟩

/-- Slots whose descriptors are not in the set, in a system that allows to skip them. -/
theorem run_skips {step : LoopState → LoopLabel → LoopState → Prop}
    (hle : ∀ {s t : LoopState}, LoopStep S s .skip t → step s .skip t) {ready : Int → Bool}
    (n : Nat) : ∀ {j : Nat}, s.stage = .slots ready j → s.cursor = none → j + n ≤ fdListSize →
    (∀ i : Fin fdListSize, j ≤ i → i < j + n → ready (s.fdList i).fd = false) →
    Transition.Run step s (List.replicate n .skip) { s with stage := .slots ready (j + n) } := by
  induction n with
  | zero =>
      intro j hstage _ _ _
      rw [Nat.add_zero, ← hstage]
      exact .nil
  | succ n ih =>
      intro j hstage hcur hle' hout
      have hstep : LoopStep S { s with stage := .slots ready (j + n) } .skip
          { s with stage := .slots ready (j + n + 1) } :=
        .skip (s := { s with stage := .slots ready (j + n) }) rfl hcur (by omega)
          (hout ⟨j + n, by omega⟩ (Nat.le_add_right _ _) (by
            show j + n < j + (n + 1)
            omega))
      rw [List.replicate_succ']
      exact (ih hstage hcur (by omega) fun i hi hi' => hout i hi (by omega)).snoc (hle hstep)

end Calls

end Vapp
