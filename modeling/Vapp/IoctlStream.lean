import Vapp.FdSystem
import Vapp.Payloads
import Vapp.Library.Service

/-! # Calls of `vhost_ioctl` on one connection

The client does not wait for the server after a request that is not answered: several
messages may be on their way while the server still handles an earlier one, and kicks, polls
and other connections come in between.  The kernel answers every call as it likes.  While it
returns all that is asked for, the bytes on the connection carry the calls of a `Service`, so
that the client cannot tell this from calls that are handled one by one.
-/
namespace Vapp

/-- The requests for which a handler returns `1`. -/
def VhostUserRequest.answered : VhostUserRequest → Bool
  | getFeatures | getVringBase => true
  | _ => false

theorem Ioctl.needReply_eq (c : Ioctl) : c.needReply = c.request.answered := by
  cases c <;> rfl

section Handlers
variable {maps : Nat → Option MapResult} {w w' : World} {msg msg' : ServerMsg} {r : Int}

/-- **A handler asks for a reply exactly for these requests**, and leaves the message as a
reply to them: the header of the request, with eight bytes of payload. -/
theorem msgHandler_reply {req : VhostUserRequest}
    (h : (msgHandler maps req w msg).out = .ret (r, msg', w')) :
    (req.answered = true → r = 1 ∧ msg'.msg.request = msg.msg.request ∧
      msg'.msg.flags = msg.msg.flags ∧ msg'.msg.size = 8) ∧
    (req.answered = false → r = 0) := by
  cases req with
  | getFeatures =>
      cases h
      exact ⟨fun _ => ⟨rfl, rfl, rfl, rfl⟩, nofun⟩
  | getVringBase =>
      obtain ⟨i, hi, h⟩ := Traced.bind_out_eq_ret.mp h
      cases h
      exact ⟨fun _ => ⟨rfl, rfl, rfl, rfl⟩, nofun⟩
  | setMemTable =>
      obtain ⟨w1, hloop, h⟩ := Traced.bind_out_eq_ret.mp h
      cases h
      exact ⟨nofun, fun _ => rfl⟩
  | setVringNum =>
      obtain ⟨i, hi, h⟩ := Traced.bind_out_eq_ret.mp h
      cases h
      exact ⟨nofun, fun _ => rfl⟩
  | setVringAddr =>
      obtain ⟨i, hi, h⟩ := Traced.bind_out_eq_ret.mp h
      obtain ⟨_, _, h⟩ := Traced.bind_out_eq_ret.mp h
      obtain ⟨_, _, h⟩ := Traced.bind_out_eq_ret.mp h
      obtain ⟨idx, hidx, h⟩ := Traced.bind_out_eq_ret.mp h
      cases h
      exact ⟨nofun, fun _ => rfl⟩
  | setVringBase =>
      obtain ⟨i, hi, h⟩ := Traced.bind_out_eq_ret.mp h
      cases h
      exact ⟨nofun, fun _ => rfl⟩
  | setVringKick =>
      obtain ⟨i, validfd, hi, hnum, -⟩ := setVringKick_ret h
      cases (setVringKick_out hi hnum).symm.trans h
      exact ⟨nofun, fun _ => rfl⟩
  | setVringCall =>
      obtain ⟨i, validfd, hi, hnum, -⟩ := setVringCall_ret h
      cases (setVringCall_out hi hnum).symm.trans h
      exact ⟨nofun, fun _ => rfl⟩
  | none | setFeatures | setOwner | resetOwner | setLogBase | setLogFd | setVringErr =>
      cases h
      exact ⟨nofun, fun _ => rfl⟩

end Handlers

/-! ### The system -/

/-- An event that is not a message. -/
def Event.aside : Event → Bool
  | .message _ _ _ => false
  | _ => true

namespace Ioctl

/-- The bytes that a call puts on the connection. -/
def bytes (shmFds : Nat → Int) (c : Ioctl) : List WireByte :=
  onWire (c.msg shmFds) (c.fds shmFds)

/-- What `vhost_ioctl` holds in `msg` where it receives the reply. -/
def replyBuf (shmFds : Nat → Int) (c : Ioctl) : VhostUserMsg :=
  { c.msg shmFds with request := 0, flags := 0 }

/-- What a call stores of the message that answers it. -/
def stores (p : Ioctl × VhostUserMsg) : Ioctl × Option Reply := (p.1, p.1.replyOf p.2.payload)

end Ioctl

/-- The server, the descriptor of the connection there, both directions of the connection, and
the call of `vhost_ioctl` that waits for a reply.  The last two components are history: the
calls that were sent, and what those that ask for a reply have stored. -/
structure StreamState where
  world : World
  sock : Int
  toServer : List WireByte
  toClient : List WireByte
  waiting : Option Ioctl
  called : List Ioctl
  stored : List (Ioctl × Option Reply)

/-- A connection on which nothing has been sent. -/
def StreamState.init (w : World) (sock : Int) : StreamState := ⟨w, sock, [], [], none, [], []⟩

/-- The connection is one that the server waits for. -/
def StreamState.Connected (s : StreamState) : Prop :=
  s.sock ≠ -1 ∧ s.world.server.fdList.Registered s.sock .receiveSockServer

inductive StreamLabel where
  | call (c : Ioctl)
  | handle (answer : RecvAnswer)
  | store (answer : RecvAnswer)
  | event (e : Event)

/-- The kernel returns all that is asked for. -/
def StreamLabel.Whole : StreamLabel → Prop
  | .handle answer | .store answer => answer = .whole
  | _ => True

/-- One step of either process.  The stack of the server may hold anything where a message is
received, and what `map_shm` returns is up to the kernel, as are the answers of `recvmsg`,
`read` and `sendmsg` (of which a reply is always sent, and no message in part). -/
inductive StreamStep (shmFds : Nat → Int) : StreamState → StreamLabel → StreamState → Prop
  /-- `vhost_ioctl` up to the reply -/
  | call {s : StreamState} {c : Ioctl} {answer : SendAnswer} {stream : List WireByte}
      (hfree : s.waiting = none) (h : c.emit answer shmFds = .ret (some stream)) :
      StreamStep shmFds s (.call c)
        { s with
          toServer := s.toServer ++ stream
          waiting := if c.needReply then some c else none
          called := s.called ++ [c] }
  /-- `vhost_ioctl` returns -1, since the message could not be sent -/
  | refused {s : StreamState} {c : Ioctl} {answer : SendAnswer}
      (hfree : s.waiting = none) (h : c.emit answer shmFds = .ret none) :
      StreamStep shmFds s (.call c) s
  /-- `receive_sock_server` -/
  | handle {s : StreamState} {answer : RecvAnswer} {old msg msg' : ServerMsg}
      {maps : Nat → Option MapResult} {rest : List WireByte} {r : Int} {w : World}
      (hreg : s.Connected) (hread : s.toServer ≠ [])
      (hrecv : receiveSockServer answer old s.toServer = .ret (.message msg, rest))
      (hcall : (inMsgServer maps s.world msg).out = .ret (r, msg', w)) :
      StreamStep shmFds s (.handle answer)
        { s with
          world := w
          toServer := rest
          toClient := s.toClient ++ replyMsg r msg' }
  /-- `receive_sock_server` fails -/
  | failed {s : StreamState} {answer : RecvAnswer} {old : ServerMsg} {rest : List WireByte}
      (hreg : s.Connected) (hread : s.toServer ≠ [])
      (hrecv : receiveSockServer answer old s.toServer = .ret (.failed, rest)) :
      StreamStep shmFds s (.handle answer) { s with toServer := rest }
  /-- the rest of `vhost_ioctl`, for a call that waits -/
  | store {s : StreamState} {c : Ioctl} {answer : RecvAnswer} {got : Received} {a : Option Reply}
      (hwait : s.waiting = some c) (hread : s.toClient ≠ [])
      (hrecv : vhostUserRecvFds answer 0 (c.replyBuf shmFds) (fun _ => 0) s.toClient = .ret got)
      (hret : 0 ≤ got.ret) (hstore : c.store got.msg = .ret a) :
      StreamStep shmFds s (.store answer)
        { s with toClient := got.rest, waiting := none, stored := s.stored ++ [(c, a)] }
  /-- `vhost_ioctl` returns -1, since the reply could not be received -/
  | lost {s : StreamState} {c : Ioctl} {answer : RecvAnswer} {got : Received}
      (hwait : s.waiting = some c) (hread : s.toClient ≠ [])
      (hrecv : vhostUserRecvFds answer 0 (c.replyBuf shmFds) (fun _ => 0) s.toClient = .ret got)
      (hret : got.ret < 0) :
      StreamStep shmFds s (.store answer) { s with toClient := got.rest, waiting := none }
  /-- whatever else the server is woken up for -/
  | event {s : StreamState} {e : Event} {fuel : Nat} {w : World} (he : e.aside = true)
      (h : (exec fuel s.world e).out = .ret w) :
      StreamStep shmFds s (.event e) { s with world := w }

/-! ### The service it implements -/

/-- Handling a call is the call of `in_msg_server` for its message. -/
def ioctlHandle (shmFds : Nat → Int) (w : World) (c : Ioctl) (o : Option VhostUserMsg)
    (w' : World) : Prop :=
  ∃ old maps r msg, (inMsgServer maps w (arrived (c.msg shmFds) (c.fds shmFds) old)).out =
    .ret (r, msg, w') ∧ o = if 0 < r then some msg.msg.asReply else none

section Handle
variable {shmFds : Nat → Int} {w w' : World} {c : Ioctl} {maps : Nat → Option MapResult}
  {old msg : ServerMsg} {r : Int}

/-- What the handler of a call returns. -/
theorem inMsgServer_reply
    (h : (inMsgServer maps w (arrived (c.msg shmFds) (c.fds shmFds) old)).out =
      .ret (r, msg, w')) :
    (c.needReply = true → r = 1 ∧ msg.msg.request = c.request.word ∧
      msg.msg.flags = vhostUserVersion ∧ msg.msg.size = 8) ∧
    (c.needReply = false → r = 0) := by
  obtain ⟨req, -, hreq, hout⟩ := inMsgServer_cases h
  obtain rfl : req = c.request :=
    Option.some.inj (hreq.symm.trans (VhostUserRequest.ofWord_word c.request))
  rw [c.needReply_eq]
  exact msgHandler_reply hout

theorem ioctlHandle_answered {o : Option VhostUserMsg} (h : ioctlHandle shmFds w c o w') :
    o.isSome = c.needReply := by
  obtain ⟨old, maps, r, msg, hout, rfl⟩ := h
  obtain ⟨hyes, hno⟩ := inMsgServer_reply hout
  cases hneed : c.needReply with
  | true =>
      rw [(hyes hneed).1]
      rfl
  | false =>
      rw [hno hneed]
      rfl

end Handle

/-- The calls of one connection, as a service. -/
def ioctlService (shmFds : Nat → Int) : Service World Ioctl VhostUserMsg where
  asks := Ioctl.needReply
  handle := ioctlHandle shmFds
  drift w w' := ∃ e fuel, Event.aside e = true ∧ (exec fuel w e).out = .ret w'
  answered := ioctlHandle_answered

/-- What is on the connection are the bytes of what is on the way. -/
structure Carries (shmFds : Nat → Int) (s : StreamState)
    (a : Service.State World Ioctl VhostUserMsg) : Prop where
  world : a.server = s.world
  toServer : s.toServer = a.requests.flatMap (Ioctl.bytes shmFds)
  fits : ∀ c ∈ a.requests, c.TableFits
  toClient : s.toClient = a.replies.flatMap fun m => onWire m []
  waiting : a.waiting = s.waiting
  called : a.called = s.called
  stored : s.stored = a.stored.map Ioctl.stores

/-! ### One read of either side -/

theorem bytes_append_ne_nil (m : VhostUserMsg) (fds : List Int) (rest : List WireByte) :
    onWire m fds ++ rest ≠ [] := by
  intro h
  have := congrArg List.length h
  rw [List.length_append, length_onWire, vhostUserHdrSize] at this
  simp at this

section Reads
variable {shmFds : Nat → Int} {s : StreamState} {a : Service.State World Ioctl VhostUserMsg}

/-- The server reads the message of the first request on the way, and nothing of the next. -/
theorem Carries.receive (h : Carries shmFds s a) (hread : s.toServer ≠ []) (old : ServerMsg) :
    ∃ c rest, a.requests = c :: rest ∧ c.TableFits ∧
      receiveSockServer .whole old s.toServer =
        .ret (.message (arrived (c.msg shmFds) (c.fds shmFds) old),
          rest.flatMap (Ioctl.bytes shmFds)) := by
  cases hq : a.requests with
  | nil =>
      refine absurd ?_ hread
      rw [h.toServer, hq]
      rfl
  | cons c rest =>
      have hfits : c.TableFits := h.fits c (hq ▸ List.mem_cons_self ..)
      refine ⟨c, rest, rfl, hfits, ?_⟩
      rw [h.toServer, hq, List.flatMap_cons]
      exact Ioctl.receive_send shmFds hfits old _

/-- The server takes the first request off the connection, and puts the reply on it. -/
theorem Carries.handle (h : Carries shmFds s a) {c : Ioctl} {rest : List Ioctl}
    (hq : a.requests = c :: rest) (w : World) (r : Int) (msg : ServerMsg) :
    Carries shmFds
      { s with
        world := w
        toServer := rest.flatMap (Ioctl.bytes shmFds)
        toClient := s.toClient ++ replyMsg r msg }
      { a with
        server := w
        requests := rest
        replies := a.replies ++ (if 0 < r then some msg.msg.asReply else none).toList } := by
  refine { h with world := rfl, toServer := rfl, fits := ?_, toClient := ?_ }
  · exact fun d hd => h.fits d (hq ▸ List.mem_cons_of_mem _ hd)
  · show s.toClient ++ replyMsg r msg = (a.replies ++ _).flatMap _
    rw [h.toClient, List.flatMap_append]
    refine congrArg (_ ++ ·) ?_
    rw [replyMsg]
    by_cases hr : 0 < r
    · rw [if_pos hr, if_pos hr]
      exact (List.append_nil _).symm
    · rw [if_neg hr, if_neg hr]
      rfl

/-- A reply is one to its request: the assertions of `vhost_ioctl` hold of it. -/
theorem ioctlHandle_reply {w w' : World} {c : Ioctl} {m : VhostUserMsg}
    (h : ioctlHandle shmFds w c (some m) w') :
    m.request = c.request.word ∧ m.flags &&& Ioctl.versionMask = vhostUserVersion ∧
      m.size = 8 := by
  have hneed : c.needReply = true := (ioctlHandle_answered h).symm
  obtain ⟨old, maps, r, msg, hout, ho⟩ := h
  obtain ⟨rfl, hrequest, hflags, hsize⟩ := (inMsgServer_reply hout).1 hneed
  rw [if_pos Int.one_pos] at ho
  cases ho
  refine ⟨hrequest, ?_, hsize⟩
  have hreplied : msg.msg.asReply.flags = _ :=
    congrArg (fun f => (f &&& ~~~Ioctl.versionMask ||| vhostUserVersion) |||
      Ioctl.replyMask) hflags
  rw [hreplied]
  decide

/-- The client reads a reply whole, and stores its payload. -/
theorem Ioctl.store_reply (shmFds : Nat → Int) (c : Ioctl) {m : VhostUserMsg}
    (hrequest : m.request = c.request.word)
    (hflags : m.flags &&& versionMask = vhostUserVersion) (hsize : m.size = 8) :
    ∃ got, vhostUserRecvFds .whole 0 (c.replyBuf shmFds) (fun _ => 0) (onWire m []) =
        .ret got ∧ 0 ≤ got.ret ∧ got.rest = [] ∧ c.store got.msg = .ret (c.replyOf m.payload) := by
  have hsize' : m.size.toNat = 8 := congrArg UInt32.toNat hsize
  have hreply : vhostUserRecvFds .whole 0 (c.replyBuf shmFds) (fun _ => 0)
      (onWire m [] ++ []) = _ :=
    vhostUserRecvFds_whole (by rw [hsize']; decide) (Nat.le_refl 0) (by decide)
      (by rw [hsize']; decide) ⟨c.replyBuf shmFds, 0, fun _ => 0⟩
  rw [List.append_nil] at hreply
  refine ⟨_, hreply, Int.natCast_nonneg _, rfl, ?_⟩
  have hstored := replyOf_arrived (c := c) (Nat.le_of_eq hsize'.symm) []
    ⟨c.replyBuf shmFds, 0, fun _ => 0⟩
  simp only [store, arrived] at hstored ⊢
  simp only [hrequest, hflags, Outcome.require_pos, Outcome.ret_bind, hstored]
  rfl

end Reads

/-! ### Every run is one of the service -/

section Simulation
variable {shmFds : Nat → Int} {w0 : World} {s t : StreamState}
  {a : Service.State World Ioctl VhostUserMsg} {l : StreamLabel}

/-- The bytes of a run carry a run of the service that is in order. -/
structure Faithful (shmFds : Nat → Int) (w0 : World) (s : StreamState)
    (a : Service.State World Ioctl VhostUserMsg) : Prop where
  carries : Carries shmFds s a
  order : ∃ served answers, Service.InOrder (ioctlService shmFds) w0 a served answers

/-- **The reply that is read is the one that was asked for**, and it is all there is. -/
theorem Faithful.reply (h : Faithful shmFds w0 s a) (hread : s.toClient ≠ []) :
    ∃ c m, s.waiting = some c ∧ a.replies = [m] ∧ s.toClient = onWire m [] ∧
      s.toServer = [] ∧ m.request = c.request.word ∧
      m.flags &&& Ioctl.versionMask = vhostUserVersion ∧ m.size = 8 := by
  obtain ⟨served, answers, horder⟩ := h.order
  cases hr : a.replies with
  | nil =>
      refine absurd ?_ hread
      rw [h.carries.toClient, hr]
      rfl
  | cons m rest =>
      have hm : m ∈ a.replies := hr ▸ List.mem_cons_self ..
      obtain ⟨hone, hrequests, c, hwait, w, w', hanswer⟩ := horder.reply hm
      refine ⟨c, m, h.carries.waiting.symm.trans hwait, hr.symm.trans hone, ?_, ?_,
        ioctlHandle_reply hanswer⟩
      · rw [h.carries.toClient, hone]
        exact List.append_nil _
      · rw [h.carries.toServer, hrequests]
        rfl

/-- **One step**: while reads are whole, each step of the two processes is one of the service
or none. -/
theorem faithful_step (h : Faithful shmFds w0 s a) (hwhole : l.Whole)
    (hs : StreamStep shmFds s l t) :
    ∃ ms b, Transition.Run (ioctlService shmFds).Step a ms b ∧ Faithful shmFds w0 t b := by
  obtain ⟨served, answers, horder⟩ := h.order
  -- one step of the service, whatever it is, keeps the order
  have hone : ∀ {b}, (ioctlService shmFds).Step a () b → Carries shmFds t b →
      ∃ ms b, Transition.Run (ioctlService shmFds).Step a ms b ∧ Faithful shmFds w0 t b :=
    fun hb hc => ⟨_, _, .one hb, hc, Service.inOrder_step horder hb⟩
  cases hs with
  | @call c answer stream hfree hemit =>
      obtain ⟨hfits, rfl⟩ := Ioctl.emit_ret hemit
      refine hone (.call c (h.carries.waiting.trans hfree)) ?_
      refine { h.carries with toServer := ?_, fits := ?_, waiting := rfl, called := ?_ }
      · show s.toServer ++ _ = (a.requests ++ [c]).flatMap _
        rw [h.carries.toServer, List.flatMap_append, List.flatMap_singleton]
        rfl
      · intro d hd
        rcases List.mem_append.mp hd with hd | hd
        · exact h.carries.fits d hd
        · rwa [List.mem_singleton.mp hd]
      · exact congrArg (· ++ [c]) h.carries.called
  | refused _ _ => exact ⟨[], a, .nil, h⟩
  | @handle answer old msg msg' maps rest r w hreg hread hrecv hcall =>
      obtain rfl : answer = .whole := hwhole
      obtain ⟨c, rest', hq, hfits, hwhole⟩ := h.carries.receive hread old
      cases hwhole.symm.trans hrecv
      rw [← h.carries.world] at hcall
      exact hone (.handle hq ⟨old, maps, r, msg', hcall, rfl⟩) (h.carries.handle hq w r msg')
  | @failed answer old rest hreg hread hrecv =>
      obtain rfl : answer = .whole := hwhole
      obtain ⟨c, rest', hq, hfits, hall⟩ := h.carries.receive hread old
      cases hall.symm.trans hrecv
  | @lost c answer got hwait hread hrecv hret =>
      obtain rfl : answer = .whole := hwhole
      obtain ⟨c', m, hwait', hreplies, hbytes, _, hrequest, hflags, hsize⟩ := h.reply hread
      cases hwait.symm.trans hwait'
      obtain ⟨got', hrecv', hret', _⟩ := c.store_reply shmFds hrequest hflags hsize
      rw [hbytes] at hrecv
      cases hrecv'.symm.trans hrecv
      exact absurd hret (Int.not_lt.mpr hret')
  | @store c answer got st hwait hread hrecv hret hstore =>
      obtain rfl : answer = .whole := hwhole
      obtain ⟨c', m, hwait', hreplies, hbytes, _, hrequest, hflags, hsize⟩ := h.reply hread
      cases hwait.symm.trans hwait'
      obtain ⟨got', hrecv', _, hrest, hstore'⟩ :=
        c.store_reply shmFds hrequest hflags hsize
      rw [hbytes] at hrecv
      cases hrecv'.symm.trans hrecv
      cases hstore'.symm.trans hstore
      refine hone (.store (h.carries.waiting.trans hwait) hreplies) ?_
      refine { h.carries with toClient := hrest, waiting := rfl, stored := ?_ }
      show s.stored ++ _ = (a.stored ++ [(c, m)]).map _
      rw [h.carries.stored, List.map_append]
      rfl
  | @event e fuel w he hexec =>
      refine hone (.drift (t := w) ⟨e, fuel, he, ?_⟩) { h.carries with world := rfl }
      rw [h.carries.world]
      exact hexec

/-- **Every run whose reads are whole carries one of the service.** -/
theorem faithful_run {sock : Int} {ls : List StreamLabel}
    (h : Transition.Run (StreamStep shmFds) (.init w0 sock) ls s) (hwhole : ∀ l ∈ ls, l.Whole) :
    ∃ a, Faithful shmFds w0 s a := by
  have hinit : Faithful shmFds w0 (.init w0 sock) (.init w0) :=
    ⟨⟨rfl, rfl, nofun, rfl, rfl, rfl, rfl⟩, [], [], .init _ _⟩
  obtain ⟨_, a, _, ha⟩ := Transition.Run.simulate_rel (R := Faithful shmFds w0)
    (fun s l t a ha hs => faithful_step ha hs.2 hs.1) hinit (h.with_label hwhole)
  exact ⟨a, ha⟩

end Simulation

/-- A server with one connection. -/
def servedWorld : World :=
  (freshWorld 3 true).setFdList
    ((freshWorld 3 true).server.fdList.addFdList 4 .receiveSockServer).2

/-- The connection, with what is on its way in a call that asks for the features. -/
def pipelined (toServer toClient : List WireByte) : StreamState where
  world := servedWorld
  sock := 4
  toServer := toServer
  toClient := toClient
  waiting := some .getFeatures
  called := [.setOwner, .getFeatures]
  stored := []

theorem connected_pipelined (toServer toClient : List WireByte) :
    (pipelined toServer toClient).Connected :=
  ⟨show (4 : Int) ≠ -1 by decide,
    show servedWorld.server.fdList.Registered 4 .receiveSockServer by decide⟩

/-- Two calls are made before the server handles the first. -/
theorem two_calls_run :
    Transition.Run (StreamStep fun _ => 0) (.init servedWorld 4)
      [.call .setOwner, .call .getFeatures]
      (pipelined (Ioctl.bytes (fun _ => 0) .setOwner ++ Ioctl.bytes (fun _ => 0) .getFeatures)
        []) :=
  (Transition.Run.one (.call rfl (Ioctl.emit_sent (c := .setOwner) trivial))).append
    (.one (.call rfl (Ioctl.emit_sent (c := .getFeatures) trivial)))

/-- One of them is handled; its reply, if there is one, follows. -/
theorem pipelined_handle {c : Ioctl} (hfits : c.TableFits) {msg : ServerMsg} {r : Int}
    (rest : List WireByte)
    (hcall : (inMsgServer (fun _ => none) servedWorld (arrived (c.msg fun _ => 0)
      (c.fds fun _ => 0) staleTx)).out = .ret (r, msg, servedWorld)) :
    StreamStep (fun _ => 0) (pipelined (Ioctl.bytes (fun _ => 0) c ++ rest) [])
      (.handle .whole) (pipelined rest (replyMsg r msg)) :=
  StreamStep.handle (s := pipelined (Ioctl.bytes (fun _ => 0) c ++ rest) [])
    (connected_pipelined _ _) (bytes_append_ne_nil _ _ _)
    (Ioctl.receive_send (fun _ => 0) hfits staleTx rest) hcall

/-- The server has handled both, and the reply is on its way. -/
theorem reply_on_its_way : ∃ m : VhostUserMsg,
    Transition.Run (StreamStep fun _ => 0) (.init servedWorld 4)
      [.call .setOwner, .call .getFeatures, .handle .whole, .handle .whole]
      (pipelined [] (onWire m [])) := by
  have hfirst := pipelined_handle (c := .setOwner) (r := 0) trivial
    (Ioctl.bytes (fun _ => 0) .getFeatures) rfl
  have hsecond := pipelined_handle (c := .getFeatures) (r := 1) trivial [] rfl
  rw [List.append_nil] at hsecond
  exact ⟨_, two_calls_run.append ((Transition.Run.one hfirst).append (.one hsecond))⟩

theorem whole_pipelined :
    ∀ l ∈ [.call .setOwner, .call .getFeatures, .handle .whole, .handle .whole],
      StreamLabel.Whole l := by
  intro l hl
  simp only [List.mem_cons, List.not_mem_nil, or_false] at hl
  rcases hl with rfl | rfl | rfl | rfl
  · trivial
  · trivial
  · rfl
  · rfl

section Guarantees
variable {shmFds : Nat → Int} {w0 : World} {sock : Int} {s : StreamState} {ls : List StreamLabel}

/-- **The calls take effect in their order.**  In every run whose reads are whole the server has
handled the first calls that were sent, one after the other, and the connection holds the bytes
of the others.  What the calls that wait have stored are the answers of their own handlers. -/
theorem calls_take_effect_in_order
    (h : Transition.Run (StreamStep shmFds) (.init w0 sock) ls s) (hwhole : ∀ l ∈ ls, l.Whole) :
    ∃ served pending answers,
      s.called = served ++ pending ∧
      s.toServer = pending.flatMap (Ioctl.bytes shmFds) ∧
      (ioctlService shmFds).Served w0 served answers s.world ∧
      s.stored <+: answers.map Ioctl.stores ∧
      (s.waiting = none → s.stored = answers.map Ioctl.stores) := by
  obtain ⟨a, ha⟩ := faithful_run h hwhole
  obtain ⟨served, answers, horder⟩ := ha.order
  obtain ⟨hinitial, hall⟩ := horder.underway.stored
  refine ⟨served, a.requests, answers, ?_, ha.carries.toServer, ?_, ?_, fun hw => ?_⟩
  · rw [← ha.carries.called]
    exact horder.called
  · rw [← ha.carries.world]
    exact horder.handled
  · rw [ha.carries.stored]
    exact hinitial.map _
  · rw [ha.carries.stored, hall (ha.carries.waiting.trans hw)]

theorem calls_take_effect_in_order_pipelined :
    ∃ s, Transition.Run (StreamStep fun _ => 0) (.init servedWorld 4)
        [.call .setOwner, .call .getFeatures, .handle .whole, .handle .whole] s ∧
      ∃ served pending answers, s.called = served ++ pending ∧
        s.toServer = pending.flatMap (Ioctl.bytes fun _ => 0) ∧
        (ioctlService fun _ => 0).Served servedWorld served answers s.world ∧
        s.stored <+: answers.map Ioctl.stores ∧
        (s.waiting = none → s.stored = answers.map Ioctl.stores) := by
  obtain ⟨m, hrun⟩ := reply_on_its_way
  exact ⟨_, hrun, calls_take_effect_in_order hrun whole_pipelined⟩

/-- **No assertion of `vhost_ioctl` fails.**  In every run whose reads are whole, what the client
finds on the connection is one reply of eight bytes to the call that waits, which a whole read
takes and stores; without a call that waits it finds nothing. -/
theorem reply_is_to_waiting_call
    (h : Transition.Run (StreamStep shmFds) (.init w0 sock) ls s) (hwhole : ∀ l ∈ ls, l.Whole) :
    (∀ c, s.waiting = some c → s.toClient ≠ [] →
      ∃ got m, vhostUserRecvFds .whole 0 (c.replyBuf shmFds) (fun _ => 0) s.toClient = .ret got ∧
        0 ≤ got.ret ∧ got.rest = [] ∧ s.toClient = onWire m [] ∧ m.size = 8 ∧
        c.store got.msg = .ret (c.replyOf m.payload)) ∧
    (s.waiting = none → s.toClient = []) := by
  obtain ⟨a, ha⟩ := faithful_run h hwhole
  refine ⟨fun c hwait hread => ?_, fun hwait => ?_⟩
  · obtain ⟨c', m, hwait', _, hbytes, _, hrequest, hflags, hsize⟩ := ha.reply hread
    cases hwait.symm.trans hwait'
    obtain ⟨got, hrecv, hret, hrest, hstore⟩ :=
      c.store_reply shmFds hrequest hflags hsize
    rw [← hbytes] at hrecv
    exact ⟨got, m, hrecv, hret, hrest, hbytes, hsize, hstore⟩
  · by_contra hread
    obtain ⟨c, _, hsome, _⟩ := ha.reply hread
    exact nomatch hwait.symm.trans hsome

theorem reply_is_to_waiting_call_pipelined :
    ∃ s, Transition.Run (StreamStep fun _ => 0) (.init servedWorld 4)
        [.call .setOwner, .call .getFeatures, .handle .whole, .handle .whole] s ∧
      s.waiting = some .getFeatures ∧ s.toClient ≠ [] ∧
      ∃ got m, vhostUserRecvFds .whole 0 (Ioctl.getFeatures.replyBuf fun _ => 0) (fun _ => 0)
          s.toClient = .ret got ∧ 0 ≤ got.ret ∧ got.rest = [] ∧
        s.toClient = onWire m [] ∧ m.size = 8 ∧
        Ioctl.getFeatures.store got.msg = .ret (Ioctl.getFeatures.replyOf m.payload) := by
  obtain ⟨m, hrun⟩ := reply_on_its_way
  have hne : onWire m [] ≠ [] := by
    rw [← List.append_nil (onWire m [])]
    exact bytes_append_ne_nil _ _ _
  exact ⟨_, hrun, rfl, hne, (reply_is_to_waiting_call hrun whole_pipelined).1 _ rfl hne⟩

/-! ### A call that waits ends -/

/-- The server does not return from the handler of the next message, whatever its stack
holds and whatever `map_shm` returns. -/
def StreamState.Stuck (shmFds : Nat → Int) (s : StreamState) : Prop :=
  ∃ d rest, s.toServer = Ioctl.bytes shmFds d ++ rest ∧
    ∀ old maps x, (inMsgServer maps s.world (arrived (d.msg shmFds) (d.fds shmFds) old)).out ≠
      .ret x

/-- **Progress**, by induction on the requests in front of the reply. -/
theorem Faithful.ends {n : Nat} : ∀ {s : StreamState} {a : Service.State World Ioctl VhostUserMsg}
    {c : Ioctl}, Faithful shmFds w0 s a → a.requests.length = n → s.Connected →
    s.waiting = some c →
    ∃ ms t, Transition.Run (StreamStep shmFds) s ms t ∧ ms.length ≤ n + 1 ∧
      (∀ l ∈ ms, l.Whole) ∧
      ((t.waiting = none ∧ ∃ r, t.stored = s.stored ++ [(c, r)]) ∨ t.Stuck shmFds) := by
  induction n with
  | zero =>
      intro s a c h hn _ hwait
      obtain ⟨served, answers, horder⟩ := h.order
      have hreplies : ∃ m, a.replies = [m] := by
        refine (horder.underway.progress (h.carries.waiting.trans hwait)).resolve_left ?_
        rw [List.length_eq_zero_iff.mp hn]
        exact List.not_mem_nil
      obtain ⟨m, hm⟩ := hreplies
      have hread : s.toClient ≠ [] := by
        rw [h.carries.toClient, hm, List.flatMap_cons]
        exact bytes_append_ne_nil _ _ _
      obtain ⟨c', m', hwait', _, hbytes, _, hrequest, hflags, hsize⟩ := h.reply hread
      cases hwait.symm.trans hwait'
      obtain ⟨got, hrecv, hret, _, hstore⟩ :=
        c.store_reply shmFds hrequest hflags hsize
      rw [← hbytes] at hrecv
      refine ⟨_, _, .one (.store hwait hread hrecv hret hstore), Nat.le_refl 1, fun l hl => ?_,
        .inl ⟨rfl, _, rfl⟩⟩
      rw [List.mem_singleton.mp hl]
      rfl
  | succ n ih =>
      intro s a c h hn hconn hwait
      obtain ⟨served, answers, horder⟩ := h.order
      obtain ⟨d, rest, hq⟩ := List.exists_cons_of_length_eq_add_one hn
      have hbytes : s.toServer = Ioctl.bytes shmFds d ++ rest.flatMap (Ioctl.bytes shmFds) := by
        rw [h.carries.toServer, hq, List.flatMap_cons]
      by_cases hreturns : ∃ old maps x,
          (inMsgServer maps s.world (arrived (d.msg shmFds) (d.fds shmFds) old)).out = .ret x
      · obtain ⟨old, maps, ⟨r, msg, w⟩, hcall⟩ := hreturns
        have hread : s.toServer ≠ [] := hbytes ▸ bytes_append_ne_nil _ _ _
        obtain ⟨d', rest', hq', _, hrecv⟩ := h.carries.receive hread old
        cases hq.symm.trans hq'
        have hhandled := h.carries.handle hq w r msg
        have hstep : StreamStep shmFds s (.handle .whole) _ := .handle hconn hread hrecv hcall
        have hreg := inMsgServer_registered hconn.1 hcall hconn.2
        rw [← h.carries.world] at hcall
        have horder' := Service.inOrder_step horder
          (Service.Step.handle (V := ioctlService shmFds) hq ⟨old, maps, r, msg, hcall, rfl⟩)
        rw [hq] at hn
        obtain ⟨ms, t, hrun, hlen, hms, hend⟩ :=
          ih ⟨hhandled, horder'⟩ (Nat.succ.inj hn) ⟨hconn.1, hreg⟩ hwait
        refine ⟨[.handle .whole] ++ ms, t, (Transition.Run.one hstep).append hrun, ?_, ?_, hend⟩
        · rw [List.length_append, List.length_singleton]
          omega
        · exact List.forall_mem_cons.mpr ⟨rfl, hms⟩
      · exact ⟨[], s, .nil, Nat.zero_le _, nofun,
          .inr ⟨d, _, hbytes, fun old maps x hx => hreturns ⟨old, maps, x, hx⟩⟩⟩

end Guarantees

end Vapp
